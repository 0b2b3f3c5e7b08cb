import ChainGuard.Proofs.Tree.Positions

/-!
# Counting characters instead of bytes

A tree counts bytes and a text counts characters. The conversion between the two does not show: a
source whose text has characters of several bytes behaves as the source with a plain text and a tree
that counts characters. The positions of the tree have to lie between characters, and no node but
the root may be empty, because an empty node still reaches the byte at which it stands.

1. `Text.plain`: searches in a text and in its plain form find the same.
2. `Text.IsBoundary`: positions between characters keep their order when they are counted in
   characters.
3. `Source.inCharacters`: the plain source.
   `Source.Aligned.tokenAt?_eq`, `Source.Aligned.guard?_eq`: it has the same tokens and guards.
   Main statement: `Source.conversion_is_transparent`.
-/

namespace ChainGuard

namespace Text

/-! ## 1. Plain texts -/

/-- An ASCII character stands for itself, and all others become `x`. -/
def plainChar (c : Char) : Char :=
  if c.utf8Size = 1 then c else 'x'

/-- The text with `x` in place of every character of several bytes. -/
def plain (t : Text) : Text :=
  t.map plainChar

/-- A character of one byte other than `x` is there in the plain text where it is in the text. -/
def IsKept (c : Char) : Prop :=
  c.utf8Size = 1 ∧ c ≠ 'x'

instance (c : Char) : Decidable (IsKept c) :=
  inferInstanceAs (Decidable (_ ∧ _))

theorem plainChar_eq_iff {c d : Char} (h : IsKept c) : plainChar d = c ↔ d = c := by
  unfold plainChar
  split
  · exact Iff.rfl
  · next hd =>
    refine iff_of_false (fun heq => h.2 heq.symm) ?_
    rintro rfl
    exact hd h.1

theorem isAscii_plain (t : Text) : t.plain.isAscii = true := by
  rw [isAscii, plain, List.all_map, List.all_eq_true]
  intro c _
  rw [Function.comp_apply, beq_iff_eq, plainChar]
  split
  · assumption
  · decide

@[simp]
theorem length_plain (t : Text) : t.plain.length = t.length :=
  List.length_map plainChar

theorem slice_plain (t : Text) (lo hi : Nat) : t.plain.slice lo hi = (t.slice lo hi).plain := by
  unfold slice plain
  rw [← List.map_take, ← List.map_drop]

theorem last?_plain {c : Char} (h : IsKept c) (t : Text) : last? c t.plain = last? c t := by
  induction t with
  | nil => rfl
  | cons x xs ih =>
    unfold plain at ih ⊢
    rw [List.map_cons, last?, last?, ih]
    simp only [plainChar_eq_iff h]

theorem firstFrom?_plain {c : Char} (h : IsKept c) (t : Text) (start : Nat) :
    t.plain.firstFrom? c start = t.firstFrom? c start := by
  unfold firstFrom? plain List.idxOf?
  rw [← List.map_drop, List.findIdx?_map]
  congr 2
  funext d
  rw [Function.comp_apply, Bool.eq_iff_iff, beq_iff_eq, beq_iff_eq, plainChar_eq_iff h]

theorem isPrefixOf_plain {part : Text} (h : ∀ c ∈ part, IsKept c) (t : Text) :
    part.isPrefixOf t.plain = part.isPrefixOf t := by
  induction part generalizing t with
  | nil => rfl
  | cons c cs ih =>
    cases t with
    | nil => rfl
    | cons x xs =>
      have hc : (c == plainChar x) = (c == x) := by
        rw [Bool.eq_iff_iff, beq_iff_eq, beq_iff_eq, eq_comm,
          plainChar_eq_iff (h c List.mem_cons_self), eq_comm]
      unfold plain at ih ⊢
      rw [List.map_cons, List.isPrefixOf, List.isPrefixOf, hc,
        ih fun d hd => h d (List.mem_cons_of_mem _ hd)]

theorem plain_eq_iff {part : Text} (h : ∀ c ∈ part, IsKept c) (t : Text) :
    t.plain = part ↔ t = part := by
  induction part generalizing t with
  | nil => exact List.map_eq_nil_iff
  | cons c cs ih =>
    cases t with
    | nil => exact Iff.rfl
    | cons x xs =>
      unfold plain at ih ⊢
      rw [List.map_cons, List.cons.injEq, List.cons.injEq,
        plainChar_eq_iff (h c List.mem_cons_self), ih fun d hd => h d (List.mem_cons_of_mem _ hd)]

theorem isKept_marker : ∀ c ∈ marker, IsKept c := by
  intro c hc
  simp only [marker, List.mem_cons, List.not_mem_nil, or_false] at hc
  rcases hc with rfl | rfl
  · decide
  · decide

theorem hasMarker_plain (t : Text) : t.plain.hasMarker = t.hasMarker := by
  unfold hasMarker
  induction t with
  | nil => rfl
  | cons x xs ih =>
    have hprefix := isPrefixOf_plain isKept_marker (x :: xs)
    unfold plain at ih hprefix ⊢
    rw [List.map_cons] at hprefix ⊢
    rw [holds, holds, ih, hprefix]

/-! ## 2. Positions between characters -/

/-- The byte position lies between two characters, or at an end of the text. -/
def IsBoundary (t : Text) (byte : Nat) : Prop :=
  ∃ k ≤ t.length, utf8Length (t.take k) = byte

instance (t : Text) (byte : Nat) : Decidable (t.IsBoundary byte) :=
  decidable_of_iff (byte ∈ (List.range (t.length + 1)).map fun k => utf8Length (t.take k)) (by
    simp only [IsBoundary, List.mem_map, List.mem_range, Nat.lt_succ_iff])

theorem wholeChars_utf8Length_take {t : Text} {k : Nat} (hk : k ≤ t.length) :
    wholeChars t (utf8Length (t.take k)) = k := by
  have h := wholeChars_utf8Length (t.take k) (t.drop k)
  rwa [List.take_append_drop, List.length_take, Nat.min_eq_left hk] at h

theorem utf8Length_take_eq_zero_iff {t : Text} {k : Nat} (hk : k ≤ t.length) :
    utf8Length (t.take k) = 0 ↔ k = 0 := by
  constructor
  · intro hzero
    rw [← wholeChars_utf8Length_take hk, hzero, wholeChars_zero]
  · rintro rfl
    rfl

theorem isBoundary_take {t : Text} {k : Nat} (hk : k ≤ t.length) :
    t.IsBoundary (utf8Length (t.take k)) :=
  ⟨k, hk, rfl⟩

/-- Counting characters keeps positions apart. -/
theorem IsBoundary.eq_of_wholeChars_eq {t : Text} {a b : Nat} (ha : t.IsBoundary a)
    (hb : t.IsBoundary b) (h : wholeChars t a = wholeChars t b) : a = b := by
  obtain ⟨j, hj, rfl⟩ := ha
  obtain ⟨k, hk, rfl⟩ := hb
  rw [wholeChars_utf8Length_take hj, wholeChars_utf8Length_take hk] at h
  rw [h]

/-- Counting characters keeps the order of positions. -/
theorem IsBoundary.wholeChars_le_iff {t : Text} {a b : Nat} (ha : t.IsBoundary a)
    (hb : t.IsBoundary b) : wholeChars t a ≤ wholeChars t b ↔ a ≤ b := by
  constructor
  · intro h
    rcases Nat.le_total a b with hab | hba
    · exact hab
    · have hle := wholeChars_mono t hba
      exact Nat.le_of_eq (ha.eq_of_wholeChars_eq hb (Nat.le_antisymm h hle))
  · exact wholeChars_mono t

end Text

/-! ## 3. Plain sources -/

namespace Source

/-- The source with a plain text and a tree that counts characters. -/
def inCharacters (s : Source) : Source where
  text := s.text.plain
  root := s.root.mapPositions (Text.wholeChars s.text)

/-- All positions of the tree lie between characters, and no node but the root is empty. -/
structure Aligned (s : Source) : Prop where
  boundaries : ∀ node : Tree, node.Below s.root →
    s.text.IsBoundary node.start ∧ s.text.IsBoundary node.stop
  not_empty : ∀ node child : Tree, node.Below s.root → child ∈ node.children →
    child.start ≠ child.stop

theorem text_inCharacters (s : Source) : s.inCharacters.text = s.text.plain := rfl

/-! ### Positions -/

theorem charAt_of_isBoundary {s : Source} {byte : Nat} (h : s.text.IsBoundary byte) :
    s.charAt byte = Text.wholeChars s.text byte := by
  obtain ⟨k, hk, rfl⟩ := h
  rw [charAt_utf8Length (List.take_append_drop k s.text).symm, List.length_take,
    Nat.min_eq_left hk, Text.wholeChars_utf8Length_take hk]

theorem charAt_inCharacters (s : Source) (pos : Nat) : s.inCharacters.charAt pos = pos :=
  if_pos (Text.isAscii_plain s.text)

theorem byteOffset_inCharacters (s : Source) (offset : Int) :
    s.inCharacters.byteOffset offset = offset :=
  if_pos (Text.isAscii_plain s.text)

theorem Aligned.startOf_eq {s : Source} (h : s.Aligned) {t : Tree} (ht : t.Below s.root) :
    s.inCharacters.startOf (t.mapPositions (Text.wholeChars s.text)) = s.startOf t := by
  rw [startOf, startOf, charAt_inCharacters, Tree.start_mapPositions,
    charAt_of_isBoundary (h.boundaries t ht).1]

theorem Aligned.stopOf_eq {s : Source} (h : s.Aligned) {t : Tree} (ht : t.Below s.root) :
    s.inCharacters.stopOf (t.mapPositions (Text.wholeChars s.text)) = s.stopOf t := by
  rw [stopOf, stopOf, charAt_inCharacters, Tree.stop_mapPositions,
    charAt_of_isBoundary (h.boundaries t ht).2]

/-! ### Tokens -/

/-- Seen from two positions, the node has the same ones on its two sides. -/
theorem Aligned.corresponds {s : Source} (h : s.Aligned) {node child : Tree}
    (hnode : node.Below s.root) (hchild : child ∈ node.children) {b b' : Nat}
    (hside : ∀ pos, s.text.IsBoundary pos → (Text.wholeChars s.text pos ≤ b' ↔ pos ≤ b)) :
    Focus.Corresponds (Text.wholeChars s.text) b b' child := by
  obtain ⟨hstart, hstop⟩ := h.boundaries child (hnode.of_mem_children hchild)
  have hne := h.not_empty node child hnode hchild
  have hne' : Text.wholeChars s.text child.start ≠ Text.wholeChars s.text child.stop :=
    fun heq => hne (hstart.eq_of_wholeChars_eq hstop heq)
  constructor
  · rw [Tree.endsBefore, Tree.endsBefore, Tree.start_mapPositions, Tree.stop_mapPositions,
      if_neg hne, if_neg hne']
    exact decide_eq_decide.mpr (hside _ hstop)
  · rw [← Nat.not_le, ← Nat.not_le, hside _ hstart]

/-- The deepest node at a character is the same. -/
theorem Aligned.deepestAt_eq {s : Source} (h : s.Aligned) {k : Nat} (hk : k ≤ s.text.length) :
    s.inCharacters.deepestAt k =
      (s.deepestAt (Text.utf8Length (s.text.take k))).mapPositions (Text.wholeChars s.text) := by
  refine Focus.descend_mapPositions [] s.root fun node child hnode hchild =>
    h.corresponds hnode hchild fun pos hpos => ?_
  have hle := hpos.wholeChars_le_iff (Text.isBoundary_take hk)
  rwa [Text.wholeChars_utf8Length_take hk] at hle

/-- The byte before a character position may lie inside a character, but no position of the tree
does. -/
theorem Aligned.deepestAt_pred_eq {s : Source} (h : s.Aligned) {k : Nat} (hk : k ≤ s.text.length)
    (hpos : 0 < k) :
    s.inCharacters.deepestAt (k - 1) =
      (s.deepestAt (Text.utf8Length (s.text.take k) - 1)).mapPositions
        (Text.wholeChars s.text) := by
  refine Focus.descend_mapPositions [] s.root fun node child hnode hchild =>
    h.corresponds hnode hchild fun pos hpos => ?_
  have hle := (Text.isBoundary_take hk).wholeChars_le_iff hpos
  rw [Text.wholeChars_utf8Length_take hk] at hle
  have hzero := Text.utf8Length_take_eq_zero_iff hk
  omega

theorem Aligned.tokenAt?_eq {s : Source} (h : s.Aligned) (offset : Int) :
    s.inCharacters.tokenAt? offset =
      (s.tokenAt? offset).map (Focus.mapPositions (Text.wholeChars s.text)) := by
  unfold tokenAt?
  rw [text_inCharacters, Text.length_plain]
  split
  · rfl
  · next hrange =>
    obtain ⟨k, rfl⟩ : ∃ k : Nat, offset = k := ⟨offset.toNat, by omega⟩
    have hk : k ≤ s.text.length := by omega
    have hbyte : s.byteOffset k = Text.utf8Length (s.text.take k) := by
      have hlen : (s.text.take k).length = k := List.length_take_of_le hk
      have hoffset := byteOffset_length (List.take_append_drop k s.text).symm
      rwa [hlen] at hoffset
    rw [byteOffset_inCharacters, hbyte, Int.toNat_natCast, Int.toNat_natCast]
    simp only [h.deepestAt_eq hk, Focus.isRoot_mapPositions, Text.utf8Length_take_eq_zero_iff hk]
    split
    · rfl
    · split
      · rfl
      · next hzero =>
        rw [h.deepestAt_pred_eq hk (Nat.pos_of_ne_zero hzero), Focus.isRoot_mapPositions]
        split <;> rfl

/-- The number of the token at a position, in the preorder of the tree. -/
def tokenIndex? (s : Source) (offset : Int) : Option Nat :=
  (s.tokenAt? offset).bind fun token =>
    (Focus.preorder s.root).findIdx? fun node => node.path == token.path

theorem Aligned.tokenIndex?_eq {s : Source} (h : s.Aligned) (offset : Int) :
    s.inCharacters.tokenIndex? offset = s.tokenIndex? offset := by
  unfold tokenIndex?
  rw [h.tokenAt?_eq, Option.bind_map]
  congr 1
  funext token
  rw [Function.comp_apply, inCharacters, Focus.preorder_mapPositions, List.findIdx?_map]
  congr 1
  funext node
  rw [Function.comp_apply, Focus.path_mapPositions, Focus.path_mapPositions]

/-! ### Guards -/

theorem Aligned.within_eq {s : Source} (h : s.Aligned) {t outer : Tree} (ht : t.Below s.root)
    (houter : outer.Below s.root) :
    (t.mapPositions (Text.wholeChars s.text)).within
      (outer.mapPositions (Text.wholeChars s.text)) = t.within outer := by
  obtain ⟨hstart, hstop⟩ := h.boundaries t ht
  obtain ⟨hstart', hstop'⟩ := h.boundaries outer houter
  simp only [Tree.within, Tree.start_mapPositions, Tree.stop_mapPositions,
    hstart'.wholeChars_le_iff hstart, hstop.wholeChars_le_iff hstop']

theorem Aligned.guardMember?_eq {s : Source} (h : s.Aligned) {t base : Tree}
    (ht : t.Below s.root) (hbase : base.Below s.root) :
    s.inCharacters.guardMember? (t.mapPositions (Text.wholeChars s.text))
      (base.mapPositions (Text.wholeChars s.text)) = s.guardMember? t base := by
  unfold guardMember?
  rw [Tree.field?_mapPositions, h.stopOf_eq hbase]
  cases hfield : t.field? .property with
  | none => rfl
  | some property =>
    have hproperty : property.Below s.root :=
      ht.of_mem_children (List.mem_of_find?_eq_some hfield)
    simp only [Option.map_some, h.startOf_eq hproperty, text_inCharacters, Text.slice_plain,
      Text.last?_plain (c := '.') (by decide), Text.plain_eq_iff Text.isKept_marker]

theorem Aligned.guardIndexed?_eq {s : Source} (h : s.Aligned) {t base : Tree}
    (ht : t.Below s.root) (hbase : base.Below s.root) :
    s.inCharacters.guardIndexed? (t.mapPositions (Text.wholeChars s.text))
      (base.mapPositions (Text.wholeChars s.text)) = s.guardIndexed? t base := by
  unfold guardIndexed?
  rw [h.stopOf_eq hbase, h.stopOf_eq ht]
  simp only [text_inCharacters, Text.firstFrom?_plain (c := '[') (by decide), Text.slice_plain,
    Text.plain_eq_iff Text.isKept_marker]

theorem Aligned.guardInvocation?_eq {s : Source} (h : s.Aligned) (f : Focus) {callee : Tree}
    (hcallee : callee.Below s.root) :
    s.inCharacters.guardInvocation? (f.mapPositions (Text.wholeChars s.text))
      (callee.mapPositions (Text.wholeChars s.text)) = s.guardInvocation? f callee := by
  unfold guardInvocation?
  have hplain : isPlainCallee (callee.mapPositions (Text.wholeChars s.text)) =
      isPlainCallee callee := by
    rw [isPlainCallee, isPlainCallee, Tree.kind_mapPositions]
  rw [h.stopOf_eq hcallee, hplain, Focus.parent?_mapPositions, Option.any_map, text_inCharacters]
  simp only [Focus.here_mapPositions, Tree.kind_mapPositions, Text.slice_plain,
    Text.hasMarker_plain]

/-- The edit for a node of the tree is the same. -/
theorem Aligned.guard?_eq {s : Source} (h : s.Aligned) {f : Focus} (hf : f.IsIn s.root) :
    s.inCharacters.guard? (f.mapPositions (Text.wholeChars s.text)) = s.guard? f := by
  have hhere : f.here.Below s.root := hf.here_below
  have hwritten : (f.mapPositions (Text.wholeChars s.text)).isWritten = f.isWritten :=
    Focus.isWritten_mapPositions hf fun _ _ => h.within_eq
  unfold guard?
  rw [hwritten, Focus.isTemplateTag_mapPositions, Focus.here_mapPositions,
    Tree.base?_mapPositions, Tree.shape_mapPositions]
  cases hbase : f.here.base? with
  | none => rfl
  | some base =>
    obtain ⟨_, _, -, -, hmem⟩ := WriteSafetyLemmas.base?_eq_some hbase
    have hbelow : base.Below s.root := hhere.of_mem_children (List.mem_of_getElem? hmem)
    simp only [Option.map_some, Tree.asserts_mapPositions, Tree.kind_mapPositions,
      h.guardMember?_eq hhere hbelow, h.guardIndexed?_eq hhere hbelow,
      h.guardInvocation?_eq f hbelow]

/-- For a source whose tree is aligned with its text, it makes no difference whether bytes or
characters are counted: the tokens are the same nodes, with the same numbers in their trees, and
every diagnostic gets the same edit, or none. -/
theorem conversion_is_transparent {s : Source} (h : s.Aligned) :
    (∀ offset, s.inCharacters.tokenAt? offset =
      (s.tokenAt? offset).map (Focus.mapPositions (Text.wholeChars s.text))) ∧
    (∀ offset, s.inCharacters.tokenIndex? offset = s.tokenIndex? offset) ∧
    ∀ code offset, s.inCharacters.fix? code offset = s.fix? code offset := by
  refine ⟨h.tokenAt?_eq, h.tokenIndex?_eq, fun code offset => ?_⟩
  unfold fix?
  rw [h.tokenAt?_eq]
  cases htoken : s.tokenAt? offset with
  | none => rfl
  | some token =>
    rw [Option.map_some, Option.bind_some, Option.bind_some, Focus.target?_mapPositions]
    cases htarget : token.target? code with
    | none => rfl
    | some target => exact h.guard?_eq (Focus.target?_isIn (tokenAt?_isIn htoken) htarget)

def accentedAccess : Source where
  text := "a.é".toList
  root :=
    .node ⟨.other "program", 0, 4, true, none⟩
      [.node ⟨.memberExpression, 0, 4, true, none⟩
        [.node ⟨.identifier, 0, 1, true, some .object⟩ [],
          .node ⟨.other ".", 1, 2, false, none⟩ [],
          .node ⟨.other "property_identifier", 2, 4, true, some .property⟩ []]]

theorem aligned_accentedAccess : accentedAccess.Aligned := by
  have hall : ∀ f ∈ Focus.preorder accentedAccess.root,
      accentedAccess.text.IsBoundary f.here.start ∧ accentedAccess.text.IsBoundary f.here.stop ∧
      ∀ child ∈ f.here.children, child.start ≠ child.stop := by
    decide +kernel
  constructor
  · intro node hnode
    obtain ⟨f, hf, rfl⟩ := Focus.exists_preorder_iff.mpr hnode
    exact ⟨(hall f hf).1, (hall f hf).2.1⟩
  · intro node child hnode hchild
    obtain ⟨f, hf, rfl⟩ := Focus.exists_preorder_iff.mpr hnode
    exact (hall f hf).2.2 child hchild

/-- At the end of `a.é` the look to the left meets the middle of the last character, and in `a.x`
the character itself. Both find the property, and the same dot in front of it. -/
theorem accented_access_found_from_its_end :
    accentedAccess.Aligned ∧ accentedAccess.inCharacters.text = "a.x".toList ∧
    accentedAccess.inCharacters.tokenIndex? 3 = some 4 ∧ accentedAccess.tokenIndex? 3 = some 4 ∧
    accentedAccess.inCharacters.fix? 2532 3 = some (.replaceByMarker 1) ∧
    accentedAccess.fix? 2532 3 = some (.replaceByMarker 1) := by
  obtain ⟨-, hindex, hfix⟩ := conversion_is_transparent aligned_accentedAccess
  have htoken : accentedAccess.tokenIndex? 3 = some 4 := by decide +kernel
  have hedit : accentedAccess.fix? 2532 3 = some (.replaceByMarker 1) := by decide +kernel
  exact ⟨aligned_accentedAccess, by decide +kernel, (hindex 3).trans htoken, htoken,
    (hfix 2532 3).trans hedit, hedit⟩

end Source

end ChainGuard
