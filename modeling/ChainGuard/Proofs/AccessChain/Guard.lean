import ChainGuard.Proofs.AccessChain.Lookup

/-!
# The edit for a segment

In a chain every segment stands right behind the text of its base, and that text never ends in a
character of the marker. So the searches for a dot, a bracket and a marker around the end of the
base see the segment itself and nothing else.

1. `EndsPlainly`: how the text in front of a segment ends.
2. `asserts_baseAt`, `isWritten_focus`, `isTemplateTag_focus`: what keeps a segment unguarded.
3. `guard?_focus`: the edit for the node of a segment, exactly when the segment is guardable.
-/

namespace ChainGuard

/-! ## 1. Ends of texts -/

/-- The text has a last character, and it is not one of the marker. -/
def Text.EndsPlainly (t : Text) : Prop :=
  ∃ x, t.getLast? = some x ∧ x ∉ Text.marker

namespace Text.EndsPlainly

theorem append_left {b : Text} (h : EndsPlainly b) (a : Text) : EndsPlainly (a ++ b) := by
  obtain ⟨x, hx, hplain⟩ := h
  exact ⟨x, by rw [List.getLast?_append, hx]; rfl, hplain⟩

theorem of_name {name : Text} (hne : name ≠ []) (hchars : ∀ x ∈ name, x ∉ marker) :
    EndsPlainly name :=
  ⟨name.getLast hne, List.getLast?_eq_some_getLast hne, hchars _ (List.getLast_mem hne)⟩

theorem length_pos {t : Text} (h : EndsPlainly t) : 0 < t.length := by
  obtain ⟨x, hx, -⟩ := h
  refine List.length_pos_iff.mpr fun hnil => ?_
  rw [hnil] at hx
  cases hx

theorem getElem?_append {t : Text} (h : EndsPlainly t) (rest : Text) :
    (t ++ rest)[t.length - 1]? ≠ some '?' ∧ (t ++ rest)[t.length - 1]? ≠ some '.' := by
  have hpos := h.length_pos
  obtain ⟨x, hx, hplain⟩ := h
  rw [List.getLast?_eq_getElem?] at hx
  rw [List.getElem?_append_left (by omega), hx]
  constructor
  · rintro ⟨⟩
    exact hplain (by decide)
  · rintro ⟨⟩
    exact hplain (by decide)

end Text.EndsPlainly

theorem Segment.endsPlainly {s : Segment} (h : s.WellFormed) : s.text.EndsPlainly := by
  have hlast : ∀ (a : Text) (x : Char), x ∉ Text.marker → (a ++ [x]).EndsPlainly := by
    intro a x hx
    exact ⟨x, List.getLast?_concat, hx⟩
  cases s with
  | property m name => exact (Text.EndsPlainly.of_name h.1 h.2).append_left m.dotText
  | index m content nodes =>
    exact (hlast ('[' :: content) ']' (by decide)).append_left m.text
  | call m content nodes =>
    exact (hlast ('(' :: content) ')' (by decide)).append_left m.text
  | assertion => exact hlast [] '!' (by decide)

namespace AccessChain

theorem endsPlainly_textTo {c : AccessChain} (hc : c.WellFormed) (k : Nat) :
    (c.textTo k).EndsPlainly := by
  induction k with
  | zero =>
    have hroot : c.textTo 0 = c.root := List.append_nil c.root
    rw [hroot]
    exact Text.EndsPlainly.of_name hc.root_ne_nil hc.root_chars
  | succ k ih =>
    cases hk : c.segments[k]? with
    | none =>
      have hstay : c.textTo (k + 1) = c.textTo k := by
        unfold textTo
        rw [List.take_add_one, hk]
        simp
      rw [hstay]
      exact ih
    | some s =>
      rw [textTo_succ hk]
      exact (Segment.endsPlainly (hc.segments s (List.mem_of_getElem? hk))).append_left _

/-! ## 2. Reasons to leave a segment alone -/

end AccessChain

namespace Segment

theorem asserts_label (s : Segment) (base : Tree) : (s.label base).asserts = base.asserts := by
  cases base
  cases s <;> rfl

theorem asserts_node (s : Segment) (base : Tree) :
    (s.node base).asserts = (s.isAssertion || base.asserts) := by
  have haccess : (s.node base).isAccess = !s.isAssertion := AccessChain.isAccess_labelled s base []
  have hbase : (s.node base).baseField? = s.baseField? := AccessChain.baseField?_labelled s base []
  cases hfield : s.baseField? with
  | none =>
    cases s with
    | assertion => rfl
    | _ => cases hfield
  | some f =>
    have hplain : s.isAssertion = false := by
      cases s with
      | assertion => cases hfield
      | _ => rfl
    rw [hplain, Bool.not_false] at haccess
    rw [hfield] at hbase
    have hkind : s.kind ≠ .nonNullExpression ∧ s.kind ≠ .parenthesizedExpression := by
      cases s with
      | assertion => cases hplain
      | _ => exact ⟨nofun, nofun⟩
    rw [node] at haccess hbase ⊢
    rw [Tree.asserts, if_neg hkind.1, if_neg hkind.2, if_pos haccess, hbase, hplain,
      Bool.false_or]
    show Tree.firstAsserts (Tree.hasField f) (s.label base :: _) = _
    rw [Tree.firstAsserts, if_pos (hasField_label hfield base), asserts_label]

end Segment

namespace AccessChain

theorem asserts_nodeFrom (base : Tree) (segs : List Segment) :
    (nodeFrom base segs).asserts = (segs.any Segment.isAssertion || base.asserts) := by
  induction segs generalizing base with
  | nil => rfl
  | cons s rest ih =>
    rw [nodeFrom, ih, Segment.asserts_node, List.any_cons, ← Bool.or_assoc,
      Bool.or_comm (rest.any _)]

theorem asserts_baseAt (c : AccessChain) (k : Nat) :
    (c.baseAt k).asserts = (c.segments.take k).any Segment.isAssertion := by
  have hroot : c.rootNode.asserts = false := rfl
  rw [baseAt, asserts_nodeFrom, hroot, Bool.or_false]

theorem writtenBy_labelled (t : Tree) (s : Segment) (base : Tree) (rest : List Segment) :
    t.writtenBy (labelled (s.node base) rest) = false := by
  unfold Tree.writtenBy Tree.writeTarget?
  rw [labelled_kind, Segment.node_kind]
  cases s <;> rfl

theorem writtenUnder_spine (c : AccessChain) (t base : Tree) (segs : List Segment) :
    Focus.writtenUnder t (spine c.outer base segs) = false := by
  induction segs generalizing t base with
  | nil => rfl
  | cons s rest ih =>
    rw [spine, Focus.writtenUnder, writtenBy_labelled, Bool.false_or]
    exact ih _ (s.node base)

theorem isWritten_focus (c : AccessChain) (k : Nat) : (c.focus k).isWritten = false :=
  c.writtenUnder_spine _ _ _

theorem tagsTemplate_spine (c : AccessChain) (base : Tree) (segs : List Segment) :
    Focus.tagsTemplate (spine c.outer base segs) = false := by
  induction segs generalizing base with
  | nil => rfl
  | cons s rest ih =>
    rw [spine, Focus.tagsTemplate, isTaggedTemplate_labelled, if_neg Bool.false_ne_true]
    split
    · exact ih (s.node base)
    · rfl

theorem isTemplateTag_focus (c : AccessChain) (k : Nat) : (c.focus k).isTemplateTag = false :=
  c.tagsTemplate_spine _ _

theorem parent_focus_ne_new (c : AccessChain) (k : Nat) :
    ((c.focus k).parent?.any fun p => p.here.kind == .newExpression) = false := by
  unfold Focus.parent?
  rw [focus_above]
  cases c.segments.drop (k + 1) with
  | nil => rfl
  | cons s rest =>
    show ((labelled (s.node _) rest).kind == .newExpression) = false
    rw [labelled_kind, Segment.node_kind]
    cases s <;> rfl

/-! ## 3. Edits -/

def edit (c : AccessChain) (k : Nat) : Edit :=
  match c.segments[k]? with
  | some (.property _ _) => Edit.replaceByMarker (c.textTo k).length
  | _ => Edit.insertMarker (c.textTo k).length

theorem stopOf_label_baseAt (c : AccessChain) (s : Segment) (k : Nat) :
    c.source.stopOf (s.label (c.baseAt k)) = (c.textTo k).length := by
  rw [Source.stopOf, Segment.label_stop, baseAt_stop]
  exact Source.charAt_utf8Length (c.text_eq k)

theorem startOf_name {c : AccessChain} {k : Nat} {m : Marking} {name : Text}
    (hk : c.segments[k]? = some (.property m name)) {kind : Kind} {named : Bool}
    {field : Option Field} {t : Text} :
    c.source.startOf (.leaf kind named field ((c.baseAt k).stop + Text.utf8Length m.dotText) t) =
      (c.textTo k).length + m.dotText.length := by
  have htext : c.source.text = (c.textTo k ++ m.dotText) ++
      (name ++ ((c.segments.drop (k + 1)).flatMap Segment.text ++ c.ending)) := by
    show c.text = _
    rw [text_eq_of_getElem? hk, Segment.text]
    simp only [List.append_assoc]
  rw [Source.startOf, Tree.leaf_start, baseAt_stop, ← Text.utf8Length_append,
    Source.charAt_utf8Length htext, List.length_append]

/-- What stands around the end of a base: before it no character of the marker, behind it the text
of the segment. -/
theorem text_around {c : AccessChain} (hc : c.WellFormed) {k : Nat} {s : Segment}
    (hk : c.segments[k]? = some s) :
    ∃ rest, c.source.text = c.textTo k ++ (s.text ++ rest) ∧ 0 < (c.textTo k).length ∧
      c.source.text[(c.textTo k).length - 1]? ≠ some '?' ∧
      c.source.text[(c.textTo k).length - 1]? ≠ some '.' := by
  have hends := endsPlainly_textTo hc k
  have htext : c.source.text = _ := text_eq_of_getElem? hk
  refine ⟨_, htext, hends.length_pos, ?_⟩
  rw [htext]
  exact hends.getElem?_append _

theorem field?_property (m : Marking) (name : Text) (base : Tree) (rest : List Segment) :
    (labelled ((Segment.property m name).node base) rest).field? .property =
      some (.leaf (.other "property_identifier") true (some .property)
        (base.stop + Text.utf8Length m.dotText) name) := by
  rw [Tree.field?, labelled_children]
  cases base
  cases m <;> rfl

theorem guardMember?_focus {c : AccessChain} (hc : c.WellFormed) {k : Nat} {m : Marking}
    {name : Text} (hk : c.segments[k]? = some (.property m name)) :
    c.source.guardMember? (c.focus k).here ((Segment.property m name).label (c.baseAt k)) =
      if m = .plain then some (Edit.replaceByMarker (c.textTo k).length) else none := by
  obtain ⟨rest, htext, hpos, hquestion, -⟩ := text_around hc hk
  rw [Segment.text, List.append_assoc] at htext
  have hslice : c.source.text.slice (c.textTo k).length
      ((c.textTo k).length + m.dotText.length) = m.dotText := by
    rw [htext]
    exact Text.slice_append ..
  have hfield : (c.focus k).here.field? .property =
      some (.leaf (.other "property_identifier") true (some .property)
        ((c.baseAt k).stop + Text.utf8Length m.dotText) name) := by
    rw [focus_of_getElem? hk]
    exact field?_property ..
  unfold Source.guardMember?
  rw [hfield]
  dsimp only
  rw [stopOf_label_baseAt, startOf_name hk, hslice]
  have hmarked (hm : m.dotText = Text.marker) : 0 < (c.textTo k).length + 1 ∧
      c.source.text.slice ((c.textTo k).length + 1 - 1) ((c.textTo k).length + 1 + 1) =
        Text.marker := by
    rw [hm] at hslice
    exact ⟨Nat.succ_pos _, hslice⟩
  cases m with
  | plain =>
    refine if_neg fun hmarker => hquestion ?_
    exact (Text.getElem?_of_slice_eq_marker hmarker.2).1
  | wrapped => exact if_pos (hmarked rfl)
  | bare => exact if_pos (hmarked rfl)

theorem stopOf_focus {c : AccessChain} {k : Nat} {s : Segment} (hk : c.segments[k]? = some s) :
    c.source.stopOf (c.focus k).here = (c.textTo k).length + s.text.length := by
  have htext : c.source.text = c.textTo (k + 1) ++ _ := c.text_eq (k + 1)
  have hstop : (c.focus k).here.stop = Text.utf8Length (c.textTo (k + 1)) := by
    rw [focus_of_getElem? hk, ← baseAt_succ hk, ← baseAt_stop]
    exact labelled_stop ..
  rw [Source.stopOf, hstop, Source.charAt_utf8Length htext, textTo_succ hk, List.length_append]

theorem guardIndexed?_focus {c : AccessChain} (hc : c.WellFormed) {k : Nat} {m : Marking}
    {content : Text} {nodes : List Tree} (hk : c.segments[k]? = some (.index m content nodes)) :
    c.source.guardIndexed? (c.focus k).here ((Segment.index m content nodes).label (c.baseAt k)) =
      if m = .plain then some (Edit.insertMarker (c.textTo k).length) else none := by
  obtain ⟨rest, htext, hpos, -, hdot⟩ := text_around hc hk
  have hfirst : c.source.text.firstFrom? '[' (c.textTo k).length =
      some ((c.textTo k).length + m.text.length) := by
    rw [htext, Text.firstFrom?_append, Nat.add_comm]
    cases m <;> rfl
  have hinside : ¬c.source.stopOf (c.focus k).here ≤ (c.textTo k).length + m.text.length := by
    rw [stopOf_focus hk, Segment.text, List.length_append, List.length_append, List.length_cons]
    omega
  have hslice : c.source.text.slice (c.textTo k).length
      ((c.textTo k).length + m.text.length) = m.text := by
    rw [htext, Segment.text, List.append_assoc]
    exact Text.slice_append ..
  unfold Source.guardIndexed?
  rw [stopOf_label_baseAt, hfirst]
  show (if c.source.stopOf (c.focus k).here ≤ (c.textTo k).length + m.text.length then _ else _) = _
  rw [if_neg hinside]
  cases m with
  | plain =>
    refine if_neg fun hmarker => hdot ?_
    obtain ⟨hlt, hchar⟩ := Text.getElem?_of_slice (i := 1) (by rw [hmarker]; rfl)
    rw [← hchar]
    congr 1
    show _ = (c.textTo k).length - 2 + 1
    have hfits : (c.textTo k).length - 2 + 1 < (c.textTo k).length := hlt
    omega
  | wrapped => exact if_pos hslice
  | bare => exact if_pos hslice

theorem isPlainCallee_label {c : AccessChain} {k : Nat} {s : Segment}
    (hk : c.segments[k]? = some s) :
    Source.isPlainCallee (s.label (c.baseAt k)) = c.callsPlainly k := by
  unfold Source.isPlainCallee
  rw [Segment.label_kind]
  cases k with
  | zero => rfl
  | succ k =>
    have hlt : k < c.segments.length := by
      have := (List.getElem?_eq_some_iff.mp hk).1
      omega
    have hbefore := List.getElem?_eq_getElem hlt
    rw [baseAt_succ hbefore, Segment.node_kind, callsPlainly, hbefore]
    cases c.segments[k] <;> rfl

/-- The window around the end of a text holds a marker that follows the text. -/
theorem hasMarker_window (a rest : Text) :
    Text.hasMarker ((a ++ (Text.marker ++ rest)).slice (a.length - 2) (a.length + 2)) = true := by
  have hwindow : (a ++ (Text.marker ++ rest)).slice (a.length - 2) (a.length + 2) =
      a.drop (a.length - 2) ++ (Text.marker ++ []) := by
    unfold Text.slice
    rw [List.take_length_add_append, List.append_nil,
      ← List.drop_append_of_le_length (Nat.sub_le _ _)]
    rfl
  rw [hwindow]
  exact Text.hasMarker_append _ []

/-- The window around a parenthesis holds no marker if no dot stands before the parenthesis. The dot
of a marker would be one of the three characters around the place, and then its question mark would
be the parenthesis. -/
theorem not_hasMarker_window {t : Text} {n : Nat} (hdot : t[n - 1]? ≠ some '.')
    (hparen : t[n]? = some '(') : ¬Text.hasMarker (t.slice (n - 2) (n + 2)) = true := by
  intro hmarker
  obtain ⟨i, hleft, hright⟩ := Text.getElem?_of_hasMarker hmarker
  obtain ⟨-, hleft⟩ := Text.getElem?_of_slice hleft
  obtain ⟨hlt, hright⟩ := Text.getElem?_of_slice hright
  have hplace : n - 2 + (i + 1) = n - 1 ∨ n - 2 + (i + 1) = n ∨ n - 2 + i = n := by omega
  rcases hplace with h | h | h
  · exact hdot (h ▸ hright)
  · rw [h, hparen] at hright
    exact absurd hright (by decide)
  · rw [h, hparen] at hleft
    exact absurd hleft (by decide)

theorem guardInvocation?_focus {c : AccessChain} (hc : c.WellFormed) {k : Nat} {m : Marking}
    {content : Text} {nodes : List Tree} (hk : c.segments[k]? = some (.call m content nodes)) :
    c.source.guardInvocation? (c.focus k) ((Segment.call m content nodes).label (c.baseAt k)) =
      if m = .plain ∧ c.callsPlainly k then some (Edit.insertMarker (c.textTo k).length)
      else none := by
  obtain ⟨rest, htext, hpos, -, hdot⟩ := text_around hc hk
  unfold Source.guardInvocation?
  rw [parent_focus_ne_new, if_neg Bool.false_ne_true, isPlainCallee_label hk]
  cases hplainly : c.callsPlainly k with
  | false =>
    rw [Bool.not_false, if_pos rfl, if_neg (by simp)]
  | true =>
    rw [Bool.not_true, if_neg Bool.false_ne_true, stopOf_label_baseAt]
    rw [Segment.text, List.append_assoc] at htext
    cases m with
    | plain =>
      have hparen : c.source.text[(c.textTo k).length]? = some '(' := by
        rw [htext, List.getElem?_append_right (Nat.le_refl _), Nat.sub_self]
        rfl
      exact if_neg (not_hasMarker_window hdot hparen)
    | wrapped =>
      refine if_pos ?_
      rw [htext]
      exact hasMarker_window ..
    | bare =>
      refine if_pos ?_
      rw [htext]
      exact hasMarker_window ..

/-- An access of a chain is left alone if there is an assertion before it. Otherwise its form
decides. -/
theorem guard?_of_baseField? {c : AccessChain} {k : Nat} {s : Segment} {f : Field}
    (hk : c.segments[k]? = some s) (hfield : s.baseField? = some f) :
    c.source.guard? (c.focus k) =
      if (c.segments.take k).any Segment.isAssertion then none
      else
        match s.shape with
        | .memberAccess => c.source.guardMember? (c.focus k).here (s.label (c.baseAt k))
        | .indexedAccess => c.source.guardIndexed? (c.focus k).here (s.label (c.baseAt k))
        | .invocation => c.source.guardInvocation? (c.focus k) (s.label (c.baseAt k))
        | .other => none := by
  have hhere : (c.focus k).here = labelled (s.node (c.baseAt k)) (c.segments.drop (k + 1)) := by
    rw [focus_of_getElem? hk]
    rfl
  have hbase : (c.focus k).here.base? = some (s.label (c.baseAt k)) := by
    rw [hhere]
    exact base?_labelled hfield _ _
  have hshape : (c.focus k).here.shape = s.shape := by
    rw [hhere]
    exact shape_labelled ..
  have hsuper : ((s.label (c.baseAt k)).kind == .superKeyword) = false := by
    rw [Segment.label_kind]
    exact beq_eq_false_iff_ne.mpr (c.isLink_baseAt k).kind_ne.2.2
  unfold Source.guard?
  rw [hbase, hshape]
  show (if _ || _ || _ || _ then _ else _) = _
  rewrite [isWritten_focus, Segment.asserts_label, asserts_baseAt, hsuper, isTemplateTag_focus,
    Bool.false_or, Bool.or_false, Bool.or_false]
  rfl

/-- The node of a segment gets its edit exactly when the segment is guardable. -/
theorem guard?_focus {c : AccessChain} (hc : c.WellFormed) {k : Nat} {s : Segment}
    (hk : c.segments[k]? = some s) :
    c.source.guard? (c.focus k) = if c.guardable k then some (c.edit k) else none := by
  unfold guardable edit
  rw [hk]
  cases s with
  | assertion =>
    have hbase : (c.focus k).here.base? = none := by
      rw [focus_of_getElem? hk, Tree.base?, focusOn, baseField?_labelled]
      rfl
    rw [Source.guard?, hbase]
    rfl
  | property m name =>
    rw [guard?_of_baseField? hk rfl]
    cases (c.segments.take k).any Segment.isAssertion with
    | true => simp
    | false =>
      refine (guardMember?_focus hc hk).trans ?_
      cases m <;> rfl
  | index m content nodes =>
    rw [guard?_of_baseField? hk rfl]
    cases (c.segments.take k).any Segment.isAssertion with
    | true => simp
    | false =>
      refine (guardIndexed?_focus hc hk).trans ?_
      cases m <;> rfl
  | call m content nodes =>
    rw [guard?_of_baseField? hk rfl]
    cases (c.segments.take k).any Segment.isAssertion with
    | true => simp
    | false =>
      refine (guardInvocation?_focus hc hk).trans ?_
      cases m <;> cases c.callsPlainly k <;> rfl

theorem call?_segment {c : AccessChain} {spot : Spot} {t : Nat} (ht : c.call? spot = some t) :
    ∃ s, c.segments[t]? = some s := by
  cases spot with
  | root =>
    obtain ⟨hlt, -⟩ := List.findIdx?_eq_some_iff_getElem.mp ht
    exact ⟨_, List.getElem?_eq_getElem hlt⟩
  | property k =>
    obtain ⟨i, hi, rfl⟩ := Option.map_eq_some_iff.mp ht
    obtain ⟨hlt, -⟩ := List.findIdx?_eq_some_iff_getElem.mp hi
    rw [List.length_drop] at hlt
    exact ⟨_, List.getElem?_eq_getElem (by omega)⟩

theorem next?_segment {c : AccessChain} {j t : Nat} (ht : c.next? j = some t) :
    ∃ s, c.segments[t]? = some s := by
  unfold next? at ht
  split at ht
  · next s hs =>
    split at ht
    · cases ht
    · cases ht
      exact ⟨s, hs⟩
  · cases ht

theorem target?_segment {c : AccessChain} {d : Complaint} {t : Nat} (hd : c.Covers d)
    (ht : c.target? d = some t) : ∃ s, c.segments[t]? = some s := by
  unfold target? at ht
  split at ht
  · exact call?_segment ht
  · split at ht
    · cases ht
    · next j hj =>
      have hnear := nearest?_segment hd hj
      split at ht
      · cases ht
        exact hnear
      · cases hnext : c.next? j with
        | none =>
          rw [hnext] at ht
          cases ht
          exact hnear
        | some i =>
          rw [hnext] at ht
          cases ht
          exact next?_segment hnext

/-- A diagnostic inside a name is answered by the edit of the segment it asks to guard, if that is
guardable. -/
theorem fix?_of_covers {c : AccessChain} (hc : c.WellFormed) {d : Complaint} (hd : c.Covers d) :
    c.source.fix? d.code d.offset = ((c.target? d).filter c.guardable).map c.edit := by
  obtain ⟨f, htoken, hf⟩ := tokenAt?_of_covers hc hd
  rw [Source.fix?, htoken, Option.bind_some, target?_eq hc hd hf]
  cases ht : c.target? d with
  | none => rfl
  | some t =>
    obtain ⟨s, hs⟩ := target?_segment hd ht
    rw [Option.map_some, Option.bind_some, guard?_focus hc hs, Option.filter_some]
    cases c.guardable t <;> rfl

end AccessChain

end ChainGuard
