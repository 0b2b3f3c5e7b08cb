import ChainGuard.Proofs.WriteSafety

/-!
# Guards and the tokens of accesses

A guard is found in the text, by the last dot in front of the property and the first bracket behind
the base. The access has these characters as tokens in the tree. The two agree unless a further dot
stands between the token and the property, or a further bracket between the base and the token. A
comment may hold one.

1. `Source.TokensFit`: tokens in a tree that fits the text. `Source.TokenMet`: no further dot or
   bracket in the way. `Source.comment_is_edited`: that there is none cannot be dropped.
2. `Guarding.landsOnToken_iff`, `Source.not_reachesInto_comment`: the edit for an access.
   Main statement: `Source.guards_land_on_tokens`.
-/

namespace ChainGuard

namespace Source

/-! ## 1. Tokens in trees -/

/-- The node stands on a single character. -/
structure Spans (s : Source) (t : Tree) (c : Char) : Prop where
  found : s.text[s.startOf t]? = some c
  stop : s.stopOf t = s.startOf t + 1

/-- The children of a node stand one behind the other, and its tokens `.` and `[` stand on these
characters. Comments may stand anywhere between them. -/
structure TokensFit (s : Source) (t : Tree) : Prop where
  ordered : ∀ c ∈ t.children, c.start ≤ c.stop
  siblings : t.children.Pairwise fun a b => a.stop ≤ b.start
  dot : ∀ token ∈ t.children, token.kind = .other "." → s.Spans token '.'
  bracket : ∀ token ∈ t.children, token.kind = .other "[" → s.Spans token '['

/-- Behind its token `.`, a member access has no further dot in front of the property. -/
def DotMet (s : Source) (t : Tree) : Prop :=
  ∃ token ∈ t.children, token.kind = .other "." ∧
    (∀ base ∈ t.base?, s.stopOf base ≤ s.startOf token) ∧
    ∀ property ∈ t.field? .property, s.stopOf token ≤ s.startOf property ∧
      ∀ i < s.startOf property, s.stopOf token ≤ i → s.text[i]? ≠ some '.'

/-- In front of its token `[`, an indexed access has no further bracket behind the base. -/
def BracketMet (s : Source) (t : Tree) : Prop :=
  ∃ token ∈ t.children, token.kind = .other "[" ∧
    ∀ base ∈ t.base?, s.stopOf base ≤ s.startOf token ∧
      ∀ i < s.startOf token, s.stopOf base ≤ i → s.text[i]? ≠ some '['

/-- The search for an access meets its token. An invocation is not searched for. -/
def TokenMet (s : Source) (t : Tree) : Prop :=
  match t.shape with
  | .memberAccess => s.DotMet t
  | .indexedAccess => s.BracketMet t
  | .invocation | .other => True

/-- The edit is made at the token of the access: the dot of a member access is replaced, and the
marker is put in front of the bracket of an indexed access, or behind the callee. -/
def LandsOnToken (s : Source) (t : Tree) (e : Edit) : Prop :=
  match t.shape with
  | .memberAccess => ∃ token ∈ t.children, token.kind = .other "." ∧
      e.start = s.startOf token ∧ e.stop = s.stopOf token ∧ e.text = Text.marker
  | .indexedAccess => ∃ token ∈ t.children, token.kind = .other "[" ∧
      e = Edit.insertMarker (s.startOf token)
  | .invocation => ∃ callee ∈ t.base?, e = Edit.insertMarker (s.stopOf callee)
  | .other => False

instance (s : Source) (t : Tree) (c : Char) : Decidable (s.Spans t c) :=
  decidable_of_iff (s.text[s.startOf t]? = some c ∧ s.stopOf t = s.startOf t + 1)
    ⟨fun ⟨h₁, h₂⟩ => ⟨h₁, h₂⟩, fun ⟨h₁, h₂⟩ => ⟨h₁, h₂⟩⟩

instance (s : Source) (t : Tree) : Decidable (s.TokensFit t) :=
  decidable_of_iff
    ((∀ c ∈ t.children, c.start ≤ c.stop) ∧
      (t.children.Pairwise fun a b => a.stop ≤ b.start) ∧
      (∀ token ∈ t.children, token.kind = .other "." → s.Spans token '.') ∧
      (∀ token ∈ t.children, token.kind = .other "[" → s.Spans token '['))
    ⟨fun ⟨h₁, h₂, h₃, h₄⟩ => ⟨h₁, h₂, h₃, h₄⟩, fun ⟨h₁, h₂, h₃, h₄⟩ => ⟨h₁, h₂, h₃, h₄⟩⟩

instance (s : Source) (t : Tree) : Decidable (s.DotMet t) :=
  inferInstanceAs (Decidable (∃ token ∈ t.children, token.kind = .other "." ∧
    (∀ base ∈ t.base?, s.stopOf base ≤ s.startOf token) ∧
    ∀ property ∈ t.field? .property, s.stopOf token ≤ s.startOf property ∧
      ∀ i < s.startOf property, s.stopOf token ≤ i → s.text[i]? ≠ some '.'))

/-- The access `a./*.*/b`, with a dot in a comment behind its token. -/
def dotInComment : Source where
  text := "a./*.*/b".toList
  root :=
    .node ⟨.memberExpression, 0, 8, true, none⟩
      [.node ⟨.identifier, 0, 1, true, some .object⟩ [], .node ⟨.other ".", 1, 2, false, none⟩ [],
        .node ⟨.comment, 2, 7, true, none⟩ [],
        .node ⟨.other "property_identifier", 7, 8, true, some .property⟩ []]

/-- The access `a/*[*/[k]`, with a bracket in a comment in front of its token. -/
def bracketInComment : Source where
  text := "a/*[*/[k]".toList
  root :=
    .node ⟨.subscriptExpression, 0, 9, true, none⟩
      [.node ⟨.identifier, 0, 1, true, some .object⟩ [], .node ⟨.comment, 1, 6, true, none⟩ [],
        .node ⟨.other "[", 6, 7, false, none⟩ [], .node ⟨.identifier, 7, 8, true, none⟩ [],
        .node ⟨.other "]", 8, 9, false, none⟩ []]

/-- Where the search does not meet the token, it may meet a comment, and then the comment is
edited. This happens to dots and to brackets. -/
theorem comment_is_edited :
    ∀ s ∈ [dotInComment, bracketInComment], s.TokensFit s.root ∧
      ∃ comment ∈ s.root.children, comment.kind = .comment ∧
        ∃ e ∈ s.guard? (.ofRoot s.root),
          s.startOf comment < e.start ∧ e.stop < s.stopOf comment := by
  decide +kernel

/-! ## 2. The edit for an access -/

section

variable {s : Source} {f : Focus} {base : Tree} {e : Edit}

/-- The last dot in front of the property is the token, and the first bracket behind the base is, if
and only if the search meets the token. -/
theorem Guarding.landsOnToken_iff (hfits : s.TokensFit f.here) (hbase : f.here.base? = some base)
    (h : s.Guarding f base e) : s.LandsOnToken f.here e ↔ s.TokenMet f.here := by
  cases h with
  | @member property dot shape field after_base before_property found last unmarked =>
    simp only [LandsOnToken, TokenMet, shape]
    constructor
    · rintro ⟨token, htoken, hkind, hstart, hstop, -⟩
      obtain rfl : dot = s.startOf token := hstart
      have hstop : s.stopOf token = s.startOf token + 1 := hstop.symm
      refine ⟨token, htoken, hkind, fun other hother => ?_, fun other hother => ?_⟩
      · cases hbase.symm.trans hother
        exact after_base
      · cases field.symm.trans hother
        exact ⟨by omega, fun i hi hlo => last i (by omega) hi⟩
    · rintro ⟨token, htoken, hkind, hafter, hbefore⟩
      obtain ⟨hfound, hstop⟩ := hfits.dot token htoken hkind
      obtain ⟨hle, hnone⟩ := hbefore property field
      have hdot : dot = s.startOf token := by
        rcases Nat.lt_trichotomy dot (s.startOf token) with hlt | heq | hgt
        · exact absurd hfound (last _ hlt (by omega))
        · exact heq
        · exact absurd found (hnone dot before_property (by omega))
      refine ⟨token, htoken, hkind, hdot, ?_, rfl⟩
      rw [hstop, ← hdot]
      rfl
  | @indexed bracket shape after_base before_end found first unmarked =>
    simp only [LandsOnToken, TokenMet, shape]
    constructor
    · rintro ⟨token, htoken, hkind, heq⟩
      obtain rfl : bracket = s.startOf token := congrArg Edit.start heq
      refine ⟨token, htoken, hkind, fun other hother => ?_⟩
      cases hbase.symm.trans hother
      exact ⟨after_base, fun i hi hlo => first i hlo hi⟩
    · rintro ⟨token, htoken, hkind, hbefore⟩
      obtain ⟨hafter, hnone⟩ := hbefore base hbase
      have hfound := (hfits.bracket token htoken hkind).found
      have hbracket : bracket = s.startOf token := by
        rcases Nat.lt_trichotomy bracket (s.startOf token) with hlt | heq | hgt
        · exact absurd found (hnone bracket hlt after_base)
        · exact heq
        · exact absurd hfound (first _ hafter hgt)
      exact ⟨token, htoken, hkind, congrArg Edit.insertMarker hbracket⟩
  | invocation shape not_new plain unmarked =>
    simp only [LandsOnToken, TokenMet, shape, iff_true]
    exact ⟨base, hbase, rfl⟩

/-- Of two children of different kinds one ends before the other one starts. -/
theorem TokensFit.apart (hfits : s.TokensFit f.here) {a b : Tree} (ha : a ∈ f.here.children)
    (hb : b ∈ f.here.children) (hkind : a.kind ≠ b.kind) :
    s.stopOf a ≤ s.startOf b ∨ s.stopOf b ≤ s.startOf a := by
  obtain ⟨i, hi, rfl⟩ := List.mem_iff_getElem.mp ha
  obtain ⟨j, hj, rfl⟩ := List.mem_iff_getElem.mp hb
  have hordered := List.pairwise_iff_getElem.mp hfits.siblings
  rcases Nat.lt_trichotomy i j with hlt | rfl | hgt
  · exact .inl (s.charAt_mono (hordered i j hi hj hlt))
  · exact absurd rfl hkind
  · exact .inr (s.charAt_mono (hordered j i hj hi hgt))

theorem kind_ne_comment_of_isPlainCallee {callee : Tree} (h : isPlainCallee callee = true) :
    callee.kind ≠ .comment := by
  intro hkind
  rw [isPlainCallee, hkind] at h
  cases h

/-- An edit at the token of an access reaches into no comment beside the token. -/
theorem Guarding.not_reachesInto_comment (hfits : s.TokensFit f.here)
    (hbase : f.here.base? = some base) (h : s.Guarding f base e)
    (hlands : s.LandsOnToken f.here e) {comment : Tree} (hcomment : comment ∈ f.here.children)
    (hkind : comment.kind = .comment) :
    ¬e.ReachesInto (s.startOf comment) (s.stopOf comment) := by
  rintro ⟨hbefore, hbehind⟩
  cases h with
  | @member property dot shape field after_base before_property found last unmarked =>
    simp only [LandsOnToken, shape] at hlands
    obtain ⟨token, htoken, htokenKind, hstart, hstop, -⟩ := hlands
    have hne : comment.kind ≠ token.kind := by
      rw [hkind, htokenKind]
      nofun
    rcases hfits.apart hcomment htoken hne with hle | hle <;> omega
  | @indexed bracket shape after_base before_end found first unmarked =>
    simp only [LandsOnToken, shape] at hlands
    obtain ⟨token, htoken, htokenKind, heq⟩ := hlands
    have hstop := (hfits.bracket token htoken htokenKind).stop
    have hne : comment.kind ≠ token.kind := by
      rw [hkind, htokenKind]
      nofun
    have hstart : bracket = s.startOf token := congrArg Edit.start heq
    simp only [Edit.insertMarker] at hbefore hbehind
    rcases hfits.apart hcomment htoken hne with hle | hle <;> omega
  | invocation shape not_new plain unmarked =>
    obtain ⟨_, _, -, -, hchild⟩ := WriteSafetyLemmas.base?_eq_some hbase
    have hcallee := List.mem_of_getElem? hchild
    have hwidth : s.startOf base ≤ s.stopOf base := s.charAt_mono (hfits.ordered base hcallee)
    have hne : comment.kind ≠ base.kind := by
      rw [hkind]
      exact (kind_ne_comment_of_isPlainCallee plain).symm
    simp only [Edit.insertMarker] at hbefore hbehind
    rcases hfits.apart hcomment hcallee hne with hle | hle <;> omega

end

/-- The edit for an access is made at the token of the access exactly if the search for it meets the
token, and then the edit reaches into no comment in the access. -/
theorem guards_land_on_tokens {s : Source} {f : Focus} {e : Edit} (hfits : s.TokensFit f.here)
    (h : s.guard? f = some e) :
    (s.LandsOnToken f.here e ↔ s.TokenMet f.here) ∧
      (s.TokenMet f.here → ∀ comment ∈ f.here.children, comment.kind = .comment →
        ¬e.ReachesInto (s.startOf comment) (s.stopOf comment)) := by
  obtain ⟨base, hbase, -, -, -, -, guarding⟩ := guard?_guarding h
  have hiff := guarding.landsOnToken_iff hfits hbase
  exact ⟨hiff, fun hmet comment hcomment hkind =>
    guarding.not_reachesInto_comment hfits hbase (hiff.mpr hmet) hcomment hkind⟩

/-- The access `a /* x.y */ .b`, with a dot in a comment in front of its token. -/
def commentBeforeToken : Source where
  text := "a /* x.y */ .b".toList
  root :=
    .node ⟨.memberExpression, 0, 14, true, none⟩
      [.node ⟨.identifier, 0, 1, true, some .object⟩ [], .node ⟨.comment, 2, 11, true, none⟩ [],
        .node ⟨.other ".", 12, 13, false, none⟩ [],
        .node ⟨.other "property_identifier", 13, 14, true, some .property⟩ []]

/-- In `a /* x.y */ .b` the dot behind the comment is replaced. -/
theorem dot_behind_comment_is_replaced :
    commentBeforeToken.guard? (.ofRoot commentBeforeToken.root) = some (.replaceByMarker 12) ∧
      commentBeforeToken.LandsOnToken commentBeforeToken.root (.replaceByMarker 12) ∧
      ∀ comment ∈ commentBeforeToken.root.children, comment.kind = .comment →
        ¬(Edit.replaceByMarker 12).ReachesInto (commentBeforeToken.startOf comment)
          (commentBeforeToken.stopOf comment) := by
  have hfits : commentBeforeToken.TokensFit commentBeforeToken.root := by decide +kernel
  have hmet : commentBeforeToken.DotMet commentBeforeToken.root := by decide +kernel
  have hguard : commentBeforeToken.guard? (.ofRoot commentBeforeToken.root) =
      some (.replaceByMarker 12) := by
    decide +kernel
  obtain ⟨hiff, hspared⟩ :=
    guards_land_on_tokens (f := .ofRoot commentBeforeToken.root) hfits hguard
  exact ⟨hguard, hiff.mpr hmet, hspared hmet⟩

end Source

end ChainGuard
