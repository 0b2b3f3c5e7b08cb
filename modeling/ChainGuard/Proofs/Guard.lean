import ChainGuard.Guard
import ChainGuard.Proofs.Edit
import ChainGuard.Proofs.Text

/-!
# What a guard can be

`Source.guard?` gives an edit only where none of its reasons for leaving an access alone holds, and
then the edit is one of three. `Source.Guarding` says which, with everything that was checked on
the way, and `guard?_guarding` is the only place that opens the definition.
-/

namespace ChainGuard

namespace Source

/-- The edit that guards the access at `f`, built on `base`, with what the text shows around it. -/
inductive Guarding (s : Source) (f : Focus) (base : Tree) : Edit → Prop
  /-- The last dot between the base and the property is replaced. -/
  | member {property : Tree} {dot : Nat} (shape : f.here.shape = .memberAccess)
      (field : f.here.field? .property = some property) (after_base : s.stopOf base ≤ dot)
      (before_property : dot < s.startOf property) (found : s.text[dot]? = some '.')
      (last : ∀ i, dot < i → i < s.startOf property → s.text[i]? ≠ some '.')
      (unmarked : ¬(0 < dot ∧ s.text.slice (dot - 1) (dot + 1) = Text.marker)) :
      Guarding s f base (Edit.replaceByMarker dot)
  /-- The marker goes before the first bracket after the base. -/
  | indexed {bracket : Nat} (shape : f.here.shape = .indexedAccess)
      (after_base : s.stopOf base ≤ bracket) (before_end : bracket < s.stopOf f.here)
      (found : s.text[bracket]? = some '[')
      (first : ∀ i, s.stopOf base ≤ i → i < bracket → s.text[i]? ≠ some '[')
      (unmarked : s.text.slice (bracket - 2) bracket ≠ Text.marker) :
      Guarding s f base (Edit.insertMarker bracket)
  /-- The marker goes behind the callee. -/
  | invocation (shape : f.here.shape = .invocation)
      (not_new : f.parent?.any (fun p => p.here.kind == .newExpression) = false)
      (plain : isPlainCallee base = true)
      (unmarked : Text.hasMarker (s.text.slice (s.stopOf base - 2) (s.stopOf base + 2)) = false) :
      Guarding s f base (Edit.insertMarker (s.stopOf base))

theorem guardMember?_guarding {s : Source} {f : Focus} {base : Tree} {e : Edit}
    (shape : f.here.shape = .memberAccess) (h : s.guardMember? f.here base = some e) :
    s.Guarding f base e := by
  unfold guardMember? at h
  split at h
  · cases h
  · next property field =>
    dsimp only at h
    split at h
    · cases h
    · next i hi =>
      split at h
      · cases h
      · next unmarked =>
        cases h
        obtain ⟨found, later⟩ := Text.last?_eq_some hi
        obtain ⟨hlt, found⟩ := Text.getElem?_of_slice found
        refine .member shape field (by omega) hlt found ?_ unmarked
        intro j hj hprop hdot
        apply later (j - s.stopOf base) (by omega)
        rw [Text.getElem?_slice, Nat.add_sub_cancel' (by omega), if_pos hprop, hdot]

theorem guardIndexed?_guarding {s : Source} {f : Focus} {base : Tree} {e : Edit}
    (shape : f.here.shape = .indexedAccess) (h : s.guardIndexed? f.here base = some e) :
    s.Guarding f base e := by
  unfold guardIndexed? at h
  split at h
  · cases h
  · next bracket hb =>
    split at h
    · cases h
    · next inside =>
      split at h
      · cases h
      · next unmarked =>
        cases h
        obtain ⟨hle, found, first⟩ := Text.firstFrom?_eq_some hb
        exact .indexed shape hle (by omega) found first unmarked

theorem guardInvocation?_guarding {s : Source} {f : Focus} {base : Tree} {e : Edit}
    (shape : f.here.shape = .invocation) (h : s.guardInvocation? f base = some e) :
    s.Guarding f base e := by
  unfold guardInvocation? at h
  split at h
  · cases h
  · next not_new =>
    split at h
    · cases h
    · next plain =>
      dsimp only at h
      split at h
      · cases h
      · next unmarked =>
        cases h
        exact .invocation shape (by simpa using not_new) (by simpa using plain)
          (by simpa using unmarked)

/-- An access that gets an edit is not written to, tags no template, is not applied to `super` and
rests on no assertion; the edit is that of its shape. -/
theorem guard?_guarding {s : Source} {f : Focus} {e : Edit} (h : s.guard? f = some e) :
    ∃ base, f.here.base? = some base ∧ f.isWritten = false ∧ base.asserts = false ∧
      base.kind ≠ .superKeyword ∧ f.isTemplateTag = false ∧ s.Guarding f base e := by
  unfold guard? at h
  split at h
  · cases h
  · next base hbase =>
    split at h
    · cases h
    · next free =>
      simp only [Bool.or_eq_true, not_or, Bool.not_eq_true, beq_eq_false_iff_ne, ne_eq] at free
      obtain ⟨⟨⟨unwritten, unasserted⟩, not_super⟩, untagged⟩ := free
      refine ⟨base, hbase, unwritten, unasserted, not_super, untagged, ?_⟩
      split at h
      · next shape => exact guardMember?_guarding shape h
      · next shape => exact guardIndexed?_guarding shape h
      · next shape => exact guardInvocation?_guarding shape h
      · cases h

theorem Guarding.isGuard {s : Source} {f : Focus} {base : Tree} {e : Edit}
    (h : s.Guarding f base e) : e.IsGuard s.text := by
  cases h with
  | member _ _ _ _ found _ _ => exact .replace found (by decide)
  | indexed _ _ _ _ _ _ => exact .insert _
  | invocation _ _ _ _ => exact .insert _

/-- Whatever the tree, the edit for a diagnostic is a guard. -/
theorem fix?_isGuard {s : Source} {code offset : Int} {e : Edit} (h : s.fix? code offset = some e) :
    e.IsGuard s.text := by
  obtain ⟨f, _, hf⟩ := Option.bind_eq_some_iff.mp h
  obtain ⟨_, _, _, _, _, _, guarding⟩ := guard?_guarding hf
  exact guarding.isGuard

end Source

end ChainGuard
