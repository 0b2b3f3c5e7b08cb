import ChainGuard.Proofs.Guard
import ChainGuard.Proofs.Tree

/-!
# The start of a guard

Where no callee is followed by a dot, the position at which a guard starts says which one it is: a
dot is replaced by the marker, and before anything else the marker is put in. So two different
guards of one source never start at the same position.
-/

namespace ChainGuard.Source

/-- No callee of a call is followed by a dot. -/
def CalleesUndotted (s : Source) : Prop :=
  ∀ call callee : Tree, call.Below s.root → call.kind = .callExpression →
    call.field? .function = some callee → s.text[s.stopOf callee]? ≠ some '.'

theorem calleesUndotted_of_preorder {s : Source}
    (h : ∀ f ∈ Focus.preorder s.root, f.here.kind = .callExpression →
      ∀ callee ∈ f.here.field? .function, s.text[s.stopOf callee]? ≠ some '.') :
    s.CalleesUndotted := by
  intro call callee hbelow hkind hcallee
  obtain ⟨f, hf, rfl⟩ := Focus.exists_preorder_iff.mpr hbelow
  exact h f hf hkind callee hcallee

/-- A dot is replaced by the marker, and before anything else the marker is put in. -/
def guardAt (s : Source) (pos : Nat) : Edit :=
  if s.text[pos]? = some '.' then .replaceByMarker pos else .insertMarker pos

theorem field?_of_invocation {t base : Tree} (hshape : t.shape = .invocation)
    (hbase : t.base? = some base) :
    t.kind = .callExpression ∧ t.field? .function = some base := by
  have hkind : t.kind = .callExpression := by
    unfold Tree.shape at hshape
    split at hshape
    · cases hshape
    · split at hshape <;> first | assumption | cases hshape
  refine ⟨hkind, ?_⟩
  have hfield : t.baseField? = some .function := by
    rw [Tree.baseField?, hkind]
  rwa [Tree.base?, hfield, Option.bind_some] at hbase

theorem guard?_eq_guardAt {s : Source} (h : s.CalleesUndotted) {f : Focus} (hin : f.IsIn s.root)
    {e : Edit} (he : s.guard? f = some e) : e = s.guardAt e.start := by
  obtain ⟨base, hbase, -, -, -, -, guarding⟩ := guard?_guarding he
  cases guarding with
  | member _ _ _ _ found _ _ => exact (if_pos found).symm
  | indexed _ _ _ found _ _ =>
    refine (if_neg ?_).symm
    rw [Edit.insertMarker, found]
    decide
  | invocation shape _ _ _ =>
    obtain ⟨hkind, hfield⟩ := field?_of_invocation shape hbase
    exact (if_neg (h f.here base hin.here_below hkind hfield)).symm

/-- The edit for a diagnostic is determined by its start. -/
theorem fix?_eq_guardAt {s : Source} (h : s.CalleesUndotted) {code offset : Int} {e : Edit}
    (he : s.fix? code offset = some e) : e = s.guardAt e.start := by
  obtain ⟨f, hin, hguard⟩ := fix?_isIn he
  exact guard?_eq_guardAt h hin hguard

end ChainGuard.Source
