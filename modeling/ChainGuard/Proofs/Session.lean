import ChainGuard.Proofs.Pass
import ChainGuard.Session
import Mathlib

/-!
# What a run keeps

A run of a session is a sequence of passes over sites and trees that the tools come up with. So
whatever relation between sessions a single pass brings about, for any sites and any trees, a whole
run brings about as well. The tools may live in any lawful monad: they may keep a state, fail, or
answer from a script.

* `Session.satisfiesM_run`: from one pass to a run, in any monad.
* `Session.rel_run`: the same for tools with a state of their own that cannot fail.
* `Session.Grown`: a run lets the files grow by the changes it counts.
-/

namespace ChainGuard.Session

/-! ## From a pass to a run -/

section

variable {m : Type → Type} [Monad m] [LawfulMonad m] {R : Session → Session → Prop}

/-- What one pass brings about, any number of further passes bring about. Nothing is asked of what
the tools come up with. -/
theorem satisfiesM_runFrom (refl : ∀ s, R s s) (trans : ∀ {a b c}, R a b → R b c → R a c)
    (pass : ∀ s number trees sites, R s (s.record (Pass.run number s.files trees sites)))
    (tools : Toolchain m) (roots : List String) (config : CompilerConfig) (left number : Nat)
    (s : Session) : SatisfiesM (R s) (runFrom tools roots config left number s) := by
  induction left generalizing number s with
  | zero => exact .pure (refl s)
  | succ left ih =>
    rw [runFrom]
    refine .bind_pre (.of_true fun found => ?_)
    dsimp only
    split
    · exact .bind_pre (.of_true fun _ => .pure (refl s))
    · refine .bind_pre (.of_true fun trees => ?_)
      refine .bind_pre (.of_true fun _ => .bind_pre (.of_true fun _ => ?_))
      have hpass := pass s number trees (found.filterMap (Diagnostic.site? s.codes))
      split
      · exact .pure hpass
      · exact (ih (number + 1) _).imp (trans hpass)

/-- What one pass brings about, a run brings about. -/
theorem satisfiesM_run (refl : ∀ s, R s s) (trans : ∀ {a b c}, R a b → R b c → R a c)
    (pass : ∀ s number trees sites, R s (s.record (Pass.run number s.files trees sites)))
    (tools : Toolchain m) (roots : List String) (config : CompilerConfig) (s : Session) :
    SatisfiesM (R s) (run tools roots config s) :=
  satisfiesM_runFrom refl trans pass tools roots config _ 1 s

end

/-- What one pass brings about, a run with a stateful toolchain brings about from every state. -/
theorem rel_run {σ : Type} {R : Session → Session → Prop} (refl : ∀ s, R s s)
    (trans : ∀ {a b c}, R a b → R b c → R a c)
    (pass : ∀ s number trees sites, R s (s.record (Pass.run number s.files trees sites)))
    (tools : Toolchain (StateM σ)) (roots : List String) (config : CompilerConfig) (s : Session)
    (state : σ) : R s ((run tools roots config s).run state).1 := by
  have h := satisfiesM_run refl trans pass tools roots config s
  rw [SatisfiesM_StateT_eq] at h
  have hstate := h state
  rwa [SatisfiesM_Id_eq] at hstate

/-! ## Growth -/

/-- The session `s'` follows `s`, and the files grew once for every change counted between. -/
def Grown (s s' : Session) : Prop :=
  ∃ n, s'.totalChanges = s.totalChanges + n ∧ Files.GrowsBy n s.files s'.files

theorem Grown.refl (s : Session) : Grown s s :=
  ⟨0, rfl, Files.GrowsBy.refl s.files⟩

theorem Grown.trans {a b c : Session} (hab : Grown a b) (hbc : Grown b c) : Grown a c := by
  obtain ⟨m, hm, hab⟩ := hab
  obtain ⟨n, hn, hbc⟩ := hbc
  exact ⟨m + n, by omega, hab.trans hbc⟩

theorem grown_record (s : Session) (number : Nat) (trees : Dict Tree) (sites : List Site) :
    Grown s (s.record (Pass.run number s.files trees sites)) :=
  ⟨_, rfl, Pass.growsBy_run number s.files trees sites⟩

end ChainGuard.Session

namespace ChainGuard

/-- By how many characters the texts of all files together are longer than before. -/
def Files.growth (before after : Files) : Int :=
  (List.zipWith (fun old new => (new.2.length : Int) - old.2.length) before after).sum

/-- Growing `n` times makes `n` to `2 * n` characters. -/
theorem Files.GrowsBy.growth_bounds {n : Nat} {before after : Files}
    (h : Files.GrowsBy n before after) :
    (n : Int) ≤ Files.growth before after ∧ Files.growth before after ≤ 2 * n := by
  induction h with
  | nil => exact ⟨Int.le_refl 0, Int.le_refl 0⟩
  | @cons m n name old new before after htext _ ih =>
    have hlower := htext.length_lower
    have hupper := htext.length_upper
    unfold Files.growth at ih ⊢
    rw [List.zipWith_cons_cons, List.sum_cons]
    dsimp only
    omega

/-- A run from a fresh session, with any files, codes and limit, whatever diagnostics and trees its
tools come up with: every file keeps its name and its place, its first text is a subsequence of its
last one, the two are equal but for characters of the marker, and every change counted made the
files longer by one or two characters. -/
theorem Session.run_only_puts_in_markers {σ : Type} (tools : Toolchain (StateM σ))
    (roots : List String) (config : CompilerConfig) (files : Files) (codes : List Int)
    (maxPasses : Int) (state : σ) :
    let final := ((Session.run tools roots config { files, codes, maxPasses }).run state).1
    final.files.keys = files.keys ∧
    (∀ name before, files.get? name = some before → ∃ after, final.files.get? name = some after ∧
      before.Sublist after ∧ before.bare = after.bare) ∧
    (final.totalChanges : Int) ≤ Files.growth files final.files ∧
    Files.growth files final.files ≤ 2 * (final.totalChanges : Int) := by
  intro final
  obtain ⟨n, htotal, grows⟩ : Session.Grown { files, codes, maxPasses } final :=
    Session.rel_run Session.Grown.refl Session.Grown.trans Session.grown_record tools roots config
      _ state
  have hn : final.totalChanges = n := by rw [htotal, Nat.zero_add]
  refine ⟨grows.keys_eq, ?_, ?_⟩
  · intro name before hbefore
    obtain ⟨_, after, hafter, htext⟩ := grows.get? hbefore
    exact ⟨after, hafter, htext.sublist, htext.bare_eq.symm⟩
  · rw [hn]
    exact grows.growth_bounds

end ChainGuard
