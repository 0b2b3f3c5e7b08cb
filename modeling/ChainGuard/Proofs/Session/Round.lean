import ChainGuard.Proofs.Session

/-!
# Runs in rounds

A run asks its tools in rounds: it asks for diagnostics, lets the files of their sites be parsed,
makes a pass, and takes notes. The tools here have a state of their own and do not fail.

1. `Session.Round`: what a round with sites comes to, whatever the tools find and parse.
2. `Session.Ran`: a run as a relation, with the reason why it ended.
   `Session.ran_iff`: it is the relation of `Session.runFrom`. Proofs about runs go by induction on
   it and never open the loop.
3. `Toolchain.AnswersBy`, `Toolchain.ParsesBy`: tools whose answers do not depend on their state.
-/

namespace ChainGuard

variable {σ : Type}

namespace Session

/-! ## 1. Rounds -/

/-- The sites among the diagnostics that were found. -/
def sitesOf (s : Session) (found : List Diagnostic) : List Site :=
  found.filterMap (Diagnostic.site? s.codes)

/-- What a pass over the sites comes to, with the given trees. -/
def outcome (s : Session) (number : Nat) (found : List Diagnostic) (trees : Dict Tree) :
    Pass.Outcome :=
  Pass.run number s.files trees (s.sitesOf found)

/-- In a round the tools find diagnostics with some site among them, parse the files of the sites,
and take note of the sites left alone and of the report. -/
structure Round (tools : Toolchain (StateM σ)) (roots : List String) (config : CompilerConfig)
    (number : Nat) (s : Session) (x : σ) (found : List Diagnostic) (trees : Dict Tree) (y : σ) :
    Prop where
  some_site : s.sitesOf found ≠ []
  consulted : ∃ x₁ x₂ x₃, (tools.collect s.files roots config).run x = (found, x₁) ∧
    (parseAll tools (Pass.filesToParse s.files (s.sitesOf found))).run x₁ = (trees, x₂) ∧
    (noteAll tools (s.outcome number found trees).left).run x₂ = ((), x₃) ∧
    (tools.note (.passDone (s.outcome number found trees).report)).run x₃ = ((), y)

/-! ## 2. Runs -/

/-- Why a run ends: no diagnostic has a site, a pass applies no edit, or the limit is reached. -/
inductive Ending where
  | nothingLeft
  | noEdit
  | limit
  deriving DecidableEq

/-- At most `left` further passes, the first of which has the given number, lead from one session
and one state of the tools to another, and end for the given reason. -/
inductive Ran (tools : Toolchain (StateM σ)) (roots : List String) (config : CompilerConfig) :
    (left number : Nat) → Session → σ → Ending → Session → σ → Prop
  | limit {number : Nat} {s : Session} {x : σ} :
      Ran tools roots config 0 number s x .limit s x
  | nothingLeft {left number : Nat} {s : Session} {x x₁ y : σ} {found : List Diagnostic} :
      (tools.collect s.files roots config).run x = (found, x₁) → s.sitesOf found = [] →
      (tools.note (.nothingLeft number)).run x₁ = ((), y) →
      Ran tools roots config (left + 1) number s x .nothingLeft s y
  | noEdit {left number : Nat} {s : Session} {x y : σ} {found : List Diagnostic}
      {trees : Dict Tree} :
      Round tools roots config number s x found trees y →
      (s.outcome number found trees).report.editsApplied = 0 →
      Ran tools roots config (left + 1) number s x .noEdit
        (s.record (s.outcome number found trees)) y
  | more {left number : Nat} {s s' : Session} {x y y' : σ} {found : List Diagnostic}
      {trees : Dict Tree} {ending : Ending} :
      Round tools roots config number s x found trees y →
      (s.outcome number found trees).report.editsApplied ≠ 0 →
      Ran tools roots config left (number + 1) (s.record (s.outcome number found trees)) y ending
        s' y' →
      Ran tools roots config (left + 1) number s x ending s' y'

theorem run_bind_of_eq {α β : Type} {action : StateM σ α} {next : α → StateM σ β} {x y : σ} {a : α}
    (h : action.run x = (a, y)) : (action >>= next).run x = (next a).run y := by
  rw [StateT.run_bind, h]
  rfl

section

variable {tools : Toolchain (StateM σ)} {roots : List String} {config : CompilerConfig}
  {left number : Nat} {s s' : Session} {x y : σ} {found : List Diagnostic} {trees : Dict Tree}
  {ending : Ending}

theorem runFrom_of_nothingLeft {x₁ : σ}
    (hfound : (tools.collect s.files roots config).run x = (found, x₁))
    (hsites : s.sitesOf found = [])
    (hnote : (tools.note (.nothingLeft number)).run x₁ = ((), y)) :
    (runFrom tools roots config (left + 1) number s).run x = (s, y) := by
  rw [runFrom, run_bind_of_eq hfound]
  change (ite ((s.sitesOf found).isEmpty = true) _ _ : StateM σ Session).run x₁ = _
  rw [hsites, List.isEmpty_nil, if_pos rfl]
  exact run_bind_of_eq hnote

theorem Round.collected (h : Round tools roots config number s x found trees y) :
    ∃ x₁, (tools.collect s.files roots config).run x = (found, x₁) := by
  obtain ⟨-, x₁, _, _, hfound, -⟩ := h
  exact ⟨x₁, hfound⟩

theorem Round.run_runFrom (h : Round tools roots config number s x found trees y) :
    (runFrom tools roots config (left + 1) number s).run x =
      if (s.outcome number found trees).report.editsApplied = 0 then
        (s.record (s.outcome number found trees), y)
      else (runFrom tools roots config left (number + 1)
        (s.record (s.outcome number found trees))).run y := by
  obtain ⟨hsome, x₁, x₂, x₃, hfound, htrees, hleft, hdone⟩ := h
  rw [runFrom, run_bind_of_eq hfound]
  change (ite ((s.sitesOf found).isEmpty = true) _ _ : StateM σ Session).run x₁ = _
  rw [List.isEmpty_eq_false_iff.mpr hsome, if_neg Bool.false_ne_true]
  refine (run_bind_of_eq htrees).trans ((run_bind_of_eq hleft).trans
    ((run_bind_of_eq hdone).trans ?_))
  change (ite ((s.outcome number found trees).report.editsApplied = 0) _ _ :
    StateM σ Session).run y = _
  split <;> rfl

theorem exists_ran (tools : Toolchain (StateM σ)) (roots : List String) (config : CompilerConfig)
    (left number : Nat) (s : Session) (x : σ) :
    ∃ ending, Ran tools roots config left number s x ending
      ((runFrom tools roots config left number s).run x).1
      ((runFrom tools roots config left number s).run x).2 := by
  induction left generalizing number s x with
  | zero => exact ⟨.limit, .limit⟩
  | succ left ih =>
    rcases hfound : (tools.collect s.files roots config).run x with ⟨found, x₁⟩
    by_cases hsites : s.sitesOf found = []
    · have hnote : (tools.note (.nothingLeft number)).run x₁ =
          ((), ((tools.note (.nothingLeft number)).run x₁).2) := rfl
      rw [runFrom_of_nothingLeft hfound hsites hnote]
      exact ⟨.nothingLeft, .nothingLeft hfound hsites hnote⟩
    · obtain ⟨trees, y, hround⟩ : ∃ trees y, Round tools roots config number s x found trees y :=
        ⟨_, _, hsites, _, _, _, hfound, rfl, rfl, rfl⟩
      rw [hround.run_runFrom]
      split
      · next hnone => exact ⟨.noEdit, .noEdit hround hnone⟩
      · next hsome =>
        obtain ⟨ending, hran⟩ := ih (number + 1) (s.record (s.outcome number found trees)) y
        exact ⟨ending, .more hround hsome hran⟩

/-- The relation is that of the loop. -/
theorem ran_iff : (∃ ending, Ran tools roots config left number s x ending s' y) ↔
    (runFrom tools roots config left number s).run x = (s', y) := by
  constructor
  · rintro ⟨ending, h⟩
    induction h with
    | limit => rfl
    | nothingLeft hfound hsites hnote => exact runFrom_of_nothingLeft hfound hsites hnote
    | noEdit hround hnone => rw [hround.run_runFrom, if_pos hnone]
    | more hround hsome _ ih => rw [hround.run_runFrom, if_neg hsome, ih]
  · intro h
    have hran := exists_ran tools roots config left number s x
    rwa [h] at hran

/-- Only a run of all its passes ends at the limit. -/
theorem Ran.length_reports (h : Ran tools roots config left number s x ending s' y)
    (hending : ending = .limit) : s'.reports.length = s.reports.length + left := by
  induction h with
  | limit => rfl
  | nothingLeft _ _ _ => cases hending
  | noEdit _ _ => cases hending
  | more _ _ _ ih =>
    rw [ih hending, record, List.length_append, List.length_singleton]
    omega

theorem exists_ran_run (tools : Toolchain (StateM σ)) (roots : List String)
    (config : CompilerConfig) (s : Session) (x : σ) :
    ∃ ending, Ran tools roots config s.maxPasses.toNat 1 s x ending
      ((run tools roots config s).run x).1 ((run tools roots config s).run x).2 :=
  exists_ran tools roots config _ 1 s x

end

end Session

/-! ## 3. Answers without a state -/

namespace Toolchain

/-- The diagnostics depend on nothing but the texts, the names of the root files and the
settings. -/
def AnswersBy (tools : Toolchain (StateM σ))
    (collect : Files → List String → CompilerConfig → List Diagnostic) : Prop :=
  ∀ files roots config x, ((tools.collect files roots config).run x).1 = collect files roots config

theorem AnswersBy.found_eq {tools : Toolchain (StateM σ)}
    {collect : Files → List String → CompilerConfig → List Diagnostic}
    (h : tools.AnswersBy collect) {files : Files} {roots : List String} {config : CompilerConfig}
    {x y : σ} {found : List Diagnostic}
    (hfound : (tools.collect files roots config).run x = (found, y)) :
    found = collect files roots config := by
  rw [← h files roots config x, hfound]

/-- A tree depends on nothing but the name and the text of the file. -/
def ParsesBy (tools : Toolchain (StateM σ)) (parse : String → Text → Tree) : Prop :=
  ∀ name text x, ((tools.parse name text).run x).1 = parse name text

end Toolchain

def Pass.treesBy (parse : String → Text → Tree) (files : Files) (sites : List Site) : Dict Tree :=
  (Pass.filesToParse files sites).map fun file => (file.1, parse file.1 file.2)

namespace Session

variable {tools : Toolchain (StateM σ)} {roots : List String} {config : CompilerConfig}
  {number : Nat} {s : Session} {x y : σ} {found : List Diagnostic} {trees : Dict Tree}

theorem parseAll_by {parse : String → Text → Tree} (h : tools.ParsesBy parse)
    (files : List (String × Text)) (x : σ) :
    ((parseAll tools files).run x).1 = files.map fun file => (file.1, parse file.1 file.2) := by
  induction files generalizing x with
  | nil => rfl
  | cons file rest ih =>
    obtain ⟨name, text⟩ := file
    rcases htree : (tools.parse name text).run x with ⟨tree, x₁⟩
    rcases hrest : (parseAll tools rest).run x₁ with ⟨others, x₂⟩
    have htree' : tree = parse name text := by
      rw [← h name text x, htree]
    have hothers : others = rest.map fun file => (file.1, parse file.1 file.2) := by
      rw [← ih x₁, hrest]
    rw [parseAll, run_bind_of_eq htree, run_bind_of_eq hrest, htree', hothers]
    rfl

theorem Round.found_eq (h : Round tools roots config number s x found trees y)
    {collect : Files → List String → CompilerConfig → List Diagnostic}
    (hcollect : tools.AnswersBy collect) : found = collect s.files roots config := by
  obtain ⟨_, hfound⟩ := h.collected
  exact hcollect.found_eq hfound

theorem Round.trees_eq (h : Round tools roots config number s x found trees y)
    {parse : String → Text → Tree} (hparse : tools.ParsesBy parse) :
    trees = Pass.treesBy parse s.files (s.sitesOf found) := by
  obtain ⟨-, x₁, _, _, -, htrees, -⟩ := h
  rw [Pass.treesBy, ← parseAll_by hparse _ x₁, htrees]

end Session

end ChainGuard
