import ChainGuard.Proofs.AccessChain
import ChainGuard.Proofs.Session.Round

/-!
# Runs in parts

If the answers of the tools depend on the texts alone, so does everything that a run does to the
texts. Nothing of the account of earlier passes comes into it. So a run can be cut in two anywhere,
and a run that ended by itself has nothing left to do.

1. `Session.advance?`: what one more pass does to the texts.
   `Session.progress`: what several passes do, without an account.
   `Session.progress_add`: passes in two parts.
2. `Session.Ran.progress_eq`: a run makes this progress.
   `Session.Ran.advance?_eq_none`: a run that ended by itself has come to rest.
3. Main statement: `Session.run_in_two_parts`.
-/

namespace ChainGuard

/-- A pass without edits leaves the files as they were. -/
theorem Files.GrowsBy.eq_of_zero {n : Nat} {before after : Files} (h : Files.GrowsBy n before after)
    (hn : n = 0) : after = before := by
  induction h with
  | nil => rfl
  | @cons m n name old new before after htext _ ih =>
    have hm : m = 0 := by omega
    have hlength := htext.length_upper
    have htexts : old = new := htext.sublist.eq_of_length_le (by omega)
    rw [htexts, ih (by omega)]

namespace Session

/-! ## 1. Progress on the texts -/

section

variable (ask : Files → List Diagnostic) (parse : String → Text → Tree) (codes : List Int)

def passOver (files : Files) : Pass.Outcome :=
  let sites := (ask files).filterMap (Diagnostic.site? codes)
  Pass.run 0 files (Pass.treesBy parse files sites) sites

/-- The texts after one more pass, and the number of its edits, if there are any. -/
def advance? (files : Files) : Option (Files × Nat) :=
  let outcome := passOver ask parse codes files
  if outcome.report.editsApplied = 0 then none
  else some (outcome.files, outcome.report.editsApplied)

/-- The texts after at most `left` passes, and the number of all edits. -/
def progress : (left : Nat) → Files → Files × Nat
  | 0, files => (files, 0)
  | left + 1, files =>
    match advance? ask parse codes files with
    | none => (files, 0)
    | some (next, edits) =>
      let rest := progress left next
      (rest.1, edits + rest.2)

variable {ask parse codes}

theorem progress_of_rest {files : Files} (h : advance? ask parse codes files = none) (left : Nat) :
    progress ask parse codes left files = (files, 0) := by
  cases left with
  | zero => rfl
  | succ left => rw [progress, h]

theorem progress_of_advance {files next : Files} {edits : Nat}
    (h : advance? ask parse codes files = some (next, edits)) (left : Nat) :
    progress ask parse codes (left + 1) files =
      ((progress ask parse codes left next).1, edits + (progress ask parse codes left next).2) := by
  rw [progress, h]

/-- The passes of one part and those of the other add up. -/
theorem progress_add (m n : Nat) (files : Files) :
    progress ask parse codes (m + n) files =
      let first := progress ask parse codes m files
      let second := progress ask parse codes n first.1
      (second.1, first.2 + second.2) := by
  induction m generalizing files with
  | zero => simp [progress]
  | succ m ih =>
    rw [Nat.succ_add]
    cases hnext : advance? ask parse codes files with
    | none =>
      simp only [progress_of_rest hnext]
    | some step =>
      obtain ⟨next, edits⟩ := step
      simp only [progress_of_advance hnext, ih next, Nat.add_assoc]

end

/-! ## 2. Runs make progress -/

section

variable {σ : Type} {tools : Toolchain (StateM σ)} {roots : List String} {config : CompilerConfig}
  {collect : Files → List String → CompilerConfig → List Diagnostic} {parse : String → Text → Tree}
  {left number : Nat} {s s' : Session} {x y : σ} {ending : Ending}

/-- Without sites there is nothing to do. -/
theorem advance?_of_no_site {ask : Files → List Diagnostic} (h : s.sitesOf (ask s.files) = []) :
    advance? ask parse s.codes s.files = none := by
  rw [sitesOf] at h
  simp only [advance?, passOver, h]
  rfl

/-- What one more pass does is what the round did. -/
theorem Round.advance?_eq {found : List Diagnostic} {trees : Dict Tree}
    (h : Round tools roots config number s x found trees y) (hcollect : tools.AnswersBy collect)
    (hparse : tools.ParsesBy parse) :
    advance? (collect · roots config) parse s.codes s.files =
      if (s.outcome number found trees).report.editsApplied = 0 then none
      else some ((s.outcome number found trees).files,
        (s.outcome number found trees).report.editsApplied) := by
  have hfound := h.found_eq hcollect
  have htrees := h.trees_eq hparse
  subst hfound htrees
  rfl

theorem outcome_files_of_no_edit {found : List Diagnostic} {trees : Dict Tree}
    (h : (s.outcome number found trees).report.editsApplied = 0) :
    (s.outcome number found trees).files = s.files :=
  (Pass.growsBy_run number s.files trees (s.sitesOf found)).eq_of_zero h

/-- The texts after a run and the changes that it counts are those of the passes. The induction is
on the run; the numbers of the passes and the account so far do not matter. -/
theorem Ran.progress_eq (h : Ran tools roots config left number s x ending s' y)
    (hcollect : tools.AnswersBy collect) (hparse : tools.ParsesBy parse) :
    s'.files = (progress (collect · roots config) parse s.codes left s.files).1 ∧
    s'.totalChanges =
      s.totalChanges + (progress (collect · roots config) parse s.codes left s.files).2 := by
  induction h with
  | limit => exact ⟨rfl, rfl⟩
  | nothingLeft hfound hsites _ =>
    rw [hcollect.found_eq hfound] at hsites
    rw [progress_of_rest (advance?_of_no_site hsites)]
    exact ⟨rfl, rfl⟩
  | noEdit hround hnone =>
    have hrest := hround.advance?_eq hcollect hparse
    rw [if_pos hnone] at hrest
    rw [progress_of_rest hrest]
    refine ⟨outcome_files_of_no_edit hnone, ?_⟩
    rw [record, hnone]
  | more hround hsome _ ih =>
    have hnext := hround.advance?_eq hcollect hparse
    rw [if_neg hsome] at hnext
    rw [progress_of_advance hnext, ← Nat.add_assoc]
    exact ih

/-- A run that did not end at its limit has come to rest. -/
theorem Ran.advance?_eq_none (h : Ran tools roots config left number s x ending s' y)
    (hcollect : tools.AnswersBy collect) (hparse : tools.ParsesBy parse)
    (hending : ending ≠ .limit) :
    advance? (collect · roots config) parse s.codes s'.files = none := by
  induction h with
  | limit => exact absurd rfl hending
  | nothingLeft hfound hsites _ =>
    rw [hcollect.found_eq hfound] at hsites
    exact advance?_of_no_site hsites
  | noEdit hround hnone =>
    have hrest := hround.advance?_eq hcollect hparse
    rw [if_pos hnone] at hrest
    rw [record, outcome_files_of_no_edit hnone]
    exact hrest
  | more _ _ _ ih => exact ih hending

end

/-! ## 3. Main statement -/

/-- The answers of the tools depend on the texts, the root files and the settings alone, and the
trees on the names and the texts. Then a fresh run of at most `m + n` passes ends with the same
texts as a fresh run of at most `n` passes on what a fresh run of at most `m` passes comes to, and
counts the changes of both. If the run of `m` passes ended for lack of sites or of edits, the run
after it changes nothing and counts nothing. -/
theorem run_in_two_parts {σ : Type} {tools : Toolchain (StateM σ)}
    {collect : Files → List String → CompilerConfig → List Diagnostic}
    {parse : String → Text → Tree} (hcollect : tools.AnswersBy collect)
    (hparse : tools.ParsesBy parse) (roots : List String) (config : CompilerConfig)
    (files : Files) (codes : List Int) (m n : Nat) (x y z : σ) :
    let fresh (files : Files) (passes : Nat) : Session := { files, codes, maxPasses := passes }
    let first := ((run tools roots config (fresh files m)).run x).1
    let second := ((run tools roots config (fresh first.files n)).run y).1
    let whole := ((run tools roots config (fresh files (m + n))).run z).1
    whole.files = second.files ∧
    whole.totalChanges = first.totalChanges + second.totalChanges ∧
    ∀ ending x', Ran tools roots config m 1 (fresh files m) x ending first x' → ending ≠ .limit →
      second.files = first.files ∧ second.totalChanges = 0 := by
  intro fresh first second whole
  have hpasses : ∀ (files : Files) (k : Nat) (x : σ),
      ((run tools roots config (fresh files k)).run x).1.files =
        (progress (collect · roots config) parse codes k files).1 ∧
      ((run tools roots config (fresh files k)).run x).1.totalChanges =
        (progress (collect · roots config) parse codes k files).2 := by
    intro files k x
    obtain ⟨ending, hran⟩ := exists_ran_run tools roots config (fresh files k) x
    obtain ⟨hfiles, htotal⟩ := hran.progress_eq hcollect hparse
    exact ⟨hfiles, htotal.trans (Nat.zero_add _)⟩
  obtain ⟨hfirst, hfirstTotal⟩ := hpasses files m x
  obtain ⟨hsecond, hsecondTotal⟩ := hpasses first.files n y
  obtain ⟨hwhole, hwholeTotal⟩ := hpasses files (m + n) z
  rw [progress_add] at hwhole hwholeTotal
  refine ⟨?_, ?_, fun ending x' hran hending => ?_⟩
  · rw [hwhole, hsecond, hfirst]
  · rw [hwholeTotal, hfirstTotal, hsecondTotal, hfirst]
  · have hrest := hran.advance?_eq_none hcollect hparse hending
    rw [hsecond, hsecondTotal, progress_of_rest hrest]
    exact ⟨rfl, rfl⟩

/-! Tools for a file with the statement `a.b.c;`, and what becomes of it. -/

/-- The statement `a.b.c;`, with markers or without. -/
def twoAccesses (first second : Marking) : AccessChain where
  root := ['a']
  segments := [.property first ['b'], .property second ['c']]

def chainComplaints (files : Files) : List Diagnostic :=
  if files.get? "m.ts" = some "a.b.c;".toList then [⟨2532, some "m.ts", some 0, []⟩]
  else if files.get? "m.ts" = some "a?.b.c;".toList then [⟨2532, some "m.ts", some 3, []⟩]
  else []

def chainTree (text : Text) : Tree :=
  if text = "a.b.c;".toList then (twoAccesses .plain .plain).tree
  else (twoAccesses .wrapped .plain).tree

/-- Tools that count how often they are asked, and answer all the same. -/
def chainTools : Toolchain (StateM Nat) where
  collect files _ _ := do
    modify (· + 1)
    pure (chainComplaints files)
  parse _ text := pure (chainTree text)
  note _ := pure ()

/-- A run on `a.b.c;` guards both accesses and ends for lack of sites, and the run after it does
nothing. -/
theorem chain_run_comes_to_rest :
    chainTools.AnswersBy (fun files _ _ => chainComplaints files) ∧
    chainTools.ParsesBy (fun _ text => chainTree text) ∧
    let fresh (files : Files) (passes : Nat) : Session := { files, maxPasses := passes }
    let first := ((run chainTools [] {} (fresh [("m.ts", "a.b.c;".toList)] 3)).run 0).1
    let second := ((run chainTools [] {} (fresh first.files 1)).run 3).1
    first.files = [("m.ts", "a?.b?.c;".toList)] ∧ first.totalChanges = 2 ∧
    second.files = first.files ∧ second.totalChanges = 0 := by
  have hcollect : chainTools.AnswersBy (fun files _ _ => chainComplaints files) :=
    fun _ _ _ _ => rfl
  have hparse : chainTools.ParsesBy (fun _ text => chainTree text) := fun _ _ _ => rfl
  refine ⟨hcollect, hparse, ?_⟩
  intro fresh first second
  have hfiles : first.files = [("m.ts", "a?.b?.c;".toList)] := by decide +kernel
  have htotal : first.totalChanges = 2 := by decide +kernel
  have hreports : first.reports.length = 2 := by decide +kernel
  obtain ⟨ending, hran⟩ := exists_ran_run chainTools [] {} (fresh [("m.ts", "a.b.c;".toList)] 3) 0
  have hending : ending ≠ .limit := fun heq => absurd (hran.length_reports heq) (by
    rw [hreports]
    decide)
  have hrest := (run_in_two_parts hcollect hparse [] {} [("m.ts", "a.b.c;".toList)]
    Diagnostic.defaultCodes 3 1 0 3 0).2.2
  exact ⟨hfiles, htotal, hrest ending _ hran hending⟩

end Session

end ChainGuard
