import ChainGuard.Proofs.Pass.Account
import ChainGuard.Proofs.Session.Split

/-!
# The account of a run

The reports of a session say how often the tools were asked and what became of their answers. To
compare the two, a run is repeated with tools that write down every question with its answer.

1. `Toolchain.recording`: tools that are listened to. `Session.Ran.erase`: they work as before.
2. `Turn`: what is written down in one pass, with the report of the pass.
   `Turn.Balanced`: the report counts what was written down.
3. `Session.Booked`: the turns of a run; `Session.Ran.booked` finds them by induction on the run.
4. `Session.Reached`: sessions that are run again and again.
   Main statement: `Session.runs_add_up`.
-/

namespace ChainGuard

variable {σ : Type}

/-! ## 1. Listening to the tools -/

/-- A file as it was given to the parser, with its tree. -/
structure ParsedFile where
  name : String
  text : Text
  tree : Tree

def ParsedFile.trees (parsed : List ParsedFile) : Dict Tree :=
  parsed.map fun file => (file.name, file.tree)

/-- A question that a run puts to its tools, with the answer. -/
inductive Consultation where
  | collected (files : Files) (found : List Diagnostic)
  | parsed (file : ParsedFile)

def Consultation.isCollected : Consultation → Bool
  | collected _ _ => true
  | parsed _ => false

namespace Toolchain

/-- The action, with what is to be written down about its answer. -/
def recorded {α : Type} (action : StateM σ α) (entry : α → List Consultation) :
    StateM (σ × List Consultation) α := fun state =>
  let answer := action.run state.1
  (answer.1, answer.2, state.2 ++ entry answer.1)

/-- The tools with everything that they are asked and answer written down. -/
def recording (tools : Toolchain (StateM σ)) : Toolchain (StateM (σ × List Consultation)) where
  collect files roots config :=
    recorded (tools.collect files roots config) fun found => [.collected files found]
  parse name text := recorded (tools.parse name text) fun tree => [.parsed ⟨name, text, tree⟩]
  note progress := recorded (tools.note progress) fun _ => []

variable {tools : Toolchain (StateM σ)} {x y : σ} {log log' : List Consultation}

theorem collect_recording {files : Files} {roots : List String} {config : CompilerConfig}
    {found : List Diagnostic}
    (h : (tools.recording.collect files roots config).run (x, log) = (found, y, log')) :
    (tools.collect files roots config).run x = (found, y) ∧
      log' = log ++ [.collected files found] := by
  cases h
  exact ⟨rfl, rfl⟩

theorem parse_recording {name : String} {text : Text} {tree : Tree}
    (h : (tools.recording.parse name text).run (x, log) = (tree, y, log')) :
    (tools.parse name text).run x = (tree, y) ∧ log' = log ++ [.parsed ⟨name, text, tree⟩] := by
  cases h
  exact ⟨rfl, rfl⟩

/-- Nothing is written down about notes. -/
theorem note_recording {progress : Progress}
    (h : (tools.recording.note progress).run (x, log) = ((), y, log')) :
    (tools.note progress).run x = ((), y) ∧ log' = log := by
  cases h
  exact ⟨rfl, List.append_nil log⟩

end Toolchain

namespace Session

variable {tools : Toolchain (StateM σ)} {roots : List String} {config : CompilerConfig}
  {left number : Nat} {s s' : Session} {x y : σ} {log log' : List Consultation}
  {found : List Diagnostic} {trees : Dict Tree} {ending : Ending}

theorem parseAll_recording {files : List (String × Text)}
    (h : (parseAll tools.recording files).run (x, log) = (trees, y, log')) :
    (parseAll tools files).run x = (trees, y) ∧
      ∃ parsed, trees = ParsedFile.trees parsed ∧ log' = log ++ parsed.map .parsed := by
  induction files generalizing x log trees with
  | nil =>
    cases h
    exact ⟨rfl, [], rfl, (List.append_nil _).symm⟩
  | cons file rest ih =>
    obtain ⟨name, text⟩ := file
    rcases htree : (tools.recording.parse name text).run (x, log) with ⟨tree, x₁, log₁⟩
    rcases hrest : (parseAll tools.recording rest).run (x₁, log₁) with ⟨others, x₂, log₂⟩
    rw [parseAll, run_bind_of_eq htree, run_bind_of_eq hrest] at h
    cases h
    obtain ⟨htree', rfl⟩ := Toolchain.parse_recording htree
    obtain ⟨hrest', parsed, rfl, rfl⟩ := ih hrest
    refine ⟨?_, ⟨name, text, tree⟩ :: parsed, rfl, ?_⟩
    · rw [parseAll, run_bind_of_eq htree', run_bind_of_eq hrest']
      rfl
    · rw [List.append_assoc]
      rfl

theorem noteAll_recording {sites : List Site}
    (h : (noteAll tools.recording sites).run (x, log) = ((), y, log')) :
    (noteAll tools sites).run x = ((), y) ∧ log' = log := by
  induction sites generalizing x log with
  | nil =>
    cases h
    exact ⟨rfl, rfl⟩
  | cons site rest ih =>
    rcases hnote : (tools.recording.note (.leftAlone site)).run (x, log) with ⟨⟨⟩, x₁, log₁⟩
    rw [noteAll, run_bind_of_eq hnote] at h
    obtain ⟨hnote', rfl⟩ := Toolchain.note_recording hnote
    obtain ⟨hrest, rfl⟩ := ih h
    rw [noteAll, run_bind_of_eq hnote', hrest]
    exact ⟨rfl, rfl⟩

/-- A round with tools that are listened to is one without, and what was written down. -/
theorem Round.erase
    (h : Round tools.recording roots config number s (x, log) found trees (y, log')) :
    Round tools roots config number s x found trees y ∧
      ∃ parsed, trees = ParsedFile.trees parsed ∧
        log' = log ++ .collected s.files found :: parsed.map .parsed := by
  obtain ⟨hsome, ⟨x₁, log₁⟩, ⟨x₂, log₂⟩, ⟨x₃, log₃⟩, hfound, htrees, hleft, hdone⟩ := h
  obtain ⟨hfound', rfl⟩ := Toolchain.collect_recording hfound
  obtain ⟨htrees', parsed, hparsed, rfl⟩ := parseAll_recording htrees
  obtain ⟨hleft', rfl⟩ := noteAll_recording hleft
  obtain ⟨hdone', rfl⟩ := Toolchain.note_recording hdone
  refine ⟨⟨hsome, x₁, x₂, x₃, hfound', htrees', hleft', hdone'⟩, parsed, hparsed, ?_⟩
  rw [List.append_assoc]
  rfl

/-- Listening does not disturb a run. -/
theorem Ran.erase {w w' : σ × List Consultation}
    (h : Ran tools.recording roots config left number s w ending s' w') :
    Ran tools roots config left number s w.1 ending s' w'.1 := by
  induction h with
  | limit => exact .limit
  | nothingLeft hfound hsites hnote =>
    exact .nothingLeft (Toolchain.collect_recording hfound).1 hsites
      (Toolchain.note_recording hnote).1
  | noEdit hround hnone => exact .noEdit hround.erase.1 hnone
  | more hround hsome _ ih => exact .more hround.erase.1 hsome ih

end Session

/-! ## 2. Turns -/

/-- The diagnostic has one of the codes, a file and an offset. -/
def Diagnostic.counts (codes : List Int) (d : Diagnostic) : Bool :=
  codes.contains d.code && d.file.isSome && d.offset.isSome

/-- The edit that is made for a diagnostic, with its file. -/
def Diagnostic.edit? (files : Files) (trees : Dict Tree) (d : Diagnostic) :
    Option (String × Edit) := do
  let name ← d.file
  let offset ← d.offset
  (Pass.edit? files trees ⟨d.code, name, offset⟩).map (Prod.mk name)

namespace Diagnostic

theorem site?_of_counts {codes : List Int} {d : Diagnostic} (h : d.counts codes = true) :
    ∃ name offset, d.file = some name ∧ d.offset = some offset ∧
      d.site? codes = some ⟨d.code, name, offset⟩ := by
  rw [counts, Bool.and_eq_true, Bool.and_eq_true] at h
  obtain ⟨⟨hcode, hfile⟩, hoffset⟩ := h
  obtain ⟨name, hname⟩ := Option.isSome_iff_exists.mp hfile
  obtain ⟨offset, hoffset⟩ := Option.isSome_iff_exists.mp hoffset
  refine ⟨name, offset, hname, hoffset, ?_⟩
  rw [site?, if_pos hcode, hname, hoffset]

theorem site?_of_not_counts {codes : List Int} {d : Diagnostic} (h : d.counts codes = false) :
    d.site? codes = none := by
  unfold site?
  split
  · next hcode =>
    split
    · next name offset hname hoffset =>
      rw [counts, hcode, hname, hoffset] at h
      cases h
    · rfl
  · rfl

theorem length_counted (codes : List Int) (found : List Diagnostic) :
    (found.filter (counts codes)).length = (found.filterMap (site? codes)).length := by
  induction found with
  | nil => rfl
  | cons d rest ih =>
    cases hd : d.counts codes with
    | true =>
      obtain ⟨_, _, -, -, hsite⟩ := site?_of_counts hd
      rw [List.filter_cons_of_pos hd, List.filterMap_cons_some hsite, List.length_cons,
        List.length_cons, ih]
    | false =>
      rw [List.filter_cons_of_neg (by simp [hd]), List.filterMap_cons_none (site?_of_not_counts hd),
        ih]

/-- The edits for the diagnostics that count are those that their sites ask for. -/
theorem edits_eq_asked (codes : List Int) (files : Files) (trees : Dict Tree)
    (found : List Diagnostic) :
    (found.filter (counts codes)).filterMap (edit? files trees) =
      Pass.asked files trees (found.filterMap (site? codes)) := by
  rw [Pass.asked, List.filterMap_filterMap, List.filterMap_filter]
  congr 1
  funext d
  cases hd : d.counts codes with
  | true =>
    obtain ⟨name, offset, hname, hoffset, hsite⟩ := site?_of_counts hd
    rw [if_pos rfl, hsite, edit?, hname, hoffset]
    rfl
  | false => rw [if_neg Bool.false_ne_true, site?_of_not_counts hd, Option.bind_none]

end Diagnostic

/-- One pass of a run: the texts before and after it, the diagnostics that were found, the files
that were parsed, and the report. -/
structure Turn where
  before : Files
  found : List Diagnostic
  parsed : List ParsedFile
  report : Report
  after : Files

namespace Turn

def consultations (t : Turn) : List Consultation :=
  .collected t.before t.found :: t.parsed.map .parsed

/-- The edits made for the diagnostics that count, one for each diagnostic that yields one. -/
def edits (codes : List Int) (t : Turn) : List (String × Edit) :=
  (t.found.filter (Diagnostic.counts codes)).filterMap
    (Diagnostic.edit? t.before (ParsedFile.trees t.parsed))

/-- The report of the pass counts what was found and what was done. -/
structure Balanced (codes : List Int) (t : Turn) : Prop where
  diagnostics : t.report.diagnostics = (t.found.filter (Diagnostic.counts codes)).length
  some_diagnostic : 1 ≤ t.report.diagnostics
  editsApplied : t.report.editsApplied = (t.edits codes).toFinset.card
  skipped : t.report.skipped + (t.edits codes).length = t.report.diagnostics
  no_edit_iff_skipped : t.report.editsApplied = 0 ↔ t.report.skipped = t.report.diagnostics
  no_edit_iff_unchanged : t.report.editsApplied = 0 ↔ t.report.filesChanged = []
  nodup : t.report.filesChanged.Nodup
  changed : ∀ name, name ∈ t.report.filesChanged ↔ t.after.get? name ≠ t.before.get? name

/-- The number of questions for diagnostics in some turns. -/
theorem countP_consultations (turns : List Turn) :
    (turns.flatMap consultations).countP Consultation.isCollected = turns.length := by
  induction turns with
  | nil => rfl
  | cons t rest ih =>
    have hparsed : (t.parsed.map Consultation.parsed).countP Consultation.isCollected = 0 := by
      rw [List.countP_map]
      exact List.countP_eq_zero.mpr fun _ _ => Bool.false_ne_true
    rw [List.flatMap_cons, List.countP_append, ih, consultations,
      List.countP_cons_of_pos rfl, hparsed, List.length_cons]
    omega

end Turn

/-! ## 3. The turns of a run -/

namespace Session

variable {tools : Toolchain (StateM σ)} {roots : List String} {config : CompilerConfig}
  {left number : Nat} {s s' : Session} {x y : σ} {log log' : List Consultation}
  {found : List Diagnostic} {trees : Dict Tree} {ending : Ending}

def turn (s : Session) (number : Nat) (found : List Diagnostic)
    (parsed : List ParsedFile) : Turn :=
  let outcome := s.outcome number found (ParsedFile.trees parsed)
  ⟨s.files, found, parsed, outcome.report, outcome.files⟩

/-- Whatever was found and parsed, the report of a pass over some site counts it. All sites are
skipped if and only if none asks for an edit. -/
theorem balanced_turn {parsed : List ParsedFile} (h : s.sitesOf found ≠ []) :
    (s.turn number found parsed).Balanced s.codes := by
  have hedits : (s.turn number found parsed).edits s.codes =
      Pass.asked s.files (ParsedFile.trees parsed) (s.sitesOf found) :=
    Diagnostic.edits_eq_asked _ _ _ _
  have hskipped := Pass.skipped_run number s.files (ParsedFile.trees parsed) (s.sitesOf found)
  refine
    { diagnostics := (Diagnostic.length_counted s.codes found).symm
      some_diagnostic := List.length_pos_iff.mpr h
      editsApplied := ?_
      skipped := ?_
      no_edit_iff_skipped := ?_
      no_edit_iff_unchanged := ?_
      nodup := ?_
      changed := Pass.mem_filesChanged number s.files _ (s.sitesOf found) }
  · rw [hedits]
    exact Pass.editsApplied_eq_card number s.files _ (s.sitesOf found)
  · rw [hedits]
    exact hskipped
  · refine Pass.editsApplied_eq_zero_iff.trans ?_
    rw [← List.length_eq_zero_iff]
    show _ ↔ _ = (s.sitesOf found).length
    rw [← hskipped]
    exact Nat.left_eq_add.symm
  · exact Pass.editsApplied_eq_zero_iff.trans Pass.filesChanged_eq_nil_iff.symm
  · exact Pass.filesChanged_run number ▸ Pass.nodup_editedNames s.files _ (s.sitesOf found)

/-- The turns lead from the texts `before` to the texts `after`. -/
def Linked : (before : Files) → List Turn → (after : Files) → Prop
  | before, [], after => before = after
  | before, t :: rest, after => t.before = before ∧ Linked t.after rest after

/-- Why a run of at most `limit` passes with these turns ended, and all that was asked in it. -/
inductive Closing (codes : List Int) (limit : Nat) (turns : List Turn) (after : Files) :
    Ending → List Consultation → Prop
  | nothingLeft {found : List Diagnostic} : turns.length < limit →
      found.filter (Diagnostic.counts codes) = [] →
      Closing codes limit turns after .nothingLeft
        (turns.flatMap Turn.consultations ++ [.collected after found])
  | noEdit {last : Turn} : turns.getLast? = some last → last.report.editsApplied = 0 →
      Closing codes limit turns after .noEdit (turns.flatMap Turn.consultations)
  | limit : turns.length = limit → (∀ t ∈ turns, t.report.editsApplied ≠ 0) →
      Closing codes limit turns after .limit (turns.flatMap Turn.consultations)

/-- A turn that applied edits comes before others. -/
theorem Closing.cons {codes : List Int} {limit : Nat} {turns : List Turn} {after : Files} {t : Turn}
    (h : Closing codes limit turns after ending log) (ht : t.report.editsApplied ≠ 0) :
    Closing codes (limit + 1) (t :: turns) after ending (t.consultations ++ log) := by
  cases h with
  | nothingLeft hlength hfound =>
    rw [← List.append_assoc, ← List.flatMap_cons]
    exact .nothingLeft (Nat.succ_lt_succ hlength) hfound
  | noEdit hlast hnone =>
    rw [← List.flatMap_cons]
    refine .noEdit ?_ hnone
    rw [List.getLast?_cons, hlast, Option.getD_some]
  | limit hlength hsome =>
    rw [← List.flatMap_cons]
    exact .limit (congrArg (· + 1) hlength) (List.forall_mem_cons.mpr ⟨ht, hsome⟩)

/-- One question for diagnostics a turn, and one more if it found none that counts. -/
theorem Closing.countP_log {codes : List Int} {limit : Nat} {turns : List Turn} {after : Files}
    (h : Closing codes limit turns after ending log) :
    log.countP Consultation.isCollected =
      turns.length + if ending = .nothingLeft then 1 else 0 := by
  cases h with
  | nothingLeft _ _ =>
    rw [List.countP_append, Turn.countP_consultations]
    rfl
  | noEdit _ _ => exact Turn.countP_consultations turns
  | limit _ _ => exact Turn.countP_consultations turns

/-- A run of at most `left` passes, the first of which has the given number, consists of the turns,
with the given questions. -/
structure Booked (s s' : Session) (left number : Nat) (turns : List Turn) (ending : Ending)
    (log : List Consultation) : Prop where
  linked : Linked s.files turns s'.files
  balanced : ∀ t ∈ turns, t.Balanced s.codes
  closing : Closing s.codes left turns s'.files ending log
  appended : s'.reports = s.reports ++ turns.map Turn.report
  numbered : turns.map (·.report.number) = List.range' number turns.length
  bounded : turns.length ≤ left
  only_last : ∀ t ∈ turns.dropLast, t.report.editsApplied ≠ 0

theorem Booked.nil (h : Closing s.codes left [] s.files ending log) :
    Booked s s left number [] ending log where
  linked := rfl
  balanced := List.forall_mem_nil _
  closing := h
  appended := (List.append_nil _).symm
  numbered := rfl
  bounded := Nat.zero_le left
  only_last := List.forall_mem_nil _

theorem Booked.single {parsed : List ParsedFile} (hsites : s.sitesOf found ≠ [])
    (hnone : (s.turn number found parsed).report.editsApplied = 0) :
    Booked s (s.record (s.outcome number found (ParsedFile.trees parsed))) (left + 1)
      number [s.turn number found parsed] .noEdit (s.turn number found parsed).consultations where
  linked := ⟨rfl, rfl⟩
  balanced := List.forall_mem_singleton.mpr (balanced_turn hsites)
  closing := by
    rw [← List.flatMap_singleton Turn.consultations]
    exact .noEdit rfl hnone
  appended := rfl
  numbered := rfl
  bounded := Nat.succ_le_succ (Nat.zero_le left)
  only_last := List.forall_mem_nil _

/-- One more pass at the beginning. -/
theorem Booked.cons {turns : List Turn} {parsed : List ParsedFile}
    (hsites : s.sitesOf found ≠ [])
    (hsome : (s.turn number found parsed).report.editsApplied ≠ 0)
    (h : Booked (s.record (s.outcome number found (ParsedFile.trees parsed))) s' left
      (number + 1) turns ending log) :
    Booked s s' (left + 1) number (s.turn number found parsed :: turns) ending
      ((s.turn number found parsed).consultations ++ log) where
  linked := ⟨rfl, h.linked⟩
  balanced := List.forall_mem_cons.mpr ⟨balanced_turn hsites, h.balanced⟩
  closing := h.closing.cons hsome
  appended := by
    rw [h.appended, record, List.map_cons, List.append_assoc]
    rfl
  numbered := by
    rw [List.map_cons, h.numbered, List.length_cons, List.range'_succ]
    rfl
  bounded := Nat.succ_le_succ h.bounded
  only_last := by
    cases turns with
    | nil => exact List.forall_mem_nil _
    | cons next rest =>
      rw [List.dropLast_cons_cons]
      exact List.forall_mem_cons.mpr ⟨hsome, h.only_last⟩

/-- The turns of a run, by induction on it. -/
theorem Ran.booked {w w' : σ × List Consultation}
    (h : Ran tools.recording roots config left number s w ending s' w') :
    ∃ turns asked, w'.2 = w.2 ++ asked ∧ Booked s s' left number turns ending asked := by
  induction h with
  | limit =>
    exact ⟨[], [], (List.append_nil _).symm, .nil (.limit rfl (List.forall_mem_nil _))⟩
  | @nothingLeft left number s _ _ _ found hfound hsites hnote =>
    obtain ⟨-, hfound⟩ := Toolchain.collect_recording hfound
    obtain ⟨-, hnote⟩ := Toolchain.note_recording hnote
    have hnone : found.filter (Diagnostic.counts s.codes) = [] := by
      rw [← List.length_eq_zero_iff, Diagnostic.length_counted]
      exact List.length_eq_zero_iff.mpr hsites
    exact ⟨[], [.collected s.files found], hnote.trans hfound,
      .nil (.nothingLeft (Nat.succ_pos left) hnone)⟩
  | noEdit hround hnone =>
    obtain ⟨-, parsed, rfl, hlog⟩ := hround.erase
    exact ⟨_, _, hlog, .single hround.some_site hnone⟩
  | more hround hsome _ ih =>
    obtain ⟨-, parsed, rfl, hlog⟩ := hround.erase
    obtain ⟨turns, asked, hasked, hbooked⟩ := ih
    refine ⟨_, _, ?_, hbooked.cons hround.some_site hsome⟩
    rw [hasked, hlog, List.append_assoc]
    rfl

/-! ## 4. Sessions that are run again and again -/

/-- The totals of a session are those of all its reports. -/
structure Totals (s : Session) : Prop where
  totalChanges : s.totalChanges = (s.reports.map Report.editsApplied).sum
  passesRun : s.passesRun = (s.reports.getLast?.map Report.number).getD 0

theorem Totals.record (h : s.Totals) (outcome : Pass.Outcome) : (s.record outcome).Totals where
  totalChanges := by
    rw [Session.record, List.map_append, List.sum_append, h.totalChanges]
    simp
  passesRun := by
    rw [Session.record, List.getLast?_concat]
    rfl

theorem Totals.run (h : s.Totals) (tools : Toolchain (StateM σ)) (roots : List String)
    (config : CompilerConfig) (x : σ) : ((run tools roots config s).run x).1.Totals :=
  rel_run (R := fun s s' => s.Totals → s'.Totals) (fun _ => id) (fun hab hbc ha => hbc (hab ha))
    (fun _ _ _ _ h => h.record _) tools roots config s x h

/-- The session comes from a fresh one by runs, with any tools, and with other texts, codes and
limits between them. -/
inductive Reached : Session → Prop
  | fresh (files : Files) (codes : List Int) (maxPasses : Int) :
      Reached { files, codes, maxPasses }
  | changed {s : Session} (files : Files) (codes : List Int) (maxPasses : Int) :
      Reached s → Reached { s with files, codes, maxPasses }
  | ran {σ : Type} {s : Session} (tools : Toolchain (StateM σ)) (roots : List String)
      (config : CompilerConfig) (x : σ) :
      Reached s → Reached ((run tools roots config s).run x).1

theorem Reached.totals (h : Reached s) : s.Totals := by
  induction h with
  | fresh _ _ _ => exact ⟨rfl, rfl⟩
  | changed _ _ _ _ ih => exact ⟨ih.totalChanges, ih.passesRun⟩
  | ran tools roots config x _ ih => exact ih.run tools roots config x

/-- The account of a run from `s` to `s'`, which consists of the turns and ended for the given
reason, with all that was asked in it. -/
structure Accounted (s s' : Session) (turns : List Turn) (ending : Ending)
    (log : List Consultation) : Prop extends
    Booked s s' s.maxPasses.toNat 1 turns ending log where
  calls : log.countP Consultation.isCollected =
    turns.length + if ending = .nothingLeft then 1 else 0
  totals : s'.Totals

/-- However often a session has been run before, and whatever its tools answer: a run can be
listened to without any effect on it, and what is heard is what the reports of the run and the
totals of the session account for. -/
theorem runs_add_up {σ : Type} {s : Session} (hs : Reached s) (tools : Toolchain (StateM σ))
    (roots : List String) (config : CompilerConfig) (x : σ) :
    let final := (run tools roots config s).run x
    let heard := (run tools.recording roots config s).run (x, [])
    heard.1 = final.1 ∧ heard.2.1 = final.2 ∧
    ∃ turns ending, Accounted s final.1 turns ending heard.2.2 := by
  intro final heard
  obtain ⟨ending, hran⟩ := exists_ran_run tools.recording roots config s (x, [])
  have hsame : final = (heard.1, heard.2.1) := ran_iff.mp ⟨ending, hran.erase⟩
  obtain ⟨turns, asked, hasked, hbooked⟩ := hran.booked
  have hlog : heard.2.2 = asked := hasked
  have htotals : final.1.Totals := hs.totals.run tools roots config x
  rw [hsame] at htotals ⊢
  rw [hlog]
  exact ⟨rfl, rfl, turns, ending, hbooked, hbooked.closing.countP_log, htotals⟩

/-- The statement `a.b.c;` is run to its end in two passes and three questions. The session is run
again on `a?.b.c;` with a limit of one pass, which asks once and starts anew with number one. -/
theorem second_run_adds_up :
    let first := ((run chainTools [] {}
      { files := [("m.ts", "a.b.c;".toList)], maxPasses := 3 }).run 0).1
    let again : Session := { first with files := [("m.ts", "a?.b.c;".toList)], maxPasses := 1 }
    let final := (run chainTools [] {} again).run 7
    let heard := (run chainTools.recording [] {} again).run (7, [])
    final.1.reports.map Report.number = [1, 2, 1] ∧ final.1.totalChanges = 3 ∧
    heard.2.2.countP Consultation.isCollected = 1 ∧
    heard.1 = final.1 ∧ heard.2.1 = final.2 ∧
    ∃ turns ending, Accounted again final.1 turns ending heard.2.2 := by
  intro first again final heard
  have hagain : Reached again :=
    .changed _ first.codes 1 (.ran chainTools [] {} 0 (.fresh _ _ 3))
  have hnumbers : final.1.reports.map Report.number = [1, 2, 1] := by decide +kernel
  have htotal : final.1.totalChanges = 3 := by decide +kernel
  have hcalls : heard.2.2.countP Consultation.isCollected = 1 := by decide +kernel
  exact ⟨hnumbers, htotal, hcalls, runs_add_up hagain chainTools [] {} 7⟩

end Session

end ChainGuard
