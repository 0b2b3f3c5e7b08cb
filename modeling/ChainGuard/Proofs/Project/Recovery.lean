import ChainGuard.Proofs.Backup.Listing
import ChainGuard.Proofs.Project.Fix

/-!
# Originals are never lost

A run that is dry, or fails while it analyses, leaves the disk exactly as it was. A live run first
saves the texts that change, and writes the new ones only when the backup is complete. So at every
instant of the run, and of undoing it, the changed files hold their original texts, or a backup has
them all.

1. Main statement: `FixRequest.analysis_leaves_no_trace`.
2. `FixRequest.Committed`: what a live run with changes has done. `FixRequest.run_cases`: how a live
   run can end.
3. `FixRequest.Recoverable`: the originals are at hand. Main statement:
   `FixRequest.originals_recoverable_at_every_instant`. The same holds of undoing a run that was
   stopped: `FixRequest.stopped_run_can_be_undone`.
-/

namespace ChainGuard

open ChainGuard.Action (Leads)

namespace FixRequest

/-! ## 1. Runs without a trace -/

/-- A run that is dry leaves the disk as it was, whatever comes of it. So does a run that fails
while it loads the project, reads its files, or analyses them in any pass. -/
theorem analysis_leaves_no_trace {r : FixRequest} {w : Host} (hw : w.WellFormed)
    (hconfig : r.config.IsRead) :
    (r.dry = true → (r.run.runIn w).2.disk = w.disk) ∧
    ∀ e v, r.analyse.runIn w = (.error e, v) → r.run.runIn w = (.error e, v) ∧ v.disk = w.disk := by
  have hsame : ∀ result v, r.analyse.runIn w = (result, v) → v.disk = w.disk :=
    fun result v h => ((leads_analyse hconfig).of_run h hw).disk
  have hfails : ∀ e v, r.analyse.runIn w = (.error e, v) → r.run.runIn w = (.error e, v) :=
    fun e v h => Action.runIn_bind_of_error h
  refine ⟨fun hdry => ?_, fun e v h => ⟨hfails e v h, hsame _ v h⟩⟩
  rcases hanalyse : r.analyse.runIn w with ⟨result, v⟩
  cases result with
  | error e => rw [hfails e v hanalyse, hsame _ v hanalyse]
  | ok a =>
    obtain ⟨x, hrun⟩ := run_of_dry hdry hanalyse
    rw [hrun, hsame _ v hanalyse]

/-- The host on which the compiler is gone when the second pass asks for it. -/
def breakingHost : Host :=
  { accessHost with replies := accessHost.replies ++ [fun _ => .notFound] }

/-- How the analysis on this host ends: it fails, after three launches and with overlays made and
removed. -/
theorem analyse_breakingHost :
    (match accessRequest.analyse.runIn breakingHost with
      | (.error e, v) => some (e.message, v.launches.length, v.trace.isEmpty)
      | (.ok _, _) => none) =
    some ("Failed to run tsc: [Errno 2] No such file or directory: 'tsc'", 3, false) := by
  decide +kernel

/-- The second pass fails after the first one found an edit, and there is no trace of either. Nor is
there of a dry run that finds the edit. -/
theorem failing_pass_leaves_no_trace :
    breakingHost.WellFormed ∧ accessHost.WellFormed ∧ accessRequest.config.IsRead ∧
    ((run { accessRequest with dry := true }).runIn accessHost).2.disk = accessHost.disk ∧
    ∃ e v, accessRequest.run.runIn breakingHost = (.error e, v) ∧ v.launches.length = 3 ∧
      v.trace ≠ [] ∧ v.disk = breakingHost.disk := by
  have hbreaking : breakingHost.WellFormed := ⟨by decide, fun _ h => nomatch h⟩
  have haccess : accessHost.WellFormed := ⟨by decide, fun _ h => nomatch h⟩
  have hconfig : accessRequest.config.IsRead := Path.isRead_ofString "/p"
  refine ⟨hbreaking, haccess, hconfig, ?_, ?_⟩
  · exact (analysis_leaves_no_trace (r := { accessRequest with dry := true }) haccess hconfig).1 rfl
  · have hfails := analyse_breakingHost
    rcases hanalyse : accessRequest.analyse.runIn breakingHost with ⟨result, v⟩
    rw [hanalyse] at hfails
    cases result with
    | ok a => cases hfails
    | error e =>
      obtain ⟨-, hlaunches, htrace⟩ := Prod.mk.inj (Option.some.inj hfails) |>.imp_right Prod.mk.inj
      obtain ⟨hrun, hdisk⟩ := (analysis_leaves_no_trace hbreaking hconfig).2 e v hanalyse
      refine ⟨e, v, hrun, hlaunches, fun hnil => ?_, hdisk⟩
      rw [hnil] at htrace
      cases htrace

/-! ## 2. Live runs -/

/-- What a live run with changes did before it wrote the new texts: the originals of the changed
files are saved in a complete backup, and all else is as it was. -/
structure Committed (project : Location) (name stamp : String) (changed : Dict (Text × Text))
    (target : String → Location) (w v : Host) : Prop where
  descends : Path.Descends project
  saved : Backup.Saved project (Backup.storeAt project ++ [name]) w v
  complete : Backup.IsComplete (Backup.storeAt project ++ [name]) stamp
    (Backup.sorted (changed.mapValues Prod.fst)) v.disk
  files : ∀ file old new, (file, (old, new)) ∈ changed →
    w.HasFile file (target file) (Utf8.encode old)
  names : ∀ file ∈ changed.keys, (Path.ofString file).render = file

namespace Committed

variable {project : Location} {name stamp : String} {changed : Dict (Text × Text)}
  {target : String → Location} {w v : Host}

theorem mem_originals {file : String} {text : Text} :
    (file, text) ∈ Backup.sorted (changed.mapValues Prod.fst) ↔
      ∃ new, (file, (text, new)) ∈ changed := by
  rw [Backup.mem_sorted]
  constructor
  · intro hmem
    obtain ⟨⟨other, old, new⟩, hentry, heq⟩ := List.mem_map.mp hmem
    cases heq
    exact ⟨new, hentry⟩
  · rintro ⟨new, hentry⟩
    exact List.mem_map.mpr ⟨_, hentry, rfl⟩

theorem mem_keys_originals {file : String} :
    file ∈ (Backup.sorted (changed.mapValues Prod.fst)).keys ↔ file ∈ changed.keys := by
  rw [Backup.keys_sorted, List.mem_mergeSort, Dict.keys_mapValues]

theorem exists_file (h : Committed project name stamp changed target w v) {file : String}
    (hfile : file ∈ changed.keys) : ∃ content, w.HasFile file (target file) content := by
  obtain ⟨⟨other, old, new⟩, hentry, rfl⟩ := List.mem_map.mp hfile
  exact ⟨_, h.files other old new hentry⟩

theorem targets (h : Committed project name stamp changed target w v) :
    v.Targets target changed.keys := by
  intro file hfile
  obtain ⟨content, hcontent⟩ := h.exists_file hfile
  exact ⟨content, h.saved.hasFile hcontent⟩

theorem not_near (h : Committed project name stamp changed target w v) :
    ∀ file ∈ changed.keys, ¬Backup.Near (Backup.storeAt project ++ [name]) (target file) := by
  intro file hfile
  obtain ⟨content, hcontent⟩ := h.exists_file hfile
  exact h.saved.not_near h.complete.directory hcontent

/-- The host after the new texts were written. -/
def written (changed : Dict (Text × Text)) (target : String → Location) (v : Host) : Host :=
  v.afterWrites target (changed.mapValues Prod.snd)

theorem targets_written (h : Committed project name stamp changed target w v) :
    v.Targets target (changed.mapValues Prod.snd).keys := by
  rw [Dict.keys_mapValues]
  exact h.targets

/-- Writing the new texts does not touch the backup. -/
theorem spares_writes (h : Committed project name stamp changed target w v) :
    v.Spares (Backup.Near (Backup.storeAt project ++ [name])) (written changed target v) := by
  refine Host.spares_afterWrites fun file hfile => ?_
  rw [Dict.keys_mapValues] at hfile
  exact h.not_near file hfile

/-- A complete backup can be undone where the changed files are files at their places. -/
theorem restorable_of_complete (h : Committed project name stamp changed target w v) {u : Host}
    (hcomplete : Backup.IsComplete (Backup.storeAt project ++ [name]) stamp
      (Backup.sorted (changed.mapValues Prod.fst)) u.disk)
    (htargets : u.Targets target changed.keys) :
    Backup.Restorable (Backup.storeAt project ++ [name]) stamp
      (Backup.sorted (changed.mapValues Prod.fst)) target u where
  complete := hcomplete
  names file hfile := h.names file (mem_keys_originals.mp hfile)
  targets file hfile := htargets file (mem_keys_originals.mp hfile)
  off file hfile := h.not_near file (mem_keys_originals.mp hfile)

/-- After the new texts are written, the backup can be undone. -/
theorem restorable (h : Committed project name stamp changed target w v) :
    Backup.Restorable (Backup.storeAt project ++ [name]) stamp
      (Backup.sorted (changed.mapValues Prod.fst)) target (written changed target v) :=
  h.restorable_of_complete (h.complete.mono fun _ hat => h.spares_writes.get? hat)
    (h.targets.afterWrites h.targets_written)

end Committed

/-- Every changed file is a file of the project that can be read and written. -/
theorem IsAnalysed.exists_target {r : FixRequest} {w : Host} {a : Analysed} (h : r.IsAnalysed w a)
    (hw : w.WellFormed) (hconfig : r.config.IsRead) :
    ∃ target : String → Location,
      (∀ file old new, (file, (old, new)) ∈ a.changed →
        w.HasFile file (target file) (Utf8.encode old)) ∧
      ∀ file ∈ a.changed.keys, (Path.ofString file).render = file := by
  have hread : ∀ file ∈ a.changed.keys, file ∈ a.project.roots ∧
      ∃ at_, ∀ old new, (file, (old, new)) ∈ a.changed → w.HasFile file at_ (Utf8.encode old) := by
    intro file hfile
    obtain ⟨⟨file, old, new⟩, hentry, rfl⟩ := List.mem_map.mp hfile
    have hchange := Dict.get?_of_mem h.nodup_changed hentry
    have hsource := ((h.get?_changed file old new).mp hchange).1
    obtain ⟨hroot, -, htext⟩ := (h.sources file old).mp hsource
    obtain ⟨at_, hat⟩ := Host.hasFile_of_text? (h.noNull file old hsource) htext
    refine ⟨hroot, at_, fun other now hother => ?_⟩
    cases hchange.symm.trans (Dict.get?_of_mem h.nodup_changed hother)
    exact hat
  choose! hroot target htarget using hread
  obtain ⟨v, hload⟩ := h.loaded
  refine ⟨target, fun file old new hentry => ?_, fun file hfile => ?_⟩
  · exact htarget file (Dict.mem_keys_of_mem hentry) old new hentry
  · exact Project.render_of_mem_roots hw hconfig hload file (hroot file hfile)

/-- Changes are put on the disk by saving the originals first. -/
theorem commit_of_live {r : FixRequest} (hlive : r.dry = false) (hbackup : r.backup = true)
    (project : Project) {changed : Dict (Text × Text)} (hne : changed ≠ []) :
    r.commit project changed = (do
      let session ← Backup.save project.directory (changed.mapValues Prod.fst)
      Project.writeSources (changed.mapValues Prod.snd)
      pure (some session)) := by
  have hsome : changed.isEmpty = false := List.isEmpty_eq_false_iff.mpr hne
  unfold commit
  rw [hlive, hbackup, hsome]
  simp only [Bool.or_false, Bool.false_eq_true, if_false, if_true, map_eq_pure_bind, bind_assoc,
    pure_bind]

section

variable {r : FixRequest} {project : Project} {parts : Location} {changed : Dict (Text × Text)}
  {target : String → Location} {w : Host}

/-- When the originals are saved, the new texts are written. -/
theorem commit_of_save (hlive : r.dry = false) (hbackup : r.backup = true)
    (hdirectory : project.directory = ⟨.root, parts⟩) (hparts : Path.Descends parts)
    (hne : changed ≠ []) (hw : w.disk.IsTree)
    (hfiles : ∀ file old new, (file, (old, new)) ∈ changed →
      w.HasFile file (target file) (Utf8.encode old))
    (hnames : ∀ file ∈ changed.keys, (Path.ofString file).render = file) {p : Path} {u : Host}
    (hsave : (Backup.save ⟨.root, parts⟩ (changed.mapValues Prod.fst)).runIn w = (.ok p, u)) :
    ∃ name stamp, p = ⟨.root, Backup.storeAt parts ++ [name]⟩ ∧
      Committed parts name stamp changed target w u ∧
      (r.commit project changed).runIn w = (.ok (some p), Committed.written changed target u) := by
  obtain ⟨k, hp, hsaved, hcomplete⟩ := Backup.save_complete hparts hw hsave
  have hcommitted : Committed parts (Backup.sessionName w.clock.stamp k) w.clock.stamp changed
      target w u := ⟨hparts, hsaved, hcomplete, hfiles, hnames⟩
  refine ⟨_, _, hp, hcommitted, ?_⟩
  rw [commit_of_live hlive hbackup project hne, hdirectory]
  exact (Action.runIn_bind_of_ok hsave).trans
    (Action.runIn_bind_of_ok (Project.runIn_writeSources hcommitted.targets_written))

/-- Saving the originals and writing the new texts fails only while it saves. -/
theorem commit_cases (hlive : r.dry = false) (hbackup : r.backup = true)
    (hdirectory : project.directory = ⟨.root, parts⟩) (hparts : Path.Descends parts)
    (hne : changed ≠ []) (hw : w.disk.IsTree)
    (hfiles : ∀ file old new, (file, (old, new)) ∈ changed →
      w.HasFile file (target file) (Utf8.encode old))
    (hnames : ∀ file ∈ changed.keys, (Path.ofString file).render = file) :
    (∃ e w', (r.commit project changed).runIn w = (.error e, w') ∧ w.Grows w') ∨
    ∃ name stamp u, Committed parts name stamp changed target w u ∧
      (r.commit project changed).runIn w = (.ok (some ⟨.root, Backup.storeAt parts ++ [name]⟩),
        Committed.written changed target u) := by
  rcases hsave : (Backup.save ⟨.root, parts⟩ (changed.mapValues Prod.fst)).runIn w with ⟨saved, u⟩
  cases saved with
  | error e =>
    have hgrows := Backup.grows_save hparts (changed.mapValues Prod.fst) hw
    rw [hsave] at hgrows
    rw [commit_of_live hlive hbackup project hne, hdirectory]
    exact Or.inl ⟨e, u, Action.runIn_bind_of_error hsave, hgrows⟩
  | ok p =>
    obtain ⟨name, stamp, rfl, hcommitted, hcommit⟩ :=
      commit_of_save hlive hbackup hdirectory hparts hne hw hfiles hnames hsave
    exact Or.inr ⟨name, stamp, u, hcommitted, hcommit⟩

end

theorem Committed.of_sameDisk {project : Location} {name stamp : String}
    {changed : Dict (Text × Text)} {target : String → Location} {w v u : Host}
    (hsame : w.SameDisk v) (hgrows : w.Grows v)
    (h : Committed project name stamp changed target v u)
    (hfiles : ∀ file old new, (file, (old, new)) ∈ changed →
      w.HasFile file (target file) (Utf8.encode old)) :
    Committed project name stamp changed target w u where
  descends := h.descends
  saved := h.saved.of_sameDisk hsame hgrows
  complete := h.complete
  files := hfiles
  names := h.names

/-- How a live run with a backup can end. It fails, and has touched nothing that was there. It finds
no changes, and has touched nothing that was there. Or it saves the originals and writes the new
texts. -/
theorem run_cases {r : FixRequest} {w w₁ : Host} {result : Except Failure FixResult}
    (hw : w.WellFormed) (hconfig : r.config.IsRead) (hlive : r.dry = false)
    (hbackup : r.backup = true) (h : r.run.runIn w = (result, w₁)) :
    (∃ e, result = .error e ∧ w.Grows w₁) ∨
    ∃ y project parts v, result = .ok y ∧
      (Project.load r.config r.choice).runIn w = (.ok project, v) ∧
      project.directory = ⟨.root, parts⟩ ∧
      (y.changed = [] ∧ y.backup = none ∧ w.Grows w₁ ∨
      ∃ name stamp target u, y.changed ≠ [] ∧
        y.backup = some ⟨.root, Backup.storeAt parts ++ [name]⟩ ∧
        Committed parts name stamp y.changed target w u ∧
        w₁ = Committed.written y.changed target u) := by
  unfold run at h
  rcases hanalyse : r.analyse.runIn w with ⟨analysed, v⟩
  obtain ⟨hsame, hgrows⟩ := (cleansUp_analyse hconfig).of_run hanalyse hw
  cases analysed with
  | error e =>
    cases (Action.runIn_bind_of_error hanalyse).symm.trans h
    exact Or.inl ⟨e, rfl, hgrows⟩
  | ok a =>
    have ha := analyse_eq_ok hanalyse
    rw [Action.runIn_bind_of_ok hanalyse] at h
    obtain ⟨v', hload⟩ := ha.loaded
    obtain ⟨parts, hparts, hdirectory⟩ := Project.load_eq_ok hw hconfig hload
    by_cases hne : a.changed = []
    · have hcommit : (r.commit a.project a.changed).runIn v = (.ok none, v) := by
        unfold commit
        rw [hne]
        rfl
      cases (Action.runIn_bind_of_ok hcommit).symm.trans h
      exact Or.inr ⟨_, a.project, parts, v', rfl, hload, hdirectory, Or.inl ⟨hne, rfl, hgrows⟩⟩
    · obtain ⟨target, hfiles, hnames⟩ := ha.exists_target hw hconfig
      have hfiles' : ∀ file old new, (file, (old, new)) ∈ a.changed →
          v.HasFile file (target file) (Utf8.encode old) := fun file old new hentry =>
        (hfiles file old new hentry).of_sameDisk hsame
      rcases commit_cases hlive hbackup hdirectory hparts hne (hw.of_sameDisk hsame).tree hfiles'
        hnames with ⟨e, w', hcommit, hmore⟩ | ⟨name, stamp, u, hcommitted, hcommit⟩
      · cases (Action.runIn_bind_of_error hcommit).symm.trans h
        exact Or.inl ⟨e, rfl, Host.isFrame_grows.trans hgrows hmore⟩
      · cases (Action.runIn_bind_of_ok hcommit).symm.trans h
        exact Or.inr ⟨_, a.project, parts, v', rfl, hload, hdirectory, Or.inr ⟨name, stamp, target,
          u, hne, rfl, hcommitted.of_sameDisk hsame hgrows hfiles, rfl⟩⟩

/-! ## 3. Every instant -/

/-- The originals of the changed files are at hand: every one of these files holds what it held at
the start, or a backup of the project has a manifest that gives for each of them a file which holds
that. -/
def Recoverable (w : Host) (project : Path) (changed : Dict (Text × Text)) (disk : Disk) : Prop :=
  (∀ file ∈ changed.keys, disk.read w.cwd file = w.disk.read w.cwd file) ∨
  ∃ session found, session.parent = Backup.store project ∧
    ((Backup.entries session).runIn { w with disk }).1 = .ok found ∧
    ∀ file ∈ changed.keys, ∃ entry ∈ found, entry.file.render = file ∧
      disk.read w.cwd entry.backup.render = w.disk.read w.cwd file

/-- What could be read stays readable while nothing that was there is touched. -/
theorem read_of_grows {w : Host} {disk : Disk}
    (hsame : ∀ at_, w.disk.has at_ = true → disk.get? at_ = w.disk.get? at_) {name : String}
    {content : Bytes} (h : w.disk.read w.cwd name = .ok content) :
    disk.read w.cwd name = .ok content := by
  refine Disk.read_mono (fun at_ hdir => ?_) h fun at_ hfile => ?_
  · rw [hsame at_ (Disk.has_of_get? hdir), hdir]
  · rw [hsame at_ (Disk.has_of_get? hfile), hfile]

namespace Committed

variable {project : Location} {name stamp : String} {changed : Dict (Text × Text)}
  {target : String → Location} {w v : Host}

theorem recoverable_of_complete (h : Committed project name stamp changed target w v) {disk : Disk}
    (hcomplete : Backup.IsComplete (Backup.storeAt project ++ [name]) stamp
      (Backup.sorted (changed.mapValues Prod.fst)) disk) :
    Recoverable w ⟨.root, project⟩ changed disk := by
  have hparent : Path.parent ⟨.root, Backup.storeAt project ++ [name]⟩ =
      Backup.store ⟨.root, project⟩ := by
    unfold Path.parent
    rw [List.dropLast_concat]
    rfl
  have hentries := Backup.runIn_entries (w := { w with disk }) hcomplete
  refine Or.inr ⟨_, _, hparent, congrArg Prod.fst hentries, fun file hfile => ?_⟩
  obtain ⟨⟨file, old, new⟩, hchange, rfl⟩ := List.mem_map.mp hfile
  obtain ⟨i, hi⟩ := List.getElem?_of_mem (mem_originals.mpr ⟨new, hchange⟩)
  obtain ⟨hfits, hget⟩ := hcomplete.saved i file old hi
  refine ⟨_, Backup.mem_entriesFrom hi, h.names file hfile, ?_⟩
  have hsaved := Host.hasFile_render (w := { w with disk }) hfits
    (hcomplete.directory.opensTo _) hget
  rw [(h.files file old new hchange).read_eq]
  exact hsaved.read_eq

/-- While the originals are saved, the changed files still hold them. -/
theorem always_saving (h : Committed project name stamp changed target w v) :
    w.Always (fun disk => ∀ file ∈ changed.keys, disk.read w.cwd file = w.disk.read w.cwd file)
      v := by
  refine h.saved.grows.always fun disk hsame file hfile => ?_
  obtain ⟨content, hcontent⟩ := h.exists_file hfile
  rw [hcontent.read_eq]
  exact read_of_grows hsame hcontent.read_eq

/-- While files are written that do not lie near the backup, it has the originals. -/
theorem always_of_spares (h : Committed project name stamp changed target w v) {u u' : Host}
    (hcomplete : Backup.IsComplete (Backup.storeAt project ++ [name]) stamp
      (Backup.sorted (changed.mapValues Prod.fst)) u.disk)
    (hspares : u.Spares (Backup.Near (Backup.storeAt project ++ [name])) u') :
    u.Always (Recoverable w ⟨.root, project⟩ changed) u' :=
  hspares.always fun _ hsame => h.recoverable_of_complete (hcomplete.mono hsame)

/-- Every changed file holds its original again, once the originals are written back. -/
theorem hasFile_afterWrites (h : Committed project name stamp changed target w v) {u : Host}
    (hu : Backup.Restorable (Backup.storeAt project ++ [name]) stamp
      (Backup.sorted (changed.mapValues Prod.fst)) target u) {file : String} {old new : Text}
    (hchange : (file, (old, new)) ∈ changed) :
    (u.afterWrites target (Backup.sorted (changed.mapValues Prod.fst))).HasFile file (target file)
      (Utf8.encode old) := by
  have hfile := h.files file old new hchange
  have hkey : file ∈ (Backup.sorted (changed.mapValues Prod.fst)).keys :=
    mem_keys_originals.mpr (Dict.mem_keys_of_mem hchange)
  obtain ⟨content, hcontent⟩ := hu.targets.afterWrites hu.targets file hkey
  have hget : (u.afterWrites target (Backup.sorted (changed.mapValues Prod.fst))).disk.get?
      (target file) = some (.file (Utf8.encode old)) := by
    refine Host.get?_afterWrites hfile.ne_nil (mem_originals.mpr ⟨new, hchange⟩) ?_
    intro other now hother hplace
    obtain ⟨new', hother⟩ := mem_originals.mp hother
    have hsame := (h.files other now new' hother).get?
    rw [hplace, hfile.get?, Option.some.injEq, Entry.file.injEq] at hsame
    exact hsame.symm
  exact hcontent.mono rfl (fun _ hdir => hdir) hget

/-- While the manifest is set aside, the changed files hold their originals again. The manifest is a
file and its other name is free, so no directory is at either place. -/
theorem always_setting_aside (h : Committed project name stamp changed target w v) {u : Host}
    (hcwd : u.cwd = w.cwd) (hu : Backup.Restorable (Backup.storeAt project ++ [name]) stamp
      (Backup.sorted (changed.mapValues Prod.fst)) target u) :
    (u.afterWrites target (Backup.sorted (changed.mapValues Prod.fst))).Always
      (Recoverable w ⟨.root, project⟩ changed)
      ((u.afterWrites target (Backup.sorted (changed.mapValues Prod.fst))).after
        [Backup.setAside (Backup.storeAt project ++ [name])]) := by
  have hcomplete := hu.complete_afterWrites
  have hspares : (u.afterWrites target (Backup.sorted (changed.mapValues Prod.fst))).Spares
      (fun at_ => at_ ≠ Backup.storeAt project ++ [name] ++ ["manifest.json"] ∧
        at_ ≠ Backup.storeAt project ++ [name] ++ ["manifest.restored.json"]) _ :=
    ⟨_, Host.performs_after _ [Backup.setAside (Backup.storeAt project ++ [name])],
      fun m hm at_ hat => by
        cases List.mem_singleton.mp hm
        exact Backup.spares_setAside hat.1 hat.2⟩
  refine hspares.always fun disk hsame => Or.inl fun file hfile => ?_
  obtain ⟨⟨file, old, new⟩, hchange, rfl⟩ := List.mem_map.mp hfile
  have hrestored := h.hasFile_afterWrites hu hchange
  have hkeeps : (u.afterWrites target (Backup.sorted (changed.mapValues Prod.fst))).disk
      |>.KeepsDirectories disk := by
    intro at_ hdir
    rw [hsame at_ ⟨?_, ?_⟩, hdir]
    · rintro rfl
      cases hcomplete.manifest.symm.trans hdir
    · rintro rfl
      cases hcomplete.notRestored.symm.trans hdir
  have hfar : ∀ last : String, target file ≠ Backup.storeAt project ++ [name] ++ [last] := by
    intro last heq
    exact h.not_near file (Dict.mem_keys_of_mem hchange) (Or.inr (heq ▸ List.prefix_append _ _))
  rw [(h.files file old new hchange).read_eq, ← hcwd]
  refine Disk.read_of_locate hrestored.noSlash (Disk.locate_mono hkeeps hrestored.located) ?_
  rw [hsame _ ⟨hfar _, hfar _⟩, hrestored.get?]

/-- The names in the directory of the backups can be names also with the new backup among them. -/
theorem isName_of_has (h : Committed project name stamp changed target w v) (hw : w.disk.Named)
    {other : String} (hhas : v.disk.has (Backup.storeAt project ++ [other]) = true) :
    Path.IsName other := by
  by_cases hother : other = name
  · subst hother
    exact h.complete.fits.names other (by simp)
  · have hkept := Backup.not_covers_of_ne hother
      (List.prefix_rfl : Backup.storeAt project ++ [other] <+: _)
    rw [Disk.has, h.saved.kept _ hkept] at hhas
    exact hw.of_has hhas other (by simp)

/-- While the run is undone, as far as that goes, the originals are at hand. The run may have been
stopped when only some of the files were written, with whatever texts. -/
theorem always_undoing (h : Committed project name stamp changed target w v)
    (hw : w.disk.IsTree) (hnamed : w.disk.Named) {texts : Files} (hkeys : texts.keys ⊆ changed.keys)
    {u : Host} (hsame : (v.afterWrites target texts).SameDisk u)
    (hnewest : Backup.IsNewest ⟨.root, Backup.storeAt project ++ [name]⟩ u.disk)
    {outcome : Except Failure (List Backup.Entry)} {w₂ : Host}
    (hundo : (Backup.undo ⟨.root, project⟩).runIn u = (outcome, w₂)) :
    u.Always (Recoverable w ⟨.root, project⟩ changed) w₂ := by
  have htexts : v.Targets target texts.keys := fun file hfile => h.targets file (hkeys hfile)
  have hcwd : u.cwd = w.cwd := hsame.cwd.trans h.saved.cwd
  have hspares : v.Spares (Backup.Near (Backup.storeAt project ++ [name])) _ :=
    Host.spares_afterWrites fun file hfile => h.not_near file (hkeys hfile)
  have hcomplete := hsame.disk ▸ h.complete.mono fun _ hat => hspares.get? hat
  have htargets : u.Targets target changed.keys := fun file hfile => by
    obtain ⟨content, hcontent⟩ := h.targets.afterWrites htexts file hfile
    exact ⟨content, hcontent.of_sameDisk hsame⟩
  have hu := h.restorable_of_complete hcomplete htargets
  have hnames : ∀ other, u.disk.has (Backup.storeAt project ++ [other]) = true →
      Path.Descends [other] := fun other hhas => by
    rw [hsame.disk, htexts.has_afterWrites] at hhas
    exact (h.isName_of_has hnamed hhas).descends
  have htree : u.disk.IsTree := by
    rw [hsame.disk]
    exact htexts.isTree_afterWrites (h.saved.isTree hw)
  have hback := h.always_of_spares hcomplete hu.spares
  rcases Backup.undo_cases h.descends htree hnames hu (Backup.isNewest_iff.mp hnewest) hundo with
    hquiet | rfl | rfl
  · exact h.always_of_spares hcomplete (hquiet.spares _)
  · exact hback
  · exact hback.trans (h.always_setting_aside hcwd hu)

end Committed

end FixRequest

/-- The disk of the host is as file systems have it: a tree, in which no place has two entries and
all names are within the limits. -/
structure Host.Sound (w : Host) : Prop extends WellFormed w where
  distinct : w.disk.Distinct
  named : w.disk.Named

namespace FixRequest

/-- Originals can be recovered at every instant. A live run with a backup that fails leaves every
file that could be read, at every instant. One that succeeds leaves the originals of the changed
files at hand at every instant, and so does undoing it, however that ends, if the new backup has the
greatest name of all with a manifest. -/
theorem originals_recoverable_at_every_instant {r : FixRequest} {w w₁ : Host}
    {result : Except Failure FixResult} (hw : w.Sound) (hconfig : r.config.IsRead)
    (hlive : r.dry = false) (hbackup : r.backup = true) (hrun : r.run.runIn w = (result, w₁)) :
    (∀ e, result = .error e → w.Always (fun disk => ∀ file content,
      w.disk.read w.cwd file = .ok content → disk.read w.cwd file = .ok content) w₁) ∧
    ∀ y, result = .ok y → ∃ project v,
      (Project.load r.config r.choice).runIn w = (.ok project, v) ∧
      (∀ file old new, y.changed.get? file = some (old, new) →
        w.disk.read w.cwd file = .ok (Utf8.encode old)) ∧
      w.Always (Recoverable w project.directory y.changed) w₁ ∧
      ∀ session, y.backup = some session → Backup.IsNewest session w₁.disk → ∀ outcome w₂,
        (Backup.undo project.directory).runIn w₁ = (outcome, w₂) →
        w.Always (Recoverable w project.directory y.changed) w₂ := by
  rcases run_cases hw.toWellFormed hconfig hlive hbackup hrun with
    ⟨e, rfl, hgrows⟩ | ⟨y, project, parts, v, rfl, hload, hdirectory, hend⟩
  · refine ⟨fun _ _ => hgrows.always fun disk hsame file content => read_of_grows hsame, ?_⟩
    exact fun y hy => nomatch hy
  · refine ⟨(fun e he => nomatch he), fun y' hy => ?_⟩
    cases hy
    refine ⟨project, v, hload, ?_⟩
    rw [hdirectory]
    rcases hend with ⟨hnone, hbackup, hgrows⟩ | ⟨name, stamp, target, u, hne, hsession, h, rfl⟩
    · rw [hnone, hbackup]
      refine ⟨(fun _ _ _ hget => nomatch hget), ?_, fun _ hsession => nomatch hsession⟩
      exact hgrows.always fun disk _ => Or.inl fun file hfile => nomatch hfile
    · have hrun := (h.always_saving.mono fun _ => .inl).trans
        (h.always_of_spares h.complete h.spares_writes)
      refine ⟨fun file old new hget => ?_, hrun, fun session hsome hnewest outcome w₂ hundo => ?_⟩
      · exact (h.files file old new (Dict.mem_of_get? hget)).read_eq
      · cases hsession.symm.trans hsome
        refine hrun.trans (h.always_undoing hw.tree hw.named ?_ ⟨rfl, rfl⟩ hnewest hundo)
        rw [Dict.keys_mapValues]
        exact List.Subset.refl _

/-- The request to fix the project, with a complaint about `a` that does not come from the
compiler. -/
def keptRequest : FixRequest :=
  { accessRequest with
    analysis := .custom fun
      | 0, _ => [{ code := 2532, file := some "/p/m.ts", offset := some 0 }]
      | _ + 1, _ => [] }

/-- The host with the project of two files and an older backup of it. -/
def keptHost : Host :=
  { accessHost with
    disk := accessHost.disk ++ [(["p", ".chainfix"], .directory),
      (["p", ".chainfix", "backups"], .directory),
      (["p", ".chainfix", "backups", "2023-12-31T00-00-00"], .directory),
      (["p", ".chainfix", "backups", "2023-12-31T00-00-00", "manifest.json"],
        .file (Utf8.encode "[]".toList))] }

theorem sound_keptHost : keptHost.Sound where
  tree := by decide
  cwd := fun _ h => nomatch h
  distinct := by decide
  named := by decide

/-- The place of the backup that is made on this host. -/
def keptSession : Location :=
  ["p", ".chainfix", "backups", "2024-01-01T00-00-00"]

def keptPlaces : List Location :=
  keptHost.disk.map Prod.fst ++
    [keptSession, keptSession ++ ["0000-m.ts.bak"], keptSession ++ ["manifest.json"]]

theorem result_keptHost :
    (keptRequest.run.runIn keptHost).1.map (fun y => (y.changed, y.backup)) =
      .ok ([("/p/m.ts", ("a.b;".toList, "a?.b;".toList))], some ⟨.root, keptSession⟩) := by
  decide +kernel

theorem places_keptHost :
    (keptRequest.run.runIn keptHost).2.disk.map Prod.fst = keptPlaces := by
  decide +kernel

theorem exists_run_keptHost : ∃ y w, keptRequest.run.runIn keptHost = (.ok y, w) ∧
    y.changed = [("/p/m.ts", ("a.b;".toList, "a?.b;".toList))] ∧
    y.backup = some ⟨.root, keptSession⟩ ∧ w.disk.map Prod.fst = keptPlaces := by
  have hresult := result_keptHost
  have hplaces := places_keptHost
  rcases hrun : keptRequest.run.runIn keptHost with ⟨result, w⟩
  rw [hrun] at hresult hplaces
  cases result with
  | error e => cases hresult
  | ok y =>
    obtain ⟨hchanged, hbackup⟩ := Prod.mk.inj (Except.ok.inj hresult)
    exact ⟨y, w, rfl, hchanged, hbackup, hplaces⟩

theorem directory_keptRequest {project : Project} {w : Host}
    (h : (Project.load keptRequest.config keptRequest.choice).runIn keptHost = (.ok project, w)) :
    project.directory = ⟨.root, ["p"]⟩ := by
  have hdirectory : ((Project.load keptRequest.config keptRequest.choice).runIn keptHost).1.map
      Project.directory = .ok ⟨.root, ["p"]⟩ := by
    decide +kernel
  rw [h] at hdirectory
  exact Except.ok.inj hdirectory

theorem isNewest_keptSession {disk : Disk} (h : disk.map Prod.fst = keptPlaces) :
    Backup.IsNewest ⟨.root, keptSession⟩ disk := by
  intro name hhas
  have hmem := Disk.mem_places_of_has hhas (List.append_ne_nil_of_right_ne_nil _ (by simp))
  rw [h] at hmem
  simp [keptPlaces, keptHost, accessHost, keptSession, Path.parent] at hmem
  rcases hmem with rfl | rfl <;> decide

/-- The originals are at hand while the run on this host is made and undone. -/
theorem kept_originals_recoverable :
    keptHost.Sound ∧ keptRequest.config.IsRead ∧ keptRequest.dry = false ∧
    keptRequest.backup = true ∧ ∃ y w₁ w₂ outcome,
      keptRequest.run.runIn keptHost = (.ok y, w₁) ∧
      y.changed = [("/p/m.ts", ("a.b;".toList, "a?.b;".toList))] ∧
      y.backup = some ⟨.root, keptSession⟩ ∧ Backup.IsNewest ⟨.root, keptSession⟩ w₁.disk ∧
      (Backup.undo ⟨.root, ["p"]⟩).runIn w₁ = (outcome, w₂) ∧
      keptHost.Always (Recoverable keptHost ⟨.root, ["p"]⟩ y.changed) w₂ := by
  have hw := sound_keptHost
  have hconfig : keptRequest.config.IsRead := Path.isRead_ofString "/p"
  obtain ⟨y, w₁, hrun, hchanged, hbackup, hplaces⟩ := exists_run_keptHost
  have hnewest := isNewest_keptSession hplaces
  obtain ⟨-, hok⟩ := originals_recoverable_at_every_instant hw hconfig rfl rfl hrun
  obtain ⟨project, v, hload, -, -, hundo⟩ := hok y rfl
  rw [directory_keptRequest hload] at hundo
  exact ⟨hw, hconfig, rfl, rfl, y, w₁, _, _, hrun, hchanged, hbackup, hnewest, rfl,
    hundo _ hbackup hnewest _ _ rfl⟩

/-- A run that is stopped can be undone. At every instant of a live run with a backup the changed
files hold their originals, or undoing may start there: while it goes on, however that ends, the
originals are at hand, if the new backup has the greatest name of all with a manifest. -/
theorem stopped_run_can_be_undone {r : FixRequest} {w w₁ : Host} {y : FixResult} (hw : w.Sound)
    (hconfig : r.config.IsRead) (hlive : r.dry = false) (hbackup : r.backup = true)
    (hrun : r.run.runIn w = (.ok y, w₁)) {session : Path} (hsession : y.backup = some session) :
    ∃ project v, (Project.load r.config r.choice).runIn w = (.ok project, v) ∧
      w.Always (fun disk =>
        (∀ file ∈ y.changed.keys, disk.read w.cwd file = w.disk.read w.cwd file) ∨
        ∀ u : Host, u.disk = disk → u.cwd = w.cwd → Backup.IsNewest session disk →
          ∀ outcome w₂, (Backup.undo project.directory).runIn u = (outcome, w₂) →
            u.Always (Recoverable w project.directory y.changed) w₂) w₁ := by
  rcases run_cases hw.toWellFormed hconfig hlive hbackup hrun with
    ⟨e, he, -⟩ | ⟨y', project, parts, v, hy, hload, hdirectory, hend⟩
  · cases he
  cases hy
  refine ⟨project, v, hload, ?_⟩
  rw [hdirectory]
  rcases hend with ⟨-, hnone, -⟩ | ⟨name, stamp, target, u, -, hnew, h, rfl⟩
  · cases hnone.symm.trans hsession
  cases hnew.symm.trans hsession
  refine (h.always_saving.mono fun _ => .inl).trans (Host.always_afterWrites fun texts hkeys => ?_)
  refine .inr fun stopped hdisk hcwd hnewest outcome w₂ hundo => ?_
  rw [Dict.keys_mapValues] at hkeys
  exact h.always_undoing hw.tree hw.named hkeys ⟨hdisk, hcwd.trans h.saved.cwd.symm⟩
    (hdisk ▸ hnewest) hundo

end FixRequest

end ChainGuard
