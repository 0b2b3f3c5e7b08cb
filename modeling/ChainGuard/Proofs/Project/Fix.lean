import ChainGuard.Project.Fix
import ChainGuard.Proofs.Backup
import ChainGuard.Proofs.Project
import ChainGuard.Proofs.Session

/-!
# What fixing a project leaves on the disk

Analysing a request leaves the disk as it was, whatever comes of it. So all that a live run leaves
behind comes from its last two steps: saving the texts that change and writing the new ones. A dry
run of the same request reports exactly these changes.

1. `Toolchain.Leads`, `Session.leads_run`: a session does to the host what its tools do.
2. `FixRequest.leads_analyse`: analysing leaves the disk alone. `FixRequest.analyse_eq_ok`: the
   files that are read, and the session over them.
3. `FixRequest.get?_changes`: the changes that are reported.
4. `Host.Receives`: the disk with the changes on it. Main statement:
   `FixRequest.live_run_writes_what_dry_run_reports`.
-/

namespace ChainGuard

open ChainGuard.Action (IsFrame Leads)

/-! ## 1. Sessions on a host -/

/-- Every use of the tools brings the relation about. -/
structure Toolchain.Leads (R : Host → Host → Prop) (tools : Toolchain Action) : Prop where
  collect : ∀ files roots config, Action.Leads R (tools.collect files roots config)
  parse : ∀ name text, Action.Leads R (tools.parse name text)
  note : ∀ progress, Action.Leads R (tools.note progress)

namespace Session

variable {R : Host → Host → Prop} {tools : Toolchain Action}

theorem leads_parseAll (hR : IsFrame R) (htools : tools.Leads R) (files : List (String × Text)) :
    Leads R (parseAll tools files) := by
  induction files with
  | nil => exact .pure hR _
  | cons entry rest ih =>
    exact .bind hR (htools.parse _ _) fun _ => .bind hR ih fun _ => .pure hR _

theorem leads_noteAll (hR : IsFrame R) (htools : tools.Leads R) (sites : List Site) :
    Leads R (noteAll tools sites) := by
  induction sites with
  | nil => exact .pure hR _
  | cons site rest ih => exact .bind hR (htools.note _) fun _ => ih

theorem leads_runFrom (hR : IsFrame R) (htools : tools.Leads R) (roots : List String)
    (config : CompilerConfig) (left number : Nat) (s : Session) :
    Leads R (runFrom tools roots config left number s) := by
  induction left generalizing number s with
  | zero => exact .pure hR _
  | succ left ih =>
    refine .bind hR (htools.collect _ _ _) fun found => ?_
    refine .ite (.bind hR (htools.note _) fun _ => .pure hR _) ?_
    refine .bind hR (leads_parseAll hR htools _) fun trees => ?_
    refine .bind hR (leads_noteAll hR htools _) fun _ => ?_
    refine .bind hR (htools.note _) fun _ => ?_
    exact .ite (.pure hR _) (ih _ _)

/-- A session does to the host what its tools do. -/
theorem leads_run (hR : IsFrame R) (htools : tools.Leads R) (roots : List String)
    (config : CompilerConfig) (s : Session) : Leads R (run tools roots config s) :=
  leads_runFrom hR htools roots config _ 1 s

/-- What one pass brings about, a run that succeeds brings about. -/
theorem rel_of_run_eq_ok {R : Session → Session → Prop} (refl : ∀ s, R s s)
    (trans : ∀ {a b c}, R a b → R b c → R a c)
    (pass : ∀ s number trees sites, R s (s.record (Pass.run number s.files trees sites)))
    {roots : List String} {config : CompilerConfig} {s s' : Session} {w w' : Host}
    (h : (run tools roots config s).runIn w = (.ok s', w')) : R s s' := by
  have hrun := satisfiesM_run refl trans pass tools roots config s
  rw [SatisfiesM_ExceptT_eq, SatisfiesM_StateT_eq] at hrun
  have hstate := hrun w
  rw [SatisfiesM_Id_eq] at hstate
  exact hstate s' (congrArg Prod.fst h)

end Session

namespace FixRequest

/-! ## 2. Analysing -/

theorem leads_tools (r : FixRequest) (project : Project) :
    Leads Host.Quiet (r.tools project) := by
  have hR := Action.isFrame_quiet
  unfold tools
  split
  · exact .bind hR (.lift hR _) fun _ => .pure hR _
  · exact .pure hR _

/-- The tools for a project at an absolute place leave the disk as it was. -/
theorem tools_eq_ok {r : FixRequest} {project : Project} {parts : List String}
    (hdirectory : project.directory = ⟨.root, parts⟩) (hparts : Path.Descends parts)
    {tools : Toolchain Action} {w w' : Host}
    (h : (r.tools project).runIn w = (.ok tools, w')) : tools.Leads Host.CleansUp := by
  have hR := Host.isFrame_cleansUp
  have hparse : ∀ name text, Leads Host.CleansUp (Action.parse name text) :=
    fun name text => .of_quiet hR (Action.leads_parse name text)
  have hnote : ∀ progress, Leads Host.CleansUp (Compiler.noteProgress progress) :=
    fun progress => .of_quiet hR (Compiler.leads_noteProgress progress)
  unfold FixRequest.tools at h
  split at h
  · obtain ⟨c, v, hc, hend⟩ := Action.runIn_bind_eq_ok h
    cases hend
    rw [Action.runIn_lift] at hc
    have hthere : c.directory = some ⟨.root, parts⟩ := by
      unfold Compiler.ofChoice at hc
      cases hcommand : r.choice.command? with
      | error e =>
        rw [hcommand] at hc
        cases hc
      | ok command =>
        rw [hcommand] at hc
        cases hc
        exact congrArg some hdirectory
    exact ⟨fun _ _ _ => Compiler.leads_collect hthere hparts _ _ _, hparse, hnote⟩
  · cases h
    exact ⟨fun _ _ _ => .of_quiet hR fun _ => ⟨⟨rfl, rfl⟩, rfl, rfl⟩, hparse, hnote⟩

/-- Analysing leaves the disk as it was and touches nothing that was there, whether it succeeds or
fails. -/
theorem cleansUp_analyse {r : FixRequest} (hconfig : r.config.IsRead) :
    Leads Host.CleansUp r.analyse := by
  have hR := Host.isFrame_cleansUp
  intro w hw
  refine Leads.bind_from hR (hR.quiet (Project.leads_load _ _ w)) (fun project v hload => ?_) hw
  obtain ⟨parts, hparts, hdirectory⟩ := Project.load_eq_ok hw hconfig hload
  refine Leads.bind hR (.of_quiet hR (Project.leads_select _ _)) (fun roots => ?_) v
  refine .bind hR (.of_quiet hR (Project.leads_readInto _ _)) fun sources => ?_
  refine .bind hR (.of_quiet hR (Action.leads_note _ _ _)) fun _ => fun u => ?_
  refine Leads.bind_from hR (hR.quiet (leads_tools r project u)) fun tools v htools => ?_
  have hrun := Session.leads_run hR (tools_eq_ok hdirectory hparts htools)
  exact Leads.bind hR (hrun _ _ _) (fun _ => .pure hR _) v

/-- Analysing leaves the disk as it was, whether it succeeds or fails. -/
theorem leads_analyse {r : FixRequest} (hconfig : r.config.IsRead) :
    Leads Host.Restores r.analyse :=
  fun w hw => (cleansUp_analyse hconfig w hw).1

/-- What a request that was analysed rests on: the project that was loaded, the texts of its files
as they lie on the disk, and a session over the same files. -/
structure IsAnalysed (r : FixRequest) (w : Host) (a : Analysed) : Prop where
  loaded : ∃ v, (Project.load r.config r.choice).runIn w = (.ok a.project, v)
  sources : ∀ name text, a.sources.get? name = some text ↔
    name ∈ a.project.roots ∧ Project.isBelow w.cwd r.directory name = true ∧
      w.text? name = some text
  noNull : ∀ name text, a.sources.get? name = some text → name.toList.contains '\x00' = false
  nodup : a.sources.keys.Nodup
  files : a.session.files.keys = a.sources.keys

theorem analyse_eq_ok {r : FixRequest} {w w' : Host} {a : Analysed}
    (h : r.analyse.runIn w = (.ok a, w')) : r.IsAnalysed w a := by
  obtain ⟨project, w₁, hload, h⟩ := Action.runIn_bind_eq_ok h
  obtain ⟨roots, w₂, hselect, h⟩ := Action.runIn_bind_eq_ok h
  obtain ⟨sources, w₃, hread, h⟩ := Action.runIn_bind_eq_ok h
  obtain ⟨⟨⟩, w₄, hnote, h⟩ := Action.runIn_bind_eq_ok h
  obtain ⟨tools, w₅, htools, h⟩ := Action.runIn_bind_eq_ok h
  obtain ⟨session, w₆, hsession, hend⟩ := Action.runIn_bind_eq_ok h
  cases hend
  have hsame₁ := (Project.leads_load _ _).of_run hload
  have hsame₂ := (Project.leads_select _ _).of_run hselect
  obtain ⟨n, -, grows⟩ := Session.rel_of_run_eq_ok Session.Grown.refl Session.Grown.trans
    Session.grown_record hsession
  refine ⟨⟨w₁, hload⟩, fun name text => ?_, fun name text htext => ?_, ?_, grows.keys_eq⟩
  · have hroots := Project.select_eq_ok hselect
    rw [Project.get?_readSources hread, hsame₂.text?_eq, hsame₁.text?_eq, hroots, hsame₁.cwd,
      List.mem_filter, and_assoc]
  · have hname := ((Project.get?_readSources hread name text).mp htext).1
    exact Project.noNull_of_readInto hread name hname
  · have hnone : (Dict.keys ([] : Files)).Nodup := List.nodup_nil
    exact Project.nodup_keys_readInto hnone hread

/-! ## 3. Changes -/

theorem changes_cons (before : Files) (name : String) (text : Text) (rest : Files) :
    changes before ((name, text) :: rest) =
      match before.get? name with
      | some old =>
        if old = text then changes before rest else (name, (old, text)) :: changes before rest
      | none => changes before rest := by
  unfold changes
  rw [List.filterMap_cons]
  dsimp only
  cases before.get? name with
  | none => rfl
  | some old => by_cases h : old = text <;> simp [h]

theorem mem_changes {before after : Files} {name : String} {old new : Text} :
    (name, (old, new)) ∈ changes before after ↔
      (name, new) ∈ after ∧ before.get? name = some old ∧ old ≠ new := by
  induction after with
  | nil => exact ⟨(fun h => nomatch h), fun h => nomatch h.1⟩
  | cons entry rest ih =>
    obtain ⟨other, text⟩ := entry
    rw [changes_cons]
    cases hold : before.get? other with
    | none => grind
    | some found => grind

theorem keys_changes_sublist (before after : Files) :
    (changes before after).keys.Sublist after.keys := by
  induction after with
  | nil => exact List.Sublist.refl _
  | cons entry rest ih =>
    obtain ⟨name, text⟩ := entry
    rw [changes_cons, Dict.keys_cons]
    split
    · split
      · exact ih.cons name
      · exact ih.cons_cons name
    · exact ih.cons name

namespace IsAnalysed

variable {r : FixRequest} {w : Host} {a : Analysed}

theorem nodup_changed (h : r.IsAnalysed w a) : a.changed.keys.Nodup := by
  have hfiles : a.session.files.keys.Nodup := h.files ▸ h.nodup
  exact hfiles.sublist (keys_changes_sublist _ _)

/-- The changes are the files that were read and have another text in the end. -/
theorem get?_changed (h : r.IsAnalysed w a) (name : String) (old new : Text) :
    a.changed.get? name = some (old, new) ↔
      a.sources.get? name = some old ∧ a.session.files.get? name = some new ∧ old ≠ new := by
  have hfiles : a.session.files.keys.Nodup := h.files ▸ h.nodup
  rw [Dict.get?_eq_some_iff_mem h.nodup_changed, Analysed.changed, mem_changes,
    ← Dict.get?_eq_some_iff_mem hfiles]
  exact and_left_comm

end IsAnalysed

end FixRequest

/-! ## 4. Changes on the disk -/

namespace Host

/-- Every changed file holds its new text as bytes. Nothing else differs, but for the places set
aside. -/
structure Receives (changed : Dict (Text × Text)) (aside : Location → Prop) (w w' : Host) :
    Prop where
  written : ∀ name old new, changed.get? name = some (old, new) → ∃ at_,
    w.disk.locate w.cwd name = .ok at_ ∧ ¬aside at_ ∧
      w'.disk.get? at_ = some (.file (Utf8.encode new))
  kept : ∀ at_, (∀ name ∈ changed.keys, w.disk.locate w.cwd name ≠ .ok at_) → ¬aside at_ →
    w'.disk.get? at_ = w.disk.get? at_

/-- The name stands for a file at the place. -/
def FileAt (w : Host) (name : String) (place : Location) : Prop :=
  w.disk.locate w.cwd name = .ok place ∧ ∃ content, w.disk.get? place = some (.file content)

/-- Names of changed files that stand for files at different places. -/
structure Apart (w : Host) (changed : Dict (Text × Text)) (place : String → Location) : Prop where
  nodup : changed.keys.Nodup
  files : ∀ name ∈ changed.keys, w.FileAt name (place name)
  inj : ∀ a ∈ changed.keys, ∀ b ∈ changed.keys, place a = place b → a = b

variable {changed : Dict (Text × Text)} {place : String → Location} {w v w' : Host}

theorem receives_nil (h : w.SameDisk w') (aside : Location → Prop) : w.Receives [] aside w' where
  written _ _ _ h := nomatch h
  kept _ _ _ := by rw [h.disk]

theorem Receives.of_sameDisk {aside : Location → Prop} (hsame : w.SameDisk v)
    (h : v.Receives changed aside w') : w.Receives changed aside w' := by
  obtain ⟨hwritten, hkept⟩ := h
  rw [hsame.disk, hsame.cwd] at hwritten hkept
  exact ⟨hwritten, hkept⟩

theorem Apart.of_sameDisk (hsame : w.SameDisk v) (h : w.Apart changed place) :
    v.Apart changed place := by
  refine ⟨h.nodup, fun name hname => ?_, h.inj⟩
  unfold FileAt
  rw [hsame.disk, hsame.cwd]
  exact h.files name hname

/-- Writing the new texts of files at different places. -/
theorem receives_writeSources (hapart : w.Apart changed place)
    (h : (Project.writeSources (changed.mapValues Prod.snd)).runIn w = (.ok (), w')) :
    w.Receives changed (fun _ => False) w' := by
  have hmem : ∀ entry ∈ changed.mapValues Prod.snd, entry.1 ∈ changed.keys := by
    intro entry hentry
    obtain ⟨⟨name, old, new⟩, hchange, rfl⟩ := List.mem_map.mp hentry
    exact Dict.mem_keys_of_mem hchange
  have hpairs : (changed.mapValues Prod.snd).Pairwise fun a b => place a.1 ≠ place b.1 := by
    have hkeys : changed.keys.Pairwise fun a b => place a ≠ place b :=
      hapart.nodup.imp_of_mem fun ha hb hne heq => hne (hapart.inj _ ha _ hb heq)
    rw [Dict.keys, List.pairwise_map] at hkeys
    rw [Dict.mapValues, List.pairwise_map]
    exact hkeys
  obtain ⟨hwritten, hkept⟩ :=
    Project.writeSources_eq_ok (fun entry hentry => hapart.files _ (hmem entry hentry)) hpairs h
  refine ⟨fun name old new hchange => ?_, fun at_ hother _ => hkept at_ fun entry hentry heq => ?_⟩
  · have hentry := Dict.mem_of_get? hchange
    refine ⟨place name, (hapart.files name (Dict.mem_keys_of_mem hentry)).1, id, ?_⟩
    exact hwritten (name, new) (List.mem_map.mpr ⟨_, hentry, rfl⟩)
  · have hkey := hmem entry hentry
    exact hother _ hkey (heq ▸ (hapart.files _ hkey).1)

/-- Files give way to files, so the directories stay. -/
theorem Receives.keepsDirectories (h : w.Receives changed (fun _ => False) w')
    (hapart : w.Apart changed place) : w.disk.KeepsDirectories w'.disk := by
  intro at_ hdir
  rw [h.kept at_ ?_ id, hdir]
  intro name hname hlocate
  obtain ⟨hthere, content, hcontent⟩ := hapart.files name hname
  rw [hlocate, Except.ok.injEq] at hthere
  rw [← hthere, hdir] at hcontent
  cases hcontent

end Host

namespace Backup

variable {project backup : Location} {changed : Dict (Text × Text)} {place : String → Location}
  {w v w' : Host}

theorem Saved.fileAt (h : Saved project backup w v) {name : String} {at_ : Location}
    (hfile : w.FileAt name at_) : v.FileAt name at_ := by
  obtain ⟨hlocate, content, hcontent⟩ := hfile
  have hoff : ¬Covers project backup at_ := fun hat => h.not_file hat content hcontent
  refine ⟨?_, content, by rw [h.kept at_ hoff, hcontent]⟩
  rw [h.cwd]
  exact Disk.locate_mono h.keepsDirectories hlocate

theorem Saved.apart (h : Saved project backup w v) (hapart : w.Apart changed place) :
    v.Apart changed place :=
  ⟨hapart.nodup, fun name hname => h.fileAt (hapart.files name hname), hapart.inj⟩

/-- Saving first and then writing the changes. -/
theorem Saved.receives (h : Saved project backup w v) (hapart : w.Apart changed place)
    (hwrite : v.Receives changed (fun _ => False) w') :
    w.Receives changed (Covers project backup) w' := by
  have hplace : ∀ name ∈ changed.keys, w.disk.locate w.cwd name = .ok (place name) ∧
      v.disk.locate v.cwd name = .ok (place name) :=
    fun name hname => ⟨(hapart.files name hname).1, (h.fileAt (hapart.files name hname)).1⟩
  refine ⟨fun name old new hchange => ?_, fun at_ hother hat => ?_⟩
  · have hname := Dict.mem_keys_of_get? hchange
    obtain ⟨hlocate, content, hcontent⟩ := hapart.files name hname
    refine ⟨place name, hlocate, fun hat => h.not_file hat content hcontent, ?_⟩
    obtain ⟨at_, hthere, -, hnew⟩ := hwrite.written name old new hchange
    rw [(hplace name hname).2, Except.ok.injEq] at hthere
    rw [hthere, hnew]
  · rw [hwrite.kept at_ ?_ id, h.kept at_ hat]
    intro name hname
    rw [(hplace name hname).2, ← (hplace name hname).1]
    exact hother name hname

end Backup

namespace FixRequest

/-- Different root files of the project that is loaded lie at different places. -/
def RootsApart (r : FixRequest) (w : Host) : Prop :=
  ∀ project w', (Project.load r.config r.choice).runIn w = (.ok project, w') →
    ∀ a ∈ project.roots, ∀ b ∈ project.roots, ∀ at_,
      w.disk.locate w.cwd a = .ok at_ → w.disk.locate w.cwd b = .ok at_ → a = b

/-- The changes are changes of files at different places. -/
theorem IsAnalysed.apart {r : FixRequest} {w : Host} {a : Analysed} (h : r.IsAnalysed w a)
    (hroots : r.RootsApart w) : ∃ place, w.Apart a.changed place := by
  have hread : ∀ name ∈ a.changed.keys, name ∈ a.project.roots ∧ ∃ at_, w.FileAt name at_ := by
    intro name hname
    obtain ⟨⟨name, old, new⟩, hchange, rfl⟩ := List.mem_map.mp hname
    have hsource := (h.get?_changed name old new).mp (Dict.get?_of_mem h.nodup_changed hchange)
    obtain ⟨hroot, -, htext⟩ := (h.sources name old).mp hsource.1
    obtain ⟨at_, content, hlocate, hcontent⟩ := Host.file_of_text? htext
    exact ⟨hroot, at_, hlocate, content, hcontent⟩
  choose! hroot place hplace using hread
  obtain ⟨v, hload⟩ := h.loaded
  refine ⟨place, h.nodup_changed, hplace, fun name hname other hother heq => ?_⟩
  exact hroots _ _ hload name (hroot name hname) other (hroot other hother) _ (hplace name hname).1
    (heq ▸ (hplace other hother).1)

/-- What a run reports is what was analysed. -/
structure Reports (a : Analysed) (x : FixResult) : Prop where
  totalChanges : x.totalChanges = a.session.totalChanges
  passes : x.passes = a.session.passesRun
  reports : x.reports = a.session.reports
  changed : x.changed = a.changed

/-- A run analyses the request and then puts the changes on the disk. -/
theorem run_eq_ok {r : FixRequest} {w w' : Host} {x : FixResult}
    (h : r.run.runIn w = (.ok x, w')) :
    ∃ a v, r.analyse.runIn w = (.ok a, v) ∧ Reports a x ∧
      (r.commit a.project a.changed).runIn v = (.ok x.backup, w') := by
  obtain ⟨a, v, hanalyse, h⟩ := Action.runIn_bind_eq_ok h
  obtain ⟨backup, u, hcommit, hend⟩ := Action.runIn_bind_eq_ok h
  cases hend
  exact ⟨a, v, hanalyse, ⟨rfl, rfl, rfl, rfl⟩, hcommit⟩

theorem commit_of_dry {r : FixRequest} (hdry : r.dry = true) (project : Project)
    (changed : Dict (Text × Text)) : r.commit project changed = pure none := by
  unfold commit
  rw [hdry, Bool.or_true]
  rfl

theorem run_of_dry {r : FixRequest} {w v : Host} {a : Analysed} (hdry : r.dry = true)
    (h : r.analyse.runIn w = (.ok a, v)) : ∃ x, r.run.runIn w = (.ok x, v) := by
  unfold run
  rw [Action.runIn_bind_of_ok h, commit_of_dry hdry]
  exact ⟨_, rfl⟩

/-- What the disk holds after a run that is not dry. The files are written after the backup is made,
and still lie where they were. -/
theorem commit_eq_ok {r : FixRequest} {project : Project} {parts : Location}
    (hdirectory : project.directory = ⟨.root, parts⟩) (hparts : Path.Descends parts)
    {changed : Dict (Text × Text)} {place : String → Location} {w w' : Host}
    (hw : w.disk.IsTree) (hapart : w.Apart changed place) (hdry : r.dry = false)
    {saved : Option Path} (h : (r.commit project changed).runIn w = (.ok saved, w')) :
    if r.backup = true ∧ changed ≠ [] then
      ∃ backup, saved = some ⟨.root, backup⟩ ∧ Backup.Made parts backup w w' ∧
        w.Receives changed (Backup.Covers parts backup) w'
    else saved = none ∧ w.Receives changed (fun _ => False) w' := by
  unfold commit at h
  rw [hdry, Bool.or_false] at h
  by_cases hempty : changed = []
  · subst hempty
    rw [if_neg (fun hc => hc.2 rfl)]
    cases h
    exact ⟨rfl, Host.receives_nil ⟨rfl, rfl⟩ _⟩
  · rw [if_neg (by rwa [List.isEmpty_iff])] at h
    cases hbackup : r.backup with
    | false =>
      dsimp only at h
      rw [hbackup, if_neg Bool.false_ne_true] at h
      obtain ⟨backup, v, hnone, h⟩ := Action.runIn_bind_eq_ok h
      cases hnone
      obtain ⟨⟨⟩, u, hwrite, hend⟩ := Action.runIn_bind_eq_ok h
      cases hend
      rw [if_neg (fun hc => Bool.false_ne_true hc.1)]
      exact ⟨rfl, Host.receives_writeSources hapart hwrite⟩
    | true =>
      dsimp only at h
      rw [hbackup, if_pos rfl] at h
      obtain ⟨backup, v, hsave, h⟩ := Action.runIn_bind_eq_ok h
      obtain ⟨⟨⟩, u, hwrite, hend⟩ := Action.runIn_bind_eq_ok h
      cases hend
      rw [if_pos ⟨rfl, hempty⟩]
      rw [map_eq_pure_bind, hdirectory] at hsave
      obtain ⟨p, v', hrun, hsome⟩ := Action.runIn_bind_eq_ok hsave
      cases hsome
      obtain ⟨backup, rfl, hsaved⟩ := Backup.save_eq_ok hparts hw hrun
      have hreceives := Host.receives_writeSources (hsaved.apart hapart) hwrite
      refine ⟨backup, rfl, hsaved.toMade.mono ?_, hsaved.receives hapart hreceives⟩
      exact hreceives.keepsDirectories (hsaved.apart hapart)

/-- A live run writes what a dry run reports. Both start on the same host, with the same answers of
the compiler to come, and different root files lie at different places. Then the two runs agree in
all they report. The changes reported are the files that were read and have another text in the end.
The dry run leaves the disk as it was. The live run leaves the new texts in the changed files, and
also a new backup of the project if one is wanted and there are changes. Nothing else differs. -/
theorem live_run_writes_what_dry_run_reports {r : FixRequest} {w w₁ w₂ : Host} {x y : FixResult}
    (hw : w.WellFormed) (hconfig : r.config.IsRead) (hroots : r.RootsApart w)
    (hdry : (run { r with dry := true }).runIn w = (.ok x, w₁))
    (hlive : (run { r with dry := false }).runIn w = (.ok y, w₂)) :
    (y.totalChanges = x.totalChanges ∧ y.passes = x.passes ∧ y.reports = x.reports ∧
      y.changed = x.changed) ∧
    w₁.disk = w.disk ∧
    ∃ a v, r.analyse.runIn w = (.ok a, v) ∧
      (∀ name text, a.sources.get? name = some text ↔ name ∈ a.project.roots ∧
        Project.isBelow w.cwd r.directory name = true ∧ w.text? name = some text) ∧
      x.changed.keys.Nodup ∧
      (∀ name old new, x.changed.get? name = some (old, new) ↔
        a.sources.get? name = some old ∧ a.session.files.get? name = some new ∧ old ≠ new) ∧
      if r.backup = true ∧ x.changed ≠ [] then
        ∃ project backup, a.project.directory = ⟨.root, project⟩ ∧
          y.backup = some ⟨.root, backup⟩ ∧ Backup.Made project backup w w₂ ∧
          w.Receives x.changed (Backup.Covers project backup) w₂
      else y.backup = none ∧ w.Receives x.changed (fun _ => False) w₂ := by
  obtain ⟨a, v, hanalyse, hx, hdrycommit⟩ := run_eq_ok hdry
  obtain ⟨b, u, hagain, hy, hcommit⟩ := run_eq_ok hlive
  change r.analyse.runIn w = _ at hanalyse hagain
  obtain ⟨rfl, rfl⟩ : a = b ∧ v = u := by
    rw [hanalyse] at hagain
    cases hagain
    exact ⟨rfl, rfl⟩
  have hsame : w.SameDisk v := (leads_analyse hconfig).of_run hanalyse hw
  have ha := analyse_eq_ok hanalyse
  rw [hx.changed]
  refine ⟨⟨hy.totalChanges.trans hx.totalChanges.symm, hy.passes.trans hx.passes.symm,
    hy.reports.trans hx.reports.symm, hy.changed⟩, ?_, a, v, hanalyse, ha.sources, ha.nodup_changed,
    ha.get?_changed, ?_⟩
  · rw [commit_of_dry rfl] at hdrycommit
    have hend : v = w₁ := congrArg Prod.snd hdrycommit
    rw [← hend, hsame.disk]
  · obtain ⟨w', hload⟩ := ha.loaded
    obtain ⟨project, hproject, hdirectory⟩ := Project.load_eq_ok hw hconfig hload
    obtain ⟨place, hapart⟩ := ha.apart hroots
    have hdisk := commit_eq_ok hdirectory hproject (hw.of_sameDisk hsame).tree
      (hapart.of_sameDisk hsame) rfl hcommit
    dsimp only at hdisk
    split at hdisk
    · next hsaves =>
      obtain ⟨backup, hbackup, hmade, hreceives⟩ := hdisk
      rw [if_pos hsaves]
      exact ⟨project, backup, hdirectory, hbackup, hmade.of_sameDisk hsame,
        hreceives.of_sameDisk hsame⟩
    · next hsaves =>
      rw [if_neg hsaves]
      exact ⟨hdisk.1, hdisk.2.of_sameDisk hsame⟩

/-! A project with two files, `a.b;` and `c;`. The compiler complains once, about `a`. -/

def accessTree : Tree :=
  .node ⟨.other "program", 0, 4, true, none⟩
    [.node ⟨.other "expression_statement", 0, 4, true, none⟩
      [.node ⟨.memberExpression, 0, 3, true, none⟩
        [.node ⟨.identifier, 0, 1, true, some .object⟩ [],
          .node ⟨.other ".", 1, 2, false, none⟩ [],
          .node ⟨.other "property_identifier", 2, 3, true, some .property⟩ []],
        .node ⟨.other ";", 3, 4, false, none⟩ []]]

def accessHost : Host where
  disk := [(["p"], .directory), (["p", "tsconfig.json"], .file []),
    (["p", "m.ts"], .file (Utf8.encode "a.b;".toList)),
    (["p", "n.ts"], .file (Utf8.encode "c;".toList))]
  cwd := []
  temporary := "/tmp"
  clock := ⟨2024, 1, 1, 0, 0, 0⟩
  replies := [fun _ => .finished "\x7b\"files\":[\"m.ts\",\"n.ts\"]\x7d".toList [] 0,
    fun _ => .finished "m.ts(1,1): error TS2532: Object is possibly 'undefined'.".toList [] 2]
  parser _ _ _ := accessTree

def accessRequest : FixRequest where
  config := Path.ofString "/p"
  choice := .words ["tsc"]

theorem rootsApart_accessRequest : accessRequest.RootsApart accessHost := by
  have hroots : ((Project.load accessRequest.config accessRequest.choice).runIn accessHost).1.map
      Project.roots = .ok ["/p/m.ts", "/p/n.ts"] := by
    decide +kernel
  have hplaces : ∀ a ∈ ["/p/m.ts", "/p/n.ts"], ∀ b ∈ ["/p/m.ts", "/p/n.ts"],
      accessHost.disk.locate [] a = accessHost.disk.locate [] b → a = b := by
    decide +kernel
  intro project w' hload a ha b hb at_ hata hatb
  rw [hload] at hroots
  rw [Except.ok.inj hroots] at ha hb
  exact hplaces a ha b hb (hata.trans hatb.symm)

theorem changed_accessRequest :
    ((run { accessRequest with dry := false }).runIn accessHost).1.map FixResult.changed =
      .ok [("/p/m.ts", ("a.b;".toList, "a?.b;".toList))] := by
  decide +kernel

/-- The live run puts `a?.b;` in the first file, and leaves the second one alone. -/
theorem live_run_writes_the_access :
    accessHost.WellFormed ∧ accessRequest.config.IsRead ∧ accessRequest.RootsApart accessHost ∧
    ∃ x y w₁ w₂, (run { accessRequest with dry := true }).runIn accessHost = (.ok x, w₁) ∧
      (run { accessRequest with dry := false }).runIn accessHost = (.ok y, w₂) ∧
      x.changed = [("/p/m.ts", ("a.b;".toList, "a?.b;".toList))] ∧ y.changed = x.changed ∧
      w₁.disk = accessHost.disk ∧ y.backup.isSome ∧
      w₂.disk.get? ["p", "m.ts"] = some (.file (Utf8.encode "a?.b;".toList)) ∧
      w₂.disk.get? ["p", "n.ts"] = some (.file (Utf8.encode "c;".toList)) := by
  have hw : accessHost.WellFormed := ⟨by decide, fun _ h => nomatch h⟩
  have hconfig : accessRequest.config.IsRead := Path.isRead_ofString "/p"
  have hroots := rootsApart_accessRequest
  have hchanged := changed_accessRequest
  rcases hlive : (run { accessRequest with dry := false }).runIn accessHost with ⟨result, w₂⟩
  rw [hlive] at hchanged
  cases result with
  | error e => cases hchanged
  | ok y =>
    obtain ⟨a, v, hanalyse, -⟩ := run_eq_ok hlive
    obtain ⟨x, hdry⟩ := run_of_dry (r := { accessRequest with dry := true }) rfl hanalyse
    obtain ⟨⟨-, -, -, hsame⟩, hdisk, b, u, -, -, -, -, hrest⟩ :=
      live_run_writes_what_dry_run_reports hw hconfig hroots hdry hlive
    have hx : x.changed = [("/p/m.ts", ("a.b;".toList, "a?.b;".toList))] :=
      hsame.symm.trans (Except.ok.inj hchanged)
    have hm : accessHost.disk.locate accessHost.cwd "/p/m.ts" = .ok ["p", "m.ts"] := by
      decide +kernel
    rw [if_pos ⟨rfl, by rw [hx]; exact List.cons_ne_nil _ _⟩] at hrest
    obtain ⟨project, backup, -, hbackup, hmade, hwritten, hkept⟩ := hrest
    refine ⟨hw, hconfig, hroots, x, y, v, w₂, hdry, rfl, hx, hsame, hdisk, ?_, ?_, ?_⟩
    · rw [hbackup]
      rfl
    · obtain ⟨at_, hlocate, -, hfile⟩ := hwritten "/p/m.ts" _ _ (by rw [hx]; rfl)
      rw [hm, Except.ok.injEq] at hlocate
      rw [hlocate, hfile]
    · rw [hkept ["p", "n.ts"] ?_ fun hat => hmade.not_file hat _ rfl]
      · rfl
      · intro name hname hlocate
        rw [hx] at hname
        cases List.mem_singleton.mp hname
        exact absurd (Except.ok.inj (hm.symm.trans hlocate)) (by decide)

end FixRequest

end ChainGuard
