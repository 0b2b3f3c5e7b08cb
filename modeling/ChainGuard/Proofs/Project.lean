import ChainGuard.Project
import ChainGuard.Proofs.Compiler
import ChainGuard.Proofs.Dict
import ChainGuard.Proofs.Name
import ChainGuard.Proofs.Utf8

/-!
# Loading, reading and writing a project

Loading a project and reading its files leaves the disk alone. Reading gives exactly the texts that
the files hold. Writing sets exactly the files that are named.

1. `Project.load_eq_ok`: where a loaded project lies. `Project.render_of_mem_roots`: its files have
   names that stay the same when they are read and written.
2. `Host.text?`, `Project.get?_readSources`: the texts that are read.
3. `Project.writeSources_eq_ok`: the disk after the texts are written. `Project.runIn_writeSources`:
   files that can be read can all be written.
-/

namespace ChainGuard

open ChainGuard.Action (IsFrame Leads)

namespace Project

/-! ## 1. Loading -/

theorem leads_locateConfig (p : Path) : Leads Host.Quiet (locateConfig p) := by
  have hR := Action.isFrame_quiet
  refine .bind hR (Action.leads_resolve p) fun place => ?_
  refine .bind hR (Action.leads_isDirectory place) fun there => ?_
  refine .bind hR (Action.leads_isFile _) fun found => ?_
  exact .ite (.pure hR _) (.throw hR _)

theorem leads_resolveCommand (choice : CompilerChoice) (start : Option Path) :
    Leads Host.Quiet (Compiler.resolveCommand choice start) := by
  have hR := Action.isFrame_quiet
  refine .bind hR (.lift hR _) fun command => ?_
  cases command with
  | some words => exact .pure hR _
  | none => exact Compiler.leads_locate start

theorem leads_showConfig (choice : CompilerChoice) (configPath : Path) :
    Leads Host.Quiet (showConfig choice configPath) := by
  have hR := Action.isFrame_quiet
  refine .bind hR (leads_resolveCommand choice _) fun command => ?_
  refine .bind hR (Compiler.leads_run _ _ _) fun finished => ?_
  refine .ite (.throw hR _) ?_
  refine .bind hR (Action.leads_readJson _) fun shown => ?_
  cases shown with
  | ok value => exact .pure hR _
  | error e => exact .ite (.throw hR _) (.throw hR _)

theorem leads_load (config : Path) (choice : CompilerChoice) :
    Leads Host.Quiet (load config choice) := by
  have hR := Action.isFrame_quiet
  refine .bind hR (leads_locateConfig config) fun configPath => ?_
  refine .bind hR (leads_showConfig choice configPath) fun shown => ?_
  refine .bind hR (.lift hR _) fun roots => ?_
  exact .bind hR (Action.leads_note _ _ _) fun _ => .pure hR _

theorem locateConfig_eq_ok {config p : Path} {w w' : Host} (hw : w.WellFormed)
    (hconfig : config.IsRead) (h : (locateConfig config).runIn w = (.ok p, w')) :
    ∃ parts, Path.Descends parts ∧ p = ⟨.root, parts⟩ := by
  obtain ⟨place, w₁, hresolve, h⟩ := Action.runIn_bind_eq_ok h
  have hplace : ∃ parts, Path.Descends parts ∧ place = ⟨.root, parts⟩ := by
    obtain ⟨rfl, -⟩ := Action.resolve_eq_ok hresolve
    exact ⟨_, Path.descends_absolute hw.cwd hconfig, rfl⟩
  obtain ⟨parts, hparts, rfl⟩ := hplace
  obtain ⟨there, w₂, -, h⟩ := Action.runIn_bind_eq_ok h
  obtain ⟨found, w₃, -, h⟩ := Action.runIn_bind_eq_ok h
  split at h
  · cases h
    cases there with
    | false => exact ⟨parts, hparts, rfl⟩
    | true =>
      exact ⟨_, hparts.append (Path.descends_singleton (by decide) (by decide)), rfl⟩
  · cases h

/-- A loaded project lies at an absolute place. -/
theorem load_eq_ok {config : Path} {choice : CompilerChoice} {project : Project} {w w' : Host}
    (hw : w.WellFormed) (hconfig : config.IsRead)
    (h : (load config choice).runIn w = (.ok project, w')) :
    ∃ parts, Path.Descends parts ∧ project.directory = ⟨.root, parts⟩ := by
  obtain ⟨configPath, w₁, hlocate, h⟩ := Action.runIn_bind_eq_ok h
  obtain ⟨shown, w₂, -, h⟩ := Action.runIn_bind_eq_ok h
  obtain ⟨roots, w₃, -, h⟩ := Action.runIn_bind_eq_ok h
  obtain ⟨-, w₄, -, h⟩ := Action.runIn_bind_eq_ok h
  obtain ⟨parts, hparts, rfl⟩ := locateConfig_eq_ok hw hconfig hlocate
  cases h
  exact ⟨_, hparts.of_isPrefix (List.dropLast_prefix parts), rfl⟩

/-- The name of a root file is read as its path. -/
theorem render_of_rootPath {parts : Location} (hparts : Path.Descends parts) {item : JsonValue}
    {name : String} (h : rootPath ⟨.root, parts⟩ item = .ok name) :
    (Path.ofString name).render = name := by
  unfold rootPath at h
  split at h
  · next text =>
    cases h
    have hdirectory : Path.IsRead ⟨.root, parts⟩ := fun s hs => (hparts s hs).1
    have hread := Path.isRead_ofString text
    rw [Path.ofString_render fun s hs => (Path.descends_absolute hdirectory hread s hs).1]
  · cases h

theorem rootPath_of_mem_mapM {directory : Path} {items : List JsonValue} {roots : List String}
    (h : items.mapM (rootPath directory) = .ok roots) :
    ∀ name ∈ roots, ∃ item, rootPath directory item = .ok name := by
  induction items generalizing roots with
  | nil =>
    cases h
    exact fun name hname => nomatch hname
  | cons item rest ih =>
    rw [List.mapM_cons] at h
    cases hitem : rootPath directory item with
    | error e => rw [hitem] at h; cases h
    | ok first =>
      cases hrest : rest.mapM (rootPath directory) with
      | error e => simp [hitem, hrest, bind, Except.bind] at h
      | ok others =>
        simp [hitem, hrest, bind, Except.bind, pure, Except.pure] at h
        subst h
        intro name hname
        rcases List.mem_cons.mp hname with rfl | hname
        · exact ⟨item, hitem⟩
        · exact ih hrest name hname

theorem rootPath_of_mem_rootsOf {directory : Path} {shown : JsonValue} {roots : List String}
    (h : rootsOf directory shown = .ok roots) :
    ∀ name ∈ roots, ∃ item, rootPath directory item = .ok name := by
  unfold rootsOf at h
  split at h
  · split at h
    · cases h
      exact fun name hname => nomatch hname
    · next files _ =>
      cases hitems : items files with
      | error e => rw [hitems] at h; cases h
      | ok found =>
        rw [hitems] at h
        exact rootPath_of_mem_mapM h
  · cases h

/-- The root files of a loaded project have names that are read as the same path. -/
theorem render_of_mem_roots {config : Path} {choice : CompilerChoice} {project : Project}
    {w w' : Host} (hw : w.WellFormed) (hconfig : config.IsRead)
    (h : (load config choice).runIn w = (.ok project, w')) :
    ∀ name ∈ project.roots, (Path.ofString name).render = name := by
  obtain ⟨configPath, w₁, hlocate, h⟩ := Action.runIn_bind_eq_ok h
  obtain ⟨shown, w₂, -, h⟩ := Action.runIn_bind_eq_ok h
  obtain ⟨roots, w₃, hroots, h⟩ := Action.runIn_bind_eq_ok h
  obtain ⟨-, w₄, -, h⟩ := Action.runIn_bind_eq_ok h
  obtain ⟨parts, hparts, rfl⟩ := locateConfig_eq_ok hw hconfig hlocate
  cases h
  rw [Action.runIn_lift] at hroots
  have hroots : rootsOf ⟨.root, parts.dropLast⟩ shown = .ok roots := congrArg Prod.fst hroots
  intro name hname
  obtain ⟨item, hitem⟩ := rootPath_of_mem_rootsOf hroots name hname
  exact render_of_rootPath (hparts.of_isPrefix (List.dropLast_prefix parts)) hitem

/-- The name lies below the directory, if one is given. -/
def isBelow (cwd : Location) (directory : Option Path) (name : String) : Bool :=
  directory.all fun above =>
    (Path.resolve ⟨.root, cwd⟩ (Path.ofString name)).isUnder (Path.resolve ⟨.root, cwd⟩ above)

theorem leads_select (roots : List String) (directory : Option Path) :
    Leads Host.Quiet (select roots directory) := by
  have hR := Action.isFrame_quiet
  cases directory with
  | none => exact .pure hR _
  | some directory =>
    refine .bind hR (Action.leads_resolve _) fun above => Action.leads_filterM (fun name => ?_) _
    exact .bind hR (Action.leads_resolve _) fun _ => .pure hR _

theorem select_eq_ok {roots out : List String} {directory : Option Path} {w w' : Host}
    (h : (select roots directory).runIn w = (.ok out, w')) :
    out = roots.filter (isBelow w.cwd directory) := by
  cases directory with
  | none =>
    cases h
    exact (List.filter_eq_self.mpr fun _ _ => rfl).symm
  | some directory =>
    obtain ⟨above, v, habove, h⟩ := Action.runIn_bind_eq_ok h
    obtain ⟨rfl, rfl⟩ := Action.resolve_eq_ok habove
    refine (Action.filterM_eq_ok (I := fun u => u.cwd = v.cwd) ?_ rfl h).1
    intro name keep u u' hcwd hname
    obtain ⟨place, u, hplace, hkeep⟩ := Action.runIn_bind_eq_ok hname
    obtain ⟨rfl, rfl⟩ := Action.resolve_eq_ok hplace
    cases hkeep
    rw [hcwd]
    exact ⟨rfl, rfl⟩

end Project

/-! ## 2. Reading -/

/-- The text that a file holds, if there is a file and it holds a text. -/
def Host.text? (w : Host) (name : String) : Option Text :=
  match w.disk.read w.cwd name with
  | .ok bytes => (Utf8.decode bytes).toOption
  | .error _ => none

theorem Host.SameDisk.text?_eq {w w' : Host} (h : w.SameDisk w') (name : String) :
    w'.text? name = w.text? name := by
  unfold Host.text?
  rw [h.disk, h.cwd]

theorem Host.file_of_text? {w : Host} {name : String} {text : Text} (h : w.text? name = some text) :
    ∃ at_ content, w.disk.locate w.cwd name = .ok at_ ∧
      w.disk.get? at_ = some (.file content) := by
  unfold Host.text? at h
  split at h
  · next content hread =>
    obtain ⟨at_, hlocate, hget, -⟩ := Disk.read_eq_ok hread
    exact ⟨at_, content, hlocate, hget⟩
  · cases h

/-- A text that is read lies in a file that can be written. -/
theorem Host.hasFile_of_text? {w : Host} {name : String} {text : Text}
    (hnull : name.toList.contains '\x00' = false) (h : w.text? name = some text) :
    ∃ at_, w.HasFile name at_ (Utf8.encode text) := by
  unfold Host.text? at h
  split at h
  · next content hread =>
    obtain ⟨at_, hlocate, hget, hslash⟩ := Disk.read_eq_ok hread
    have hdecode : Utf8.decode content = .ok text := by
      cases hdecode : Utf8.decode content with
      | error e => rw [hdecode] at h; cases h
      | ok t => rw [hdecode] at h; cases h; rfl
    exact ⟨at_, hnull, hslash, hlocate, by rw [Utf8.decode_eq_ok_iff.mp hdecode, hget]⟩
  · cases h

namespace Project

/-- Reading a text gives what the file holds, or fails and changes nothing. A failure that leaves
the file unread means that there is no text, and that it is not the name that is wrong. -/
theorem readText_cases (name : String) (w : Host) :
    (∃ e, (Action.readText name).runIn w = (.error e, w) ∧
      (isUnreadable e = true → name.toList.contains '\x00' = false ∧ w.text? name = none)) ∨
    ∃ text, name.toList.contains '\x00' = false ∧ w.text? name = some text ∧
      (Action.readText name).runIn w = (.ok text, w) := by
  have hbytes : (Action.readBytes name).runIn w = _ :=
    Action.runIn_ask name (fun disk cwd => disk.read cwd name) w
  unfold Action.readText Host.text?
  cases hnull : name.toList.contains '\x00' with
  | true =>
    rw [hnull, if_pos rfl] at hbytes
    exact Or.inl ⟨_, Action.runIn_bind_of_error hbytes, fun h => nomatch h⟩
  | false =>
    rw [hnull, if_neg Bool.false_ne_true] at hbytes
    cases hread : w.disk.read w.cwd name with
    | error fault =>
      rw [hread] at hbytes
      exact Or.inl ⟨_, Action.runIn_bind_of_error hbytes, fun _ => ⟨rfl, rfl⟩⟩
    | ok bytes =>
      rw [hread] at hbytes
      rw [Action.runIn_bind_of_ok hbytes]
      cases hdecode : Utf8.decode bytes with
      | error e => exact Or.inl ⟨_, rfl, fun _ => ⟨rfl, by simp [hdecode]; rfl⟩⟩
      | ok text => exact Or.inr ⟨text, rfl, by simp [hdecode]; rfl, rfl⟩

/-- Reading goes on with the text of the first file, or without it if it has none. -/
theorem readInto_cons {first : String} {rest : List String} {sources files : Files} {w w' : Host}
    (h : (readInto sources (first :: rest)).runIn w = (.ok files, w')) :
    first.toList.contains '\x00' = false ∧
      ((∃ text, w.text? first = some text ∧
        (readInto (sources.set first text) rest).runIn w = (.ok files, w')) ∨
      w.text? first = none ∧ ∃ v, w.Quiet v ∧
        (readInto sources rest).runIn v = (.ok files, w')) := by
  obtain ⟨result, v, hattempt, h⟩ := Action.runIn_bind_eq_ok h
  rw [Action.runIn_attempt] at hattempt
  rcases readText_cases first w with ⟨e, hread, hnone⟩ | ⟨text, hnull, htext, hread⟩
  · rw [hread] at hattempt
    cases hattempt
    dsimp only at h
    split at h
    · next hunreadable =>
      obtain ⟨⟨⟩, v, hnote, h⟩ := Action.runIn_bind_eq_ok h
      cases hnote
      refine ⟨(hnone hunreadable).1, Or.inr ⟨(hnone hunreadable).2, _, ?_, h⟩⟩
      exact ⟨⟨rfl, rfl⟩, rfl, rfl⟩
    · cases h
  · rw [hread] at hattempt
    cases hattempt
    exact ⟨hnull, Or.inl ⟨text, htext, h⟩⟩

/-- Reading adds the texts of the named files, as far as there are any. -/
theorem get?_readInto {names : List String} {sources files : Files} {w w' : Host}
    (h : (readInto sources names).runIn w = (.ok files, w')) (name : String) :
    files.get? name = (if name ∈ names then w.text? name else none).or (sources.get? name) := by
  induction names generalizing sources w with
  | nil =>
    cases h
    rfl
  | cons first rest ih =>
    rcases (readInto_cons h).2 with ⟨text, htext, h⟩ | ⟨hnone, v, hsame, h⟩
    · rw [ih h]
      by_cases hname : name = first
      · subst hname
        rw [Dict.get?_set_self, if_pos List.mem_cons_self, htext]
        split <;> rfl
      · rw [Dict.get?_set_of_ne hname]
        simp only [List.mem_cons, hname, false_or]
    · rw [ih h, hsame.toSameDisk.text?_eq]
      by_cases hname : name = first
      · subst hname
        rw [if_pos List.mem_cons_self, hnone]
        split <;> rfl
      · simp only [List.mem_cons, hname, false_or]

theorem nodup_keys_readInto {names : List String} {sources files : Files} {w w' : Host}
    (hsources : sources.keys.Nodup) (h : (readInto sources names).runIn w = (.ok files, w')) :
    files.keys.Nodup := by
  induction names generalizing sources w with
  | nil =>
    cases h
    exact hsources
  | cons first rest ih =>
    rcases (readInto_cons h).2 with ⟨text, htext, h⟩ | ⟨hnone, v, hsame, h⟩
    · exact ih (Dict.nodup_keys_set hsources) h
    · exact ih hsources h

/-- Files are read only under names without a null character. -/
theorem noNull_of_readInto {names : List String} {sources files : Files} {w w' : Host}
    (h : (readInto sources names).runIn w = (.ok files, w')) :
    ∀ name ∈ names, name.toList.contains '\x00' = false := by
  induction names generalizing sources w with
  | nil => exact fun name hname => nomatch hname
  | cons first rest ih =>
    obtain ⟨hnull, hrest⟩ := readInto_cons h
    intro name hname
    rcases List.mem_cons.mp hname with rfl | hname
    · exact hnull
    · rcases hrest with ⟨text, htext, h⟩ | ⟨hnone, v, hsame, h⟩
      · exact ih h name hname
      · exact ih h name hname

theorem leads_readInto (sources : Files) (names : List String) :
    Leads Host.Quiet (readInto sources names) := by
  have hR := Action.isFrame_quiet
  induction names generalizing sources with
  | nil => exact .pure hR _
  | cons name rest ih =>
    refine .bind hR (.attempt (Action.leads_readText name)) fun result => ?_
    cases result with
    | ok text => exact ih _
    | error e => exact .ite (.bind hR (Action.leads_note _ _ _) fun _ => ih _) (.throw hR _)

theorem get?_readSources {names : List String} {files : Files} {w w' : Host}
    (h : (readSources names).runIn w = (.ok files, w')) (name : String) (text : Text) :
    files.get? name = some text ↔ name ∈ names ∧ w.text? name = some text := by
  rw [get?_readInto h name, Dict.get?_nil, Option.or_none]
  split
  · next hmem => exact ⟨fun htext => ⟨hmem, htext⟩, And.right⟩
  · next hmem => exact ⟨(fun h => nomatch h), fun htext => absurd htext.1 hmem⟩

/-! ## 3. Writing -/

/-- Writing to a file that is there sets this file, and leaves all directories. -/
theorem writeText_eq_ok {name : String} {text : Text} {place : Location} {old : Bytes} {w w' : Host}
    (hplace : w.disk.locate w.cwd name = .ok place) (hold : w.disk.get? place = some (.file old))
    (h : (Action.writeText name text).runIn w = (.ok (), w')) :
    w'.cwd = w.cwd ∧ w'.disk.get? place = some (.file (Utf8.encode text)) ∧
      (∀ at_, at_ ≠ place → w'.disk.get? at_ = w.disk.get? at_) ∧
      w.disk.KeepsDirectories w'.disk := by
  rcases Action.writeText_cases name text w with
    ⟨e, hrun⟩ | ⟨at_, v, hrun, hlocate, hfile, hperforms⟩
  · rw [hrun] at h
    cases h
  · rw [hrun] at h
    cases h
    have hdisk : w'.disk = w.disk.set at_ (.file (Utf8.encode text)) :=
      hperforms.disk.trans (Disk.set_set w.disk at_ _ _)
    have hsame : at_ = place := Except.ok.inj (hlocate.symm.trans hplace)
    subst hsame
    have hroot : at_ ≠ [] := by
      rintro rfl
      cases hold
    rw [hdisk]
    refine ⟨hperforms.cwd, Disk.get?_set_self _ hroot, fun other hne => Disk.get?_set_of_ne _ hne,
      ?_⟩
    intro other hother
    have hne : other ≠ at_ := by
      rintro rfl
      exact hfile hother
    rw [Disk.get?_set_of_ne _ hne, hother]

/-- Writing the texts of files that are there, at different places, sets exactly these files. The
others stay where they were, since directories stay and their places are others. -/
theorem writeSources_eq_ok {files : Files} {place : String → Location} {w w' : Host}
    (hfiles : ∀ entry ∈ files, w.disk.locate w.cwd entry.1 = .ok (place entry.1) ∧
      ∃ content, w.disk.get? (place entry.1) = some (.file content))
    (hapart : files.Pairwise fun a b => place a.1 ≠ place b.1)
    (h : (writeSources files).runIn w = (.ok (), w')) :
    (∀ entry ∈ files, w'.disk.get? (place entry.1) = some (.file (Utf8.encode entry.2))) ∧
    ∀ at_, (∀ entry ∈ files, place entry.1 ≠ at_) → w'.disk.get? at_ = w.disk.get? at_ := by
  induction files generalizing w with
  | nil =>
    cases h
    exact ⟨(fun _ hentry => nomatch hentry), fun _ _ => rfl⟩
  | cons first rest ih =>
    obtain ⟨name, text⟩ := first
    obtain ⟨⟨⟩, v, hwrite, h⟩ := Action.runIn_bind_eq_ok h
    rw [List.pairwise_cons] at hapart
    obtain ⟨hhere, old, hold⟩ := hfiles (name, text) List.mem_cons_self
    obtain ⟨hcwd, hset, hsame, hkeeps⟩ := writeText_eq_ok hhere hold hwrite
    have hrest : ∀ entry ∈ rest, v.disk.locate v.cwd entry.1 = .ok (place entry.1) ∧
        ∃ content, v.disk.get? (place entry.1) = some (.file content) := by
      intro entry hentry
      obtain ⟨hthere, content, hcontent⟩ := hfiles entry (List.mem_cons_of_mem _ hentry)
      rw [hcwd, hsame _ (hapart.1 entry hentry).symm]
      exact ⟨Disk.locate_mono hkeeps hthere, content, hcontent⟩
    obtain ⟨hwritten, hkept⟩ := ih hrest hapart.2 h
    refine ⟨?_, fun other hother => ?_⟩
    · intro entry hentry
      rcases List.mem_cons.mp hentry with rfl | hentry
      · rw [hkept (place name) fun entry hentry => (hapart.1 entry hentry).symm, hset]
      · exact hwritten entry hentry
    · have hfresh := hother (name, text) List.mem_cons_self
      rw [hkept other fun entry hentry => hother entry (List.mem_cons_of_mem _ hentry),
        hsame other hfresh.symm]

theorem runIn_writeSources {files : Files} {target : String → Location} {w : Host}
    (h : w.Targets target files.keys) :
    (writeSources files).runIn w = (.ok (), w.afterWrites target files) := by
  induction files generalizing w with
  | nil => exact congrArg (Prod.mk _) (w.afterWrites_nil target).symm
  | cons first rest ih =>
    obtain ⟨name, text⟩ := first
    obtain ⟨content, hfile⟩ := h name List.mem_cons_self
    have hrest : w.Targets target (Dict.keys rest) :=
      fun other hother => h other (List.mem_cons_of_mem _ hother)
    refine (Action.runIn_bind_of_ok (Action.runIn_writeText hfile.canWrite text)).trans ?_
    rw [ih (hrest.after_write hfile _), w.afterWrites_cons]

end Project

end ChainGuard
