import ChainGuard.Proofs.Compiler.Failure
import ChainGuard.Proofs.Project.Fix

/-!
# How fixing a project fails

Looking for fixes gives a result, or a failure that is told to the user, or one of a few strays.
Each stray has its reason in the request, in what a launch of the run wrote, in a name that the run
asked the disk about, or on the disk.

1. `FixRequest.Stray`: the strays, with their reasons.
2. `Project.ends_load`: loading a project.
3. `Project.IsLoaded.sources`: the files that are read lie where their names say.
4. `Session.ends_run`: a session fails as its tools do.
5. `FixRequest.ends_analyse`: a run fails as the user is told, or as a stray.
-/

namespace ChainGuard

open ChainGuard.Action (Ends Refuses)

/-! ## 1. Strays -/

/-- The compiler was asked for the configuration and showed this value. -/
def Host.Shows (w v : Host) (value : JsonValue) : Prop :=
  ∃ output errors, w.Answered v 0 (.finished output errors 0) ∧
    JsonValue.read w.levels output = .ok value

namespace FixRequest

/-- A run comes to work on these files of the project. -/
inductive Opens (r : FixRequest) (w : Host) (project : Project) (roots : List String)
    (files : Files) : Prop
  | intro {w₁ w₂ w₃ : Host} : (Project.load r.config r.choice).runIn w = (.ok project, w₁) →
      (Project.select project.roots r.directory).runIn w₁ = (.ok roots, w₂) →
      (Project.readSources roots).runIn w₂ = (.ok files, w₃) → Opens r w project roots files

/-- The names that a run asks the disk about, other than those of the files it reads. -/
inductive Asks (r : FixRequest) (w : Host) : String → Prop
  | config : Asks r w (Path.resolve ⟨.root, w.cwd⟩ r.config).render
  | inside : (Action.isDirectory (Path.resolve ⟨.root, w.cwd⟩ r.config)).runIn w = (.ok true, w) →
      Asks r w ((Path.resolve ⟨.root, w.cwd⟩ r.config).child "tsconfig.json").render
  | installed {p up : Path} : (Project.locateConfig r.config).runIn w = (.ok p, w) →
      r.choice.command? = .ok none → up ∈ p.parent.upwards →
      Asks r w (Compiler.installedIn up).render
  | overlay {project : Project} {roots : List String} {files : Files} {c : Compiler}
      {name : String} : r.Opens w project roots files →
      Compiler.ofChoice r.choice (some project.directory) = .ok c →
      c.Asks (Compiler.overlayIn w project.directory roots files.keys) files.keys name →
      Asks r w name

/-- The failures of a run that the user is not told, and where each comes from. The first host is
that before the run, and the second one that at the failure. -/
inductive Stray (r : FixRequest) (w v : Host) : Failure → Prop
  /-- The command line of the compiler cannot be split, or the choice is no command. -/
  | command {e : Failure} : r.choice.command? = .error e → Stray r w v e
  /-- A launch that was made failed in another way than by a refusal of the system. -/
  | launch {i : Nat} {e : Failure} : w.Answered v i (.failed e) → Stray r w v e
  /-- The configuration that was shown is JSON with too many digits in a number, or with more levels
  than the stack has room for. -/
  | shown {output errors : Text} {e : JsonError} : w.Answered v 0 (.finished output errors 0) →
      JsonValue.read w.levels output = .error e → e.isSyntax = false → Stray r w v (.json e)
  /-- The configuration that was shown is a value of another kind, or its files are. -/
  | kind {p : Path} {value : JsonValue} {e : Failure} :
      (Project.locateConfig r.config).runIn w = (.ok p, w) → w.Shows v value →
      Project.rootsOf p.parent value = .error e → Stray r w v e
  /-- What a later launch wrote cannot be read. -/
  | output {i : Nat} {output errors : Text} {status : Int} {e : Failure} :
      w.Answered v (i + 1) (.finished output errors status) →
      CompilerOutput.Unreadable (output ++ errors) e → Stray r w v e
  /-- A path of the request has a null character. -/
  | nullGiven {p : Path} : p = r.config ∨ r.directory = some p → ¬Path.NoNull p.parts →
      Stray r w v .nullInName
  /-- A root file of the project has a null character in its name, or half of a surrogate pair,
  which is read as one. -/
  | nullShown {project : Project} {u : Host} {name : String} :
      (Project.load r.config r.choice).runIn w = (.ok project, u) → name ∈ project.roots →
      '\x00' ∈ name.toList → Stray r w v .nullInName
  /-- A name that the disk is asked about is too long for it. -/
  | long {name : String} : r.Asks w name → Disk.TooLong name →
      Stray r w v (.disk { fault := .nameTooLong, name })
  /-- A file lies below a directory that has the place of the configuration. -/
  | settings {project : Project} {roots : List String} {files : Files} {overlay : Overlay}
      {name : String} : r.Opens w project roots files →
      overlay = Compiler.overlayIn w project.directory roots files.keys → name ∈ files.keys →
      overlay.base.parts ++ ["tsconfig.json"] <+: w.placeOf name →
      w.disk.get? (overlay.base.parts ++ ["tsconfig.json"]) = some .directory →
      Stray r w v
        (.disk { fault := .isADirectory, name := (overlay.directory.child "tsconfig.json").render })

/-- The user is told the failure, or it is a stray. -/
def Fails (r : FixRequest) (w : Host) (e : Failure) (v : Host) : Prop :=
  e.isForUser = true ∨ r.Stray w v e

variable {r : FixRequest} {w w₁ : Host}

theorem refuses_fails {name : String} (h : r.Asks w name) : Refuses (r.Fails w) name :=
  fun hlong _ => .inr (.long h hlong)

/-- A stray of the compiler is one of the run, in which the compiler was launched once before. -/
theorem Stray.of_compiler {project : Project} {roots : List String} {files : Files} {c : Compiler}
    {v : Host} {e : Failure} (hsame : w.SameDisk w₁) (hlaunches : w.Launches w₁ 1)
    (hopens : r.Opens w project roots files)
    (hc : Compiler.ofChoice r.choice (some project.directory) = .ok c)
    (h : c.Stray (Compiler.overlayIn w₁ project.directory roots files.keys) files.keys w₁ v e) :
    r.Stray w v e := by
  have hoverlay : Compiler.overlayIn w₁ project.directory roots files.keys =
      Compiler.overlayIn w project.directory roots files.keys := by
    unfold Compiler.overlayIn
    rw [hsame.disk, hsame.cwd]
  rw [hoverlay] at h
  cases h with
  | launch hanswered => exact .launch (hlaunches.answered hanswered)
  | output hanswered hunreadable =>
    exact .output (Nat.add_comm _ _ ▸ hlaunches.answered hanswered) hunreadable
  | long hasks hlong => exact .long (.overlay hopens hc hasks) hlong
  | settings hname hbelow hthere =>
    unfold Host.placeOf at hbelow
    rw [hsame.cwd] at hbelow
    rw [hsame.disk] at hthere
    exact .settings hopens rfl hname hbelow hthere

end FixRequest

/-! ## 2. Loading -/

namespace Project

/-- A project as it is loaded: its configuration is a file at the place, and its root files are
those that the compiler shows. -/
structure IsLoaded (r : FixRequest) (w v : Host) (parts : Location) (project : Project) : Prop where
  config : project.configPath = ⟨.root, parts⟩
  located : (locateConfig r.config).runIn w = (.ok ⟨.root, parts⟩, w)
  descends : Path.Descends parts
  noNull : Path.NoNull parts
  file : w.disk.OpensTo parts ∧ ∃ content, w.disk.get? parts = some (.file content)
  base : project.compiler.base = some (Path.render ⟨.root, parts⟩)
  shown : ∃ value, w.Shows v value ∧ rootsOf ⟨.root, parts.dropLast⟩ value = .ok project.roots

theorem IsLoaded.holds {r : FixRequest} {w v : Host} {parts : Location} {project : Project}
    (h : project.IsLoaded r w v parts) : w.disk.Holds parts.dropLast := by
  obtain ⟨hopens, content, hget⟩ := h.file
  refine hopens.holds_dropLast ?_
  rintro rfl
  cases hget

variable {r : FixRequest} {w : Host}

/-- The configuration is found, or the user is told that there is none. -/
theorem ends_locateConfig (hw : w.WellFormed) (hconfig : r.config.IsRead) :
    Ends (fun p v => v = w ∧ ∃ parts, p = ⟨.root, parts⟩ ∧ Path.Descends parts ∧
        Path.NoNull parts ∧ w.disk.OpensTo parts ∧
          ∃ content, w.disk.get? parts = some (.file content)) (r.Fails w)
      (locateConfig r.config) w := by
  refine .bind (Action.ends_resolve r.config fun hnull => .inr (.nullGiven (.inl rfl) hnull)) ?_
  rintro place u - ⟨hplace, rfl⟩
  have hself : Refuses (r.Fails u) place.render := hplace ▸ FixRequest.refuses_fails .config
  refine .bind (Action.ends_isDirectory hself u) ?_
  rintro there v hthere rfl
  dsimp only
  obtain ⟨parts, hp, hparts, hasks⟩ : ∃ parts,
      (if there = true then place.child "tsconfig.json" else place) = ⟨.root, parts⟩ ∧
        Path.Descends parts ∧ Refuses (r.Fails v) (Path.render ⟨.root, parts⟩) := by
    have hdown : Path.Descends place.parts := by
      rw [hplace]
      exact Path.descends_absolute hw.cwd hconfig
    have hroot : place = ⟨.root, place.parts⟩ := by
      rw [hplace]
      rfl
    split
    · next hdirectory =>
      rw [hdirectory, hplace] at hthere
      have hinside : Refuses (r.Fails v) (place.child "tsconfig.json").render :=
        hplace ▸ FixRequest.refuses_fails (.inside hthere)
      rw [hroot] at hinside
      refine ⟨_, congrArg (Path.child · "tsconfig.json") hroot, ?_, hinside⟩
      exact hdown.append (Path.descends_singleton (by decide) (by decide))
    · exact ⟨_, hroot, hdown, hroot ▸ hself⟩
  rw [hp]
  refine .bind (Action.ends_isFile hasks _) ?_
  rintro found _ hrun rfl
  refine .ite (fun hfound => .pure ⟨rfl, parts, rfl, hparts, ?_⟩) fun _ => .throw (.inl rfl)
  rw [hfound] at hrun
  exact Action.isFile_eq_ok hparts hrun

theorem ends_resolveCommand {parts : Location}
    (hlocated : (locateConfig r.config).runIn w = (.ok ⟨.root, parts⟩, w))
    (hparts : Path.Descends parts) (hnull : Path.NoNull parts) :
    Ends (fun _ v => v = w) (r.Fails w)
      (Compiler.resolveCommand r.choice (some ⟨.root, parts.dropLast⟩)) w := by
  have hup := List.dropLast_prefix parts
  unfold Compiler.resolveCommand
  cases hcommand : r.choice.command? with
  | error e => exact .bind (.throw (.inr (.command hcommand))) fun _ _ _ h => h
  | ok command =>
    rw [Ends, Action.runIn_bind_of_ok (Action.runIn_lift _ w)]
    cases command with
    | some words => exact rfl
    | none =>
      exact Compiler.ends_locate (hparts.of_isPrefix hup) (hnull.of_isPrefix hup)
        (fun up hmem => FixRequest.refuses_fails (.installed hlocated hcommand hmem))
        (fun _ => .inl rfl) w

/-- The compiler shows the configuration, or the user is told why not. -/
theorem ends_showConfig {parts : Location}
    (hlocated : (locateConfig r.config).runIn w = (.ok ⟨.root, parts⟩, w))
    (hparts : Path.Descends parts) (hnull : Path.NoNull parts) :
    Ends (fun value v => w.Shows v value ∧ w.Launches v 1) (r.Fails w)
      (showConfig r.choice ⟨.root, parts⟩) w := by
  refine .bind (ends_resolveCommand hlocated hparts hnull) ?_
  rintro command _ - rfl
  refine .bind (Compiler.ends_run (fun _ _ => .inl) (fun e v h => .inr (.launch h)) _ _ _) ?_
  rintro finished v - ⟨hlaunches, hanswered⟩
  refine .ite (fun _ => .throw (.inl rfl)) fun hstatus => ?_
  rw [Decidable.not_not.mp hstatus] at hanswered
  refine .bind (Action.ends_readJson _ v) ?_
  rintro _ _ - ⟨rfl, rfl⟩
  rw [hlaunches.levels]
  split
  · next value hread => exact .pure ⟨⟨_, _, hanswered, hread⟩, hlaunches⟩
  · next e hread =>
    refine .ite (fun _ => .throw (.inl rfl)) fun hsyntax => .throw (.inr ?_)
    exact .shown hanswered hread (Bool.eq_false_iff.mpr hsyntax)

/-- A project is loaded, or the user is told why not, or there is a stray. -/
theorem ends_load (hw : w.WellFormed) (hconfig : r.config.IsRead) :
    Ends (fun project v => (∃ parts, project.IsLoaded r w v parts) ∧ w.Launches v 1) (r.Fails w)
      (load r.config r.choice) w := by
  refine .bind (ends_locateConfig hw hconfig) ?_
  rintro _ _ hlocated ⟨rfl, parts, rfl, hparts, hnull, hfile⟩
  refine .bind (ends_showConfig hlocated hparts hnull) ?_
  rintro value v - ⟨hvalue, hlaunches⟩
  have hlift : Ends (fun roots u => rootsOf ⟨.root, parts.dropLast⟩ value = .ok roots ∧ u = v)
      (r.Fails _) (Action.lift (rootsOf ⟨.root, parts.dropLast⟩ value)) v :=
    .lift (fun _ hroots => ⟨hroots, rfl⟩) fun _ he => .inr (.kind hlocated hvalue he)
  refine .bind hlift ?_
  rintro roots _ - ⟨hroots, rfl⟩
  obtain ⟨output, errors, hanswered, hread⟩ := hvalue
  refine .bind (Action.ends_note _ _ _ _) fun _ u _ hu => .pure ⟨⟨parts, ?_⟩, hlaunches.trans hu.2⟩
  have hshows : Host.Shows _ u value := ⟨output, errors, hanswered.mono ⟨0, hu.2⟩, hread⟩
  exact ⟨rfl, hlocated, hparts, hnull, hfile, rfl, value, hshows, hroots⟩

/-! ## 3. Reading -/

/-- A file is selected, unless its name or the directory has a null character. -/
theorem ends_select {bad : Failure → Host → Prop} {roots : List String} {directory : Option Path}
    (hdirectory : ∀ p, directory = some p → ¬Path.NoNull p.parts → bad .nullInName w)
    (hroots : ∀ name ∈ roots, '\x00' ∈ name.toList → bad .nullInName w) :
    Ends (fun names v => v = w ∧ ∀ name ∈ names, name ∈ roots) bad (select roots directory) w := by
  cases directory with
  | none => exact .pure ⟨rfl, fun _ hname => hname⟩
  | some p =>
    refine .bind (Action.ends_resolve p (hdirectory p rfl)) ?_
    rintro above _ - ⟨-, rfl⟩
    refine Action.ends_filterM (I := (· = _)) (fun name hname v hv => ?_) rfl
    subst hv
    have hnull : ¬Path.NoNull (Path.ofString name).parts → bad .nullInName v := fun h => by
      unfold Path.NoNull at h
      push Not at h
      obtain ⟨part, hpart, hmem⟩ := h
      exact hroots name hname (Path.mem_of_mem_ofString hpart hmem)
    refine .bind (Action.ends_resolve _ hnull) ?_
    rintro place _ - ⟨-, rfl⟩
    exact .pure rfl

/-- A text that cannot be read leaves the file out, unless the name has a null character. -/
theorem readText_eq_error {name : String} {e : Failure} {v : Host}
    (h : (Action.readText name).runIn w = (.error e, v)) :
    v = w ∧ (isUnreadable e = true ∨ e = .nullInName ∧ '\x00' ∈ name.toList) := by
  have hbytes : (Action.readBytes name).runIn w = _ :=
    Action.runIn_ask name (fun disk cwd => disk.read cwd name) w
  unfold Action.readText at h
  split at hbytes
  · next hnull =>
    rw [Action.runIn_bind_of_error hbytes] at h
    cases h
    exact ⟨rfl, .inr ⟨rfl, List.contains_iff_mem.mp hnull⟩⟩
  · cases hread : w.disk.read w.cwd name with
    | error fault =>
      rw [hread] at hbytes
      rw [Action.runIn_bind_of_error hbytes] at h
      cases h
      exact ⟨rfl, .inl rfl⟩
    | ok bytes =>
      rw [hread] at hbytes
      rw [Action.runIn_bind_of_ok hbytes] at h
      split at h
      · cases h
      · cases h
        exact ⟨rfl, .inl rfl⟩

/-- Files are read or left out, unless one of the names has a null character. -/
theorem ends_readInto {bad : Failure → Host → Prop} {sources : Files} {names : List String}
    (hnames : ∀ name ∈ names, '\x00' ∈ name.toList → ∀ v, bad .nullInName v) :
    Ends (fun _ v => w.Follows v) bad (readInto sources names) w := by
  induction names generalizing sources w with
  | nil => exact .pure (.refl w)
  | cons name rest ih =>
    have hrest := fun other hother => hnames other (List.mem_cons_of_mem name hother)
    have hattempt := Action.runIn_attempt (Action.readText name) w
    rcases hread : (Action.readText name).runIn w with ⟨result, v⟩
    rw [hread] at hattempt
    unfold readInto
    rw [Ends, Action.runIn_bind_of_ok hattempt]
    cases result with
    | ok text =>
      have hv : w.Follows v := by
        rcases readText_cases name w with ⟨e, h, -⟩ | ⟨text, -, -, h⟩
        · cases h.symm.trans hread
        · cases h.symm.trans hread
          exact .refl w
      exact (ih hrest).mono fun _ _ _ hu => hv.trans hu
    | error e =>
      obtain ⟨rfl, hunreadable | ⟨rfl, hnull⟩⟩ := readText_eq_error hread
      · dsimp only
        rw [hunreadable, if_pos rfl]
        refine Ends.bind (Action.ends_note _ _ _ _) fun _ u _ hu => ?_
        exact (ih hrest).mono fun _ _ _ h => (Host.Follows.of_launches hu.1 hu.2).trans h
      · exact hnames name List.mem_cons_self hnull _

theorem isAbsolute_of_rootPath {parts : Location} (hparts : Path.Descends parts) {item : JsonValue}
    {name : String} (h : rootPath ⟨.root, parts⟩ item = .ok name) :
    (Path.ofString name).isAbsolute = true := by
  unfold rootPath at h
  split at h
  · next text =>
    cases h
    have hdirectory : Path.IsRead ⟨.root, parts⟩ := fun s hs => (hparts s hs).1
    have hread := Path.isRead_ofString text
    rw [Path.ofString_render fun s hs => (Path.descends_absolute hdirectory hread s hs).1]
    show Path.isAbsolute (Path.join ⟨.root, parts⟩ (Path.ofString text)) = true
    unfold Path.join
    split
    · next habsolute => exact habsolute
    · rfl
  · cases h

/-- The files that are read lie where their names say. -/
theorem IsLoaded.sources {parts : Location} {project : Project} {u : Host}
    (hloaded : project.IsLoaded r w u parts) {names : List String}
    (hnames : ∀ name ∈ names, name ∈ project.roots) {files : Files} {v v' : Host}
    (hv : w.SameDisk v) (hread : (readSources names).runIn v = (.ok files, v')) :
    w.Sources files.keys := by
  obtain ⟨value, -, hroots⟩ := hloaded.shown
  have hparts := hloaded.descends.of_isPrefix (List.dropLast_prefix parts)
  have habsolute : ∀ name ∈ names, (Path.ofString name).isAbsolute = true := fun name hname => by
    obtain ⟨item, hitem⟩ := rootPath_of_mem_rootsOf hroots name (hnames name hname)
    exact isAbsolute_of_rootPath hparts hitem
  have hplace : ∀ name ∈ names,
      w.placeOf name = Path.collapse (Path.ofString name).parts := fun name hname => by
    unfold Host.placeOf Overlay.placeOf Path.absolute Path.join
    rw [if_pos (habsolute name hname)]
  have hfiles : ∀ name ∈ files.keys, ∃ text, name ∈ names ∧ w.text? name = some text := by
    intro name hname
    obtain ⟨text, hget⟩ := Dict.exists_get?_of_mem_keys hname
    obtain ⟨hmem, htext⟩ := (get?_readSources hread name text).mp hget
    rw [hv.text?_eq] at htext
    exact ⟨text, hmem, htext⟩
  refine ⟨fun name hname s hs hnull => ?_, fun name hname => ?_⟩
  · obtain ⟨text, hmem, -⟩ := hfiles name hname
    rw [hplace name hmem] at hs
    have hclean := noNull_of_readInto hread name hmem
    rw [List.contains_iff_mem.mpr
      (Path.mem_of_mem_ofString (Path.mem_of_mem_collapse hs) hnull)] at hclean
    cases hclean
  · obtain ⟨text, hmem, htext⟩ := hfiles name hname
    obtain ⟨at_, content, hlocate, hget⟩ := Host.file_of_text? htext
    rw [Disk.locate_of_isAbsolute w.disk w.cwd (habsolute name hmem)] at hlocate
    have hroot : Path.Descends ([] : Location) := fun _ hs => nomatch hs
    have hat := Disk.locate_resolve hroot hlocate
    refine ⟨content, ?_⟩
    rw [hplace name hmem, ← hget, hat]
    unfold Path.resolve Path.absolute Path.join
    rw [if_pos (habsolute name hmem)]

end Project

/-! ## 4. Sessions -/

/-- The tools keep an invariant, for files with the given names, and fail in the given ways. -/
structure Toolchain.Keeps (I : Host → Prop) (bad : Failure → Host → Prop)
    (names roots : List String)
    (config : CompilerConfig) (tools : Toolchain Action) : Prop where
  collect : ∀ files v, Dict.keys files = names → I v →
    Ends (fun _ u => I u) bad (tools.collect files roots config) v
  parse : ∀ name text v, I v → Ends (fun _ u => I u) bad (tools.parse name text) v
  note : ∀ progress v, I v → Ends (fun _ u => I u) bad (tools.note progress) v

namespace Session

variable {I : Host → Prop} {bad : Failure → Host → Prop} {names roots : List String}
  {config : CompilerConfig} {tools : Toolchain Action}

theorem ends_parseAll (htools : tools.Keeps I bad names roots config)
    (files : List (String × Text)) {w : Host} (hw : I w) :
    Ends (fun _ v => I v) bad (parseAll tools files) w := by
  induction files generalizing w with
  | nil => exact .pure hw
  | cons entry rest ih =>
    refine .bind (htools.parse _ _ w hw) fun _ v _ hv => ?_
    exact .bind (ih hv) fun _ u _ hu => .pure hu

theorem ends_noteAll (htools : tools.Keeps I bad names roots config) (sites : List Site) {w : Host}
    (hw : I w) : Ends (fun _ v => I v) bad (noteAll tools sites) w := by
  induction sites generalizing w with
  | nil => exact .pure hw
  | cons site rest ih => exact .bind (htools.note _ w hw) fun _ v _ hv => ih hv

/-- A session fails only as its tools do. The names of the files stay the same over all passes. -/
theorem ends_runFrom (htools : tools.Keeps I bad names roots config) (left number : Nat)
    {s : Session} (hs : s.files.keys = names) {w : Host} (hw : I w) :
    Ends (fun _ v => I v) bad (runFrom tools roots config left number s) w := by
  induction left generalizing number s w with
  | zero => exact .pure hw
  | succ left ih =>
    refine .bind (htools.collect s.files w hs hw) fun found v₁ _ hv₁ => ?_
    refine .ite (fun _ => .bind (htools.note _ v₁ hv₁) fun _ v _ hv => .pure hv) fun _ => ?_
    refine .bind (ends_parseAll htools _ hv₁) fun trees v₂ _ hv₂ => ?_
    refine .bind (ends_noteAll htools _ hv₂) fun _ v₃ _ hv₃ => ?_
    refine .bind (htools.note _ v₃ hv₃) fun _ v₄ _ hv₄ => ?_
    refine .ite (fun _ => .pure hv₄) fun _ => ih _ ?_ hv₄
    exact (Pass.growsBy_run number _ _ _).keys_eq.trans hs

theorem ends_run {s : Session} (htools : tools.Keeps I bad s.files.keys roots config) {w : Host}
    (hw : I w) : Ends (fun _ v => I v) bad (run tools roots config s) w :=
  ends_runFrom htools _ 1 rfl hw

end Session

/-! ## 5. Whole requests -/

namespace FixRequest

variable {r : FixRequest} {w : Host}

theorem ends_tools (hanalysis : r.analysis = .compiler) (project : Project) {v : Host} :
    Ends (fun tools u => u = v ∧ ∃ c, Compiler.ofChoice r.choice (some project.directory) = .ok c ∧
      tools = c.tools) (r.Fails w) (r.tools project) v := by
  unfold FixRequest.tools
  rw [hanalysis]
  dsimp only
  cases hc : Compiler.ofChoice r.choice (some project.directory) with
  | error e =>
    have hcommand : r.choice.command? = .error e := by
      unfold Compiler.ofChoice at hc
      cases hchoice : r.choice.command? with
      | error other => rw [hchoice] at hc; cases hc; rfl
      | ok command => rw [hchoice] at hc; cases hc
    exact .bind (.throw (.inr (.command hcommand))) fun _ _ _ h => h
  | ok c => exact ⟨rfl, c, rfl, rfl⟩

theorem directory_of_ofChoice {choice : CompilerChoice} {directory : Option Path} {c : Compiler}
    (h : Compiler.ofChoice choice directory = .ok c) : c.directory = directory := by
  unfold Compiler.ofChoice at h
  cases hchoice : choice.command? with
  | error e => rw [hchoice] at h; cases h
  | ok command => rw [hchoice] at h; cases h; rfl

/-- The tools of a loaded project keep the disk, for the files that were read. -/
theorem keeps_tools (hw : w.WellFormed) {w₁ : Host} (hsame : w.SameDisk w₁)
    (hlaunches : w.Launches w₁ 1) {parts : Location} {project : Project}
    (hloaded : project.IsLoaded r w w₁ parts) {c : Compiler}
    (hc : Compiler.ofChoice r.choice (some project.directory) = .ok c) {roots : List String}
    {files : Files} (hopens : r.Opens w project roots files) (hfiles : w₁.Sources files.keys) :
    c.tools.Keeps w₁.Follows (r.Fails w) files.keys roots project.compiler where
  collect working v hkeys hv := by
    have hup := List.dropLast_prefix parts
    have hdirectory := directory_of_ofChoice hc
    have hparent : project.directory = ⟨.root, parts.dropLast⟩ := by
      rw [Project.directory, hloaded.config]
      rfl
    rw [hparent] at hdirectory
    have hholds : w₁.disk.Holds parts.dropLast := by
      rw [hsame.disk]
      exact hloaded.holds
    refine (Compiler.ends_collect (hw.of_sameDisk hsame) hv hdirectory
      (hloaded.descends.of_isPrefix hup) (hloaded.noNull.of_isPrefix hup) hholds
      (hkeys.symm ▸ hfiles) roots fun p hp => ?_).weaken fun e u h => ?_
    · rw [hloaded.base] at hp
      cases hp
      exact hloaded.noNull.contains_render
    · rw [hkeys, ← hparent] at h
      exact h.imp_right (.of_compiler hsame hlaunches hopens hc)
  parse name text v hv := (Action.ends_parse name text v).mono fun _ _ _ hu => hv.trans hu
  note progress v hv := by
    cases progress <;> exact (Action.ends_note _ _ _ v).mono fun _ _ _ hu =>
      hv.trans (.of_launches hu.1 hu.2)

/-- Analysing a request with the compiler fails only for the user, or as a stray. -/
theorem ends_analyse (hw : w.WellFormed) (hconfig : r.config.IsRead)
    (hanalysis : r.analysis = .compiler) : Ends (fun _ _ => True) (r.Fails w) r.analyse w := by
  refine .bind (Project.ends_load hw hconfig) ?_
  rintro project w₁ hload ⟨⟨parts, hloaded⟩, hlaunches⟩
  have hsame := ((Project.leads_load r.config r.choice).of_run hload).toSameDisk
  have hnull : ∀ name ∈ project.roots, '\x00' ∈ name.toList → ∀ v, r.Fails w .nullInName v :=
    fun name hname hmem v => .inr (.nullShown hload hname hmem)
  refine .bind (Project.ends_select (fun p hp hnull => .inr (.nullGiven (.inr hp) hnull))
    fun name hname hmem => hnull name hname hmem w₁) ?_
  rintro roots _ hselect ⟨rfl, hroots⟩
  refine .bind (Project.ends_readInto fun name hname => hnull name (hroots name hname)) ?_
  intro files w₂ hread hw₂
  refine .bind (Action.ends_note _ _ _ _) fun _ w₃ _ hw₃ => ?_
  refine .bind (ends_tools hanalysis project) ?_
  rintro tools _ - ⟨rfl, c, hc, rfl⟩
  have hopens : r.Opens w project roots files := ⟨hload, hselect, hread⟩
  have hfiles := hloaded.sources hroots hsame hread
  have hkeeps := keeps_tools hw hsame hlaunches hloaded hc hopens (hfiles.of_sameDisk hsame)
  refine .bind (Session.ends_run (s := { files, codes := r.codes, maxPasses := r.maxPasses })
    hkeeps (hw₂.trans (.of_launches hw₃.1 hw₃.2))) ?_
  exact fun _ _ _ _ => .pure trivial

end FixRequest

end ChainGuard
