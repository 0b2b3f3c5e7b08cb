import ChainGuard.Proofs.Project.Recovery

/-!
# Undoing a run

Undoing the newest backup takes back what the live run that made it did. Every changed file gets its
original text, the backup comes off the list, and all else is as it was.

1. `Backup.LeavesRoom`: the names that undoing needs are within the limits.
   `FixRequest.Committed.lists`: the list after a run.
2. Main statement: `FixRequest.undo_inverts_live_run`.
3. `FixRequest.undo_fails_with_long_names`: where the limit on names lets a run through, but not its
   undoing.
-/

namespace ChainGuard

/-! ## 1. Lists after a run -/

/-- The names that undoing a backup needs are within the limit for whole names: the manifests of all
that lies beside it, and the other name of its own manifest. -/
structure Backup.LeavesRoom (session : Path) (disk : Disk) : Prop where
  manifests : ∀ name, disk.has (session.parent.parts ++ [name]) = true →
    (manifestPath (session.parent.child name)).render.utf8ByteSize ≤ Disk.maxNameBytes
  restored : (restoredPath session).render.utf8ByteSize ≤ Disk.maxNameBytes

theorem Backup.LeavesRoom.size_manifest {project : Location} {name other : String} {disk : Disk}
    (h : LeavesRoom ⟨.root, storeAt project ++ [name]⟩ disk)
    (hhas : disk.has (storeAt project ++ [other]) = true) :
    (Path.render ⟨.root, storeAt project ++ [other] ++ ["manifest.json"]⟩).utf8ByteSize ≤
      Disk.maxNameBytes := by
  have hsize := h.manifests other
  unfold Path.parent at hsize
  rw [List.dropLast_concat] at hsize
  exact hsize hhas

namespace FixRequest.Committed

open Backup

variable {project : Location} {name stamp : String} {changed : Dict (Text × Text)}
  {target : String → Location} {w v : Host}

/-- The host after the originals were written back. -/
def restored (changed : Dict (Text × Text)) (target : String → Location) (v : Host) : Host :=
  (written changed target v).afterWrites target (sorted (changed.mapValues Prod.fst))

/-- The backups of a project can be listed after a run. -/
theorem listable (h : Committed project name stamp changed target w v) (hw : w.Sound)
    (hsizes : ∀ other, (written changed target v).disk.has (storeAt project ++ [other]) = true →
      (Path.render ⟨.root, storeAt project ++ [other] ++ ["manifest.json"]⟩).utf8ByteSize ≤
        Disk.maxNameBytes) :
    Listable project (written changed target v).disk where
  tree := h.targets_written.isTree_afterWrites (h.saved.isTree hw.tree)
  distinct := Mutation.distinct_applyAll (h.saved.grows.distinct hw.distinct) _
  fits := h.complete.fits.of_isPrefix
    ((List.prefix_append _ [name]).trans (List.prefix_append _ ["manifest.json"]))
  directory _ := h.restorable.complete.directory _ (List.prefix_append _ [name])
  manifests other hhas := by
    refine ⟨fun s hs => ?_, hsizes other hhas⟩
    rcases List.mem_append.mp hs with hs | hs
    · rcases List.mem_append.mp hs with hs | hs
      · exact h.complete.fits.names s (by simp [hs])
      · cases List.mem_singleton.mp hs
        rw [written, h.targets_written.has_afterWrites] at hhas
        exact h.isName_of_has hw.named hhas
    · exact h.complete.fits.names s (List.mem_append_right _ hs)

/-- Beside the new backup those are listed that were listed before. -/
theorem listed_iff (h : Committed project name stamp changed target w v) (other : String) :
    Listed project (written changed target v).disk other ↔
      other = name ∨ Listed project w.disk other := by
  have hwritten : Listed project (written changed target v).disk other ↔
      Listed project v.disk other := by
    rw [Listed, written, h.targets_written.has_afterWrites, Listed]
  rw [hwritten]
  by_cases hother : other = name
  · subst hother
    exact ⟨fun _ => Or.inl rfl, fun _ => Disk.has_of_get? h.complete.manifest⟩
  · rw [h.saved.listed_of_ne hother, or_iff_right hother]

/-- The new backup comes first on the list, if none before it has a greater name. -/
theorem lists (h : Committed project name stamp changed target w v)
    (hnewest : IsNewest ⟨.root, storeAt project ++ [name]⟩ (written changed target v).disk)
    {older : List String} (hlists : Lists project older w.disk) :
    Lists project (name :: older) (written changed target v).disk := by
  refine hlists.cons h.listed_iff fun other hlisted => ?_
  have hle := isNewest_iff.mp hnewest other ((h.listed_iff other).mpr (Or.inr hlisted))
  have hne : other ≠ name := by
    rintro rfl
    exact h.saved.not_listed hlisted
  by_contra hlt
  exact hne (String.le_antisymm hle (String.not_lt.mp hlt))

/-- With the originals written back, all is as it was but for the backup and the directories that
hold it. -/
theorem get?_restored (h : Committed project name stamp changed target w v) {at_ : Location}
    (hat : ¬Covers project (storeAt project ++ [name]) at_) :
    (restored changed target v).disk.get? at_ = w.disk.get? at_ := by
  by_cases htarget : ∃ file ∈ changed.keys, target file = at_
  · obtain ⟨file, hfile, rfl⟩ := htarget
    obtain ⟨⟨file, old, new⟩, hchange, rfl⟩ := List.mem_map.mp hfile
    rw [restored, (h.hasFile_afterWrites h.restorable hchange).get?,
      (h.files file old new hchange).get?]
  · have hoff : ∀ file ∈ changed.keys, target file ≠ at_ :=
      fun file hfile heq => htarget ⟨file, hfile, heq⟩
    unfold restored written
    rw [Host.get?_afterWrites_of_ne fun file hfile => hoff file (mem_keys_originals.mp hfile),
      Host.get?_afterWrites_of_ne fun file hfile =>
        hoff file (Dict.keys_mapValues _ changed ▸ hfile),
      h.saved.kept at_ hat]

theorem map_render_entriesFrom {session : Path} {index : Nat} {files : Files}
    (hnames : ∀ file ∈ files.keys, (Path.ofString file).render = file) :
    (entriesFrom session stamp index files).map (·.file.render) = files.keys := by
  induction files generalizing index with
  | nil => rfl
  | cons first rest ih =>
    rw [entriesFrom, List.map_cons, ih fun file hfile => hnames file (List.mem_cons_of_mem _ hfile)]
    exact congrArg (· :: _) (hnames first.1 List.mem_cons_self)

/-- Undoing a run whose backup is the newest. -/
theorem undo_eq (h : Committed project name stamp changed target w v) (hw : w.Sound)
    (hnewest : IsNewest ⟨.root, storeAt project ++ [name]⟩ (written changed target v).disk)
    (hroom : LeavesRoom ⟨.root, storeAt project ++ [name]⟩ (written changed target v).disk)
    {older : List String} (hlists : Lists project older w.disk) :
    (undo ⟨.root, project⟩).runIn (written changed target v) =
      (.ok (entriesFrom ⟨.root, storeAt project ++ [name]⟩ stamp 0
          (sorted (changed.mapValues Prod.fst))),
        (restored changed target v).after [setAside (storeAt project ++ [name])]) := by
  have hsessions :=
    runIn_sessions (h.listable hw fun _ => hroom.size_manifest) (h.lists hnewest hlists)
  have hfits : Path.Fits (storeAt project ++ [name] ++ ["manifest.restored.json"]) := by
    refine ⟨fun s hs => ?_, hroom.restored⟩
    rcases List.mem_append.mp hs with hs | hs
    · exact h.complete.fits.names s (List.mem_append_left _ hs)
    · cases List.mem_singleton.mp hs
      decide
  exact runIn_undo h.restorable hfits hsessions

/-- After undoing, the backups are listed that were listed before the run. -/
theorem sessions_undone (h : Committed project name stamp changed target w v) (hw : w.Sound)
    (hnewest : IsNewest ⟨.root, storeAt project ++ [name]⟩ (written changed target v).disk)
    (hroom : LeavesRoom ⟨.root, storeAt project ++ [name]⟩ (written changed target v).disk)
    {older : List String} (hlists : Lists project older w.disk) :
    (sessions ⟨.root, project⟩).runIn
        ((restored changed target v).after [setAside (storeAt project ++ [name])]) =
      (.ok (older.map (Path.child ⟨.root, storeAt project⟩)),
        (restored changed target v).after [setAside (storeAt project ++ [name])]) := by
  have hcomplete := h.restorable.complete_afterWrites
  have hlistable := (h.listable hw fun _ => hroom.size_manifest).afterWrites h.restorable
  have hrestored := (h.lists hnewest hlists).afterWrites h.restorable
  exact runIn_sessions (hlistable.setAside hcomplete) (hrestored.setAside hcomplete)

/-- Undoing a run whose backup is the newest fails, if the other name of the manifest is too long.
By then the originals are written back. -/
theorem undo_of_long (h : Committed project name stamp changed target w v) (hw : w.Sound)
    (hnewest : IsNewest ⟨.root, storeAt project ++ [name]⟩ (written changed target v).disk)
    (hsizes : ∀ other, (written changed target v).disk.has (storeAt project ++ [other]) = true →
      (Path.render ⟨.root, storeAt project ++ [other] ++ ["manifest.json"]⟩).utf8ByteSize ≤
        Disk.maxNameBytes)
    (hlong : Disk.maxNameBytes <
      (restoredPath ⟨.root, storeAt project ++ [name]⟩).render.utf8ByteSize) :
    ∃ e, (undo ⟨.root, project⟩).runIn (written changed target v) =
      (.error e, restored changed target v) := by
  have hlists : Lists project _ w.disk := lists_descending hw.tree hw.distinct
  exact ⟨_, runIn_undo_of_long h.restorable hlong
    (runIn_sessions (h.listable hw hsizes) (h.lists hnewest hlists))⟩

end FixRequest.Committed

/-! ## 2. Undoing -/

namespace FixRequest

open Backup

/-- Undoing inverts a live run. The run has a backup and changes at least one file, and the new
backup has the greatest name of all with a manifest. If the names that undoing needs are within the
limits, undoing gives one entry for each changed file, in the order of their names. Then everything
outside the new backup and the directories that hold it is as it was before the run. The list of
backups has lost exactly the new one. -/
theorem undo_inverts_live_run {r : FixRequest} {w w₁ : Host} {y : FixResult} (hw : w.Sound)
    (hconfig : r.config.IsRead) (hlive : r.dry = false) (hbackup : r.backup = true)
    (hrun : r.run.runIn w = (.ok y, w₁)) (hchanged : y.changed ≠ []) :
    ∃ project v parts session,
      (Project.load r.config r.choice).runIn w = (.ok project, v) ∧
      project.directory = ⟨.root, parts⟩ ∧ y.backup = some session ∧
      session.parent = store project.directory ∧
      (IsNewest session w₁.disk → LeavesRoom session w₁.disk → ∃ entries w₂ others,
        (undo project.directory).runIn w₁ = (.ok entries, w₂) ∧
        entries.map (·.file.render) = y.changed.keys.mergeSort (fun a b => decide (a ≤ b)) ∧
        (∀ at_, ¬Covers parts session.parts at_ → w₂.disk.get? at_ = w.disk.get? at_) ∧
        (sessions project.directory).runIn w₁ = (.ok (session :: others), w₁) ∧
        (sessions project.directory).runIn w₂ = (.ok others, w₂)) := by
  rcases run_cases hw.toWellFormed hconfig hlive hbackup hrun with
    ⟨e, herror, -⟩ | ⟨y', project, parts, v, hy, hload, hdirectory, hend⟩
  · cases herror
  · cases hy
    rcases hend with ⟨hnone, -⟩ | ⟨name, stamp, target, u, -, hsession, h, rfl⟩
    · exact absurd hnone hchanged
    · have hlists : Lists parts _ w.disk := lists_descending hw.tree hw.distinct
      refine ⟨project, v, parts, _, hload, hdirectory, hsession, ?_, fun hnewest hroom => ?_⟩
      · rw [hdirectory, Path.parent, List.dropLast_concat]
        rfl
      · rw [hdirectory]
        refine ⟨_, _, _, h.undo_eq hw hnewest hroom hlists, ?_, fun at_ hat => ?_,
          runIn_sessions (h.listable hw fun _ => hroom.size_manifest) (h.lists hnewest hlists),
          h.sessions_undone hw hnewest hroom hlists⟩
        · rw [Committed.map_render_entriesFrom fun file hfile =>
              h.names file (Committed.mem_keys_originals.mp hfile), keys_sorted,
            Dict.keys_mapValues]
        · have hoff : ∀ last : String, at_ ≠ storeAt parts ++ [name] ++ [last] := by
            rintro last rfl
            exact hat (Or.inr (Or.inr (List.prefix_append _ _)))
          exact (spares_setAside (hoff _) (hoff _) _).trans (h.get?_restored hat)

theorem leavesRoom_keptSession {disk : Disk} (h : disk.map Prod.fst = keptPlaces) :
    LeavesRoom ⟨.root, keptSession⟩ disk where
  manifests name hhas := by
    have hmem := Disk.mem_places_of_has hhas (List.append_ne_nil_of_right_ne_nil _ (by simp))
    rw [h] at hmem
    simp [keptPlaces, keptHost, accessHost, keptSession, Path.parent] at hmem
    rcases hmem with rfl | rfl <;> decide
  restored := by decide

/-- The run on the host with an older backup is undone, and the older backup stays. -/
theorem undo_inverts_kept_run :
    keptHost.Sound ∧ keptRequest.config.IsRead ∧ keptRequest.dry = false ∧
    keptRequest.backup = true ∧ ∃ y w₁ entries w₂ others,
      keptRequest.run.runIn keptHost = (.ok y, w₁) ∧
      y.changed = [("/p/m.ts", ("a.b;".toList, "a?.b;".toList))] ∧
      IsNewest ⟨.root, keptSession⟩ w₁.disk ∧ LeavesRoom ⟨.root, keptSession⟩ w₁.disk ∧
      (undo ⟨.root, ["p"]⟩).runIn w₁ = (.ok entries, w₂) ∧
      entries.map (·.file.render) = ["/p/m.ts"] ∧
      w₂.disk.get? ["p", "m.ts"] = some (.file (Utf8.encode "a.b;".toList)) ∧
      (sessions ⟨.root, ["p"]⟩).runIn w₁ = (.ok (⟨.root, keptSession⟩ :: others), w₁) ∧
      (sessions ⟨.root, ["p"]⟩).runIn w₂ = (.ok others, w₂) := by
  have hw := sound_keptHost
  have hconfig : keptRequest.config.IsRead := Path.isRead_ofString "/p"
  obtain ⟨y, w₁, hrun, hchanged, hbackup, hplaces⟩ := exists_run_keptHost
  have hnewest := isNewest_keptSession hplaces
  have hroom := leavesRoom_keptSession hplaces
  have hne : y.changed ≠ [] := by
    rw [hchanged]
    exact List.cons_ne_nil _ _
  obtain ⟨project, v, parts, session, hload, hdirectory, hsession, -, hundo⟩ :=
    undo_inverts_live_run hw hconfig rfl rfl hrun hne
  cases hbackup.symm.trans hsession
  have hparts : parts = ["p"] := by
    have hdirectory' := directory_keptRequest hload
    rw [hdirectory] at hdirectory'
    exact (Path.mk.inj hdirectory').2
  subst hparts
  rw [hdirectory] at hundo
  obtain ⟨entries, w₂, others, hend, hentries, hkept, hbefore, hafter⟩ := hundo hnewest hroom
  refine ⟨hw, hconfig, rfl, rfl, y, w₁, entries, w₂, others, hrun, hchanged, hnewest, hroom, hend,
    ?_, ?_, hbefore, hafter⟩
  · rw [hentries, hchanged]
    exact List.mergeSort_singleton _
  · rw [hkept ["p", "m.ts"] (by simp [Covers, homeAt, storeAt, homeName, keptSession])]
    rfl

/-! ## 3. Names that are too long -/

def shown : JsonValue :=
  .object [("files", .array [.text "m.ts"])]

/-- A host with the given disk, on which the project of one file is shown. -/
def oneFileHost (disk : Disk) : Host :=
  { accessHost with disk, replies := [fun _ => .finished shown.render [] 0] }

/-- The complaint about the first character of a file. -/
def complaint (name : String) : Diagnostic where
  code := 2532
  file := some name
  offset := some 0

/-- The request to fix a project of one file in one pass, with a complaint about the file. -/
def oneFileRequest (top : Location) : FixRequest where
  config := ⟨.root, top ++ ["tsconfig.json"]⟩
  choice := .words ["tsc"]
  maxPasses := 1
  analysis := .custom fun _ _ => [complaint (Path.render ⟨.root, top ++ ["m.ts"]⟩)]

/-- A project of one file, `a.b;`, and a directory for backups with nothing in it. -/
structure OneFile (top : Location) (disk : Disk) : Prop where
  tree : disk.IsTree
  config : disk.get? (top ++ ["tsconfig.json"]) = some (.file [])
  source : disk.get? (top ++ ["m.ts"]) = some (.file (Utf8.encode "a.b;".toList))
  store : disk.get? (storeAt top) = some .directory
  empty : ∀ name, disk.has (storeAt top ++ [name]) = false

theorem isRead_oneFileRequest {top : Location} (h : Path.Fits (top ++ ["tsconfig.json"])) :
    (oneFileRequest top).config.IsRead :=
  fun s hs => (h.descends s hs).1

theorem wellFormed_oneFileHost {top : Location} {disk : Disk} (h : OneFile top disk) :
    (oneFileHost disk).WellFormed :=
  ⟨h.tree, fun _ hs => nomatch hs⟩

theorem runIn_locateConfig {parts : List String} (h : Path.Fits parts) {w : Host} {content : Bytes}
    (hopens : w.disk.OpensTo parts) (hget : w.disk.get? parts = some (.file content)) :
    (Project.locateConfig ⟨.root, parts⟩).runIn w = (.ok ⟨.root, parts⟩, w) := by
  have hdirectory := Action.runIn_isDirectory h fun _ => hopens
  have hfile := Action.runIn_isFile h fun _ => hopens
  rw [Disk.isDirectory, hget] at hdirectory
  rw [Disk.isFile, hget] at hfile
  refine (Action.runIn_bind_of_ok (Action.runIn_resolve h w)).trans ?_
  refine (Action.runIn_bind_of_ok hdirectory).trans ?_
  exact Action.runIn_bind_of_ok hfile

theorem isPlain_shown (levels : Nat) : shown.IsPlain (levels + 2) := by
  refine .object (by decide) fun member hmember => ?_
  cases List.mem_singleton.mp hmember
  refine .array fun item hitem => ?_
  cases List.mem_singleton.mp hitem
  exact .text _ _

theorem runIn_showConfig (disk : Disk) (p : Path) : ∃ u,
    (Project.showConfig (.words ["tsc"]) p).runIn (oneFileHost disk) = (.ok shown, u) ∧
      (oneFileHost disk).Quiet u ∧ u.parser = fun _ _ _ => accessTree := by
  have hcommand : (Compiler.resolveCommand (.words ["tsc"]) (some p.parent)).runIn
      (oneFileHost disk) = (.ok ["tsc"], oneFileHost disk) := rfl
  obtain ⟨u, hrun, hquiet, hparser⟩ : ∃ u,
      (Compiler.run ["tsc"] ["-p", p.render, "--showConfig"] p.parent).runIn (oneFileHost disk) =
        (.ok ⟨shown.render, [], 0⟩, u) ∧ (oneFileHost disk).Quiet u ∧
          u.parser = fun _ _ _ => accessTree :=
    ⟨_, rfl, ⟨⟨rfl, rfl⟩, rfl, rfl⟩, rfl⟩
  refine ⟨u, ?_, hquiet, hparser⟩
  refine (Action.runIn_bind_of_ok hcommand).trans ((Action.runIn_bind_of_ok hrun).trans ?_)
  have hread : JsonValue.read u.levels shown.render = .ok shown :=
    (isPlain_shown u.spareLevels).read_render
  rw [if_neg (by decide), Action.runIn_bind_of_ok (Action.runIn_readJson _ u), hread]
  rfl

theorem rootsOf_shown {top : Location} (htop : Path.Descends top) :
    Project.rootsOf ⟨.root, top⟩ shown = .ok [Path.render ⟨.root, top ++ ["m.ts"]⟩] := by
  have hm : Path.Descends ["m.ts"] := Path.descends_singleton (by decide) (by decide)
  have hname : Path.ofString "m.ts" = ⟨.relative, ["m.ts"]⟩ := by decide
  have habsolute : Path.absolute ⟨.root, top⟩ (Path.ofString "m.ts") =
      ⟨.root, top ++ ["m.ts"]⟩ := by
    rw [hname]
    exact congrArg (Path.mk .root) (Path.collapse_of_descends (htop.append hm))
  show Except.ok [(Path.absolute ⟨.root, top⟩ (Path.ofString "m.ts")).render] = _
  rw [habsolute]

theorem runIn_load {top : Location} {disk : Disk} (hdisk : OneFile top disk)
    (hfits : Path.Fits (top ++ ["tsconfig.json"])) : ∃ project u,
    (Project.load (oneFileRequest top).config (oneFileRequest top).choice).runIn
        (oneFileHost disk) = (.ok project, u) ∧ project.directory = ⟨.root, top⟩ ∧
      project.roots = [Path.render ⟨.root, top ++ ["m.ts"]⟩] ∧
      (oneFileHost disk).Quiet u ∧ u.parser = fun _ _ _ => accessTree := by
  have hlocate := runIn_locateConfig (w := oneFileHost disk) hfits
    (hdisk.tree.opensTo (Disk.has_of_get? hdisk.config)) hdisk.config
  obtain ⟨u, hshow, hquiet, hparser⟩ := runIn_showConfig disk ⟨.root, top ++ ["tsconfig.json"]⟩
  have hparent : Path.parent ⟨.root, top ++ ["tsconfig.json"]⟩ = ⟨.root, top⟩ := by
    rw [Path.parent, List.dropLast_concat]
  have hlift : (Action.lift (Project.rootsOf (Path.parent ⟨.root, top ++ ["tsconfig.json"]⟩)
      shown)).runIn u = (.ok [Path.render ⟨.root, top ++ ["m.ts"]⟩], u) := by
    rw [Action.runIn_lift, hparent,
      rootsOf_shown (hfits.descends.of_isPrefix (List.prefix_append _ _))]
  refine ⟨_, _, (Action.runIn_bind_of_ok hlocate).trans ((Action.runIn_bind_of_ok hshow).trans
    ((Action.runIn_bind_of_ok hlift).trans rfl)), hparent, rfl, hquiet.trans ?_, hparser⟩
  exact ⟨⟨rfl, rfl⟩, rfl, rfl⟩

theorem fix?_access : (Source.mk "a.b;".toList accessTree).fix? 2532 0 =
    some (Edit.replaceByMarker 1) := by
  decide +kernel

theorem applyAll_access :
    Edit.applyAll "a.b;".toList [Edit.replaceByMarker 1] = "a?.b;".toList := by
  decide +kernel

theorem run_access (name : String) :
    Pass.run 1 [(name, "a.b;".toList)] [(name, accessTree)] [⟨2532, name, 0⟩] =
      ⟨[(name, "a?.b;".toList)], ⟨1, 1, 1, 0, [name]⟩, []⟩ := by
  have hjudge : Pass.judge [(name, "a.b;".toList)] [(name, accessTree)] ⟨2532, name, 0⟩ =
      .fix (Edit.replaceByMarker 1) := by
    unfold Pass.judge
    rw [Dict.get?_cons, if_pos rfl, Dict.get?_cons, if_pos rfl]
    dsimp only
    rw [fix?_access]
  have hedit : Pass.editFiles [(name, "a.b;".toList)] [(name, [Edit.replaceByMarker 1])] =
      ⟨[(name, "a?.b;".toList)], 1, [name]⟩ := by
    have hdistinct : Edit.distinct [Edit.replaceByMarker 1] = [Edit.replaceByMarker 1] := by
      decide +kernel
    show Pass.editFile ⟨[(name, "a.b;".toList)], 0, []⟩ name [Edit.replaceByMarker 1] = _
    unfold Pass.editFile
    rw [Dict.get?_cons, if_pos rfl]
    dsimp only
    rw [hdistinct, applyAll_access, if_neg (by decide)]
    simp [Dict.set]
  unfold Pass.run
  rw [List.map_singleton, hjudge]
  show Pass.Outcome.mk (Pass.editFiles _ [(name, [Edit.replaceByMarker 1])]).files _ _ = _
  rw [show Pass.batches [(⟨2532, name, 0⟩, .fix (Edit.replaceByMarker 1))] =
    [(name, [Edit.replaceByMarker 1])] from rfl, hedit]
  rfl

def complaining (name : String) : Toolchain Action where
  collect files _ _ := ask (fun _ _ => [complaint name]) files
  parse := Action.parse
  note := Compiler.noteProgress

/-- A session over the one file gives the edited text. -/
theorem runIn_session {name : String} (roots : List String) (config : CompilerConfig) {w : Host}
    (hparser : w.parser = fun _ _ _ => accessTree) : ∃ session v,
    (Session.run (complaining name) roots config
      { files := [(name, "a.b;".toList)], maxPasses := 1 }).runIn w = (.ok session, v) ∧
      session.files = [(name, "a?.b;".toList)] ∧ w.Quiet v := by
  have hcollect : ((complaining name).collect [(name, "a.b;".toList)] roots config).runIn w =
      (.ok [complaint name], { w with analyses := w.analyses + 1 }) := rfl
  have hfiles : Pass.filesToParse [(name, "a.b;".toList)] [⟨2532, name, 0⟩] =
      [(name, "a.b;".toList)] := by
    show List.filterMap (fun other => (Dict.get? [(name, "a.b;".toList)] other).map fun text =>
      (other, text)) [name] = _
    simp [Dict.get?_cons]
  have hparse : (Session.parseAll (complaining name) [(name, "a.b;".toList)]).runIn
      { w with analyses := w.analyses + 1 } = (.ok [(name, accessTree)],
        { w with analyses := w.analyses + 1
                 parses := w.parses.set name ((w.parses.get? name).getD 0 + 1) }) := by
    show (Except.ok [(name, w.parser name _ _)], _) = _
    rw [hparser]
    rfl
  have hsites : [complaint name].filterMap (Diagnostic.site? Diagnostic.defaultCodes) =
      [⟨2532, name, 0⟩] := rfl
  unfold Session.run
  rw [show Int.toNat 1 = 0 + 1 from rfl, Session.runFrom, Action.runIn_bind_of_ok hcollect]
  dsimp only
  rw [hsites, List.isEmpty_cons, if_neg Bool.false_ne_true, hfiles,
    Action.runIn_bind_of_ok hparse, run_access]
  exact ⟨_, _, rfl, rfl, ⟨⟨rfl, rfl⟩, rfl, rfl⟩⟩

theorem exists_note (level : Level) (source text : String) (w : Host) : ∃ v,
    (Action.note level source text).runIn w = (.ok (), v) ∧ w.Quiet v ∧ v.parser = w.parser :=
  ⟨{ w with log := w.log ++ [⟨level, source, text⟩] }, rfl, ⟨⟨rfl, rfl⟩, rfl, rfl⟩, rfl⟩

theorem analyse_oneFileRequest {top : Location} {disk : Disk} (hdisk : OneFile top disk)
    (hconfig : Path.Fits (top ++ ["tsconfig.json"])) (hsource : Path.Fits (top ++ ["m.ts"])) :
    ∃ a v, (oneFileRequest top).analyse.runIn (oneFileHost disk) = (.ok a, v) ∧
      a.project.directory = ⟨.root, top⟩ ∧ a.changed =
        [(Path.render ⟨.root, top ++ ["m.ts"]⟩, ("a.b;".toList, "a?.b;".toList))] ∧
      (oneFileHost disk).Quiet v := by
  obtain ⟨project, u, hload, hdirectory, hroots, hquiet, hparser⟩ := runIn_load hdisk hconfig
  have hselect : (Project.select project.roots (oneFileRequest top).directory).runIn u =
      (.ok [Path.render ⟨.root, top ++ ["m.ts"]⟩], u) := by
    rw [hroots]
    rfl
  have hfile := (Host.hasFile_render (w := oneFileHost disk) hsource
    (hdisk.tree.opensTo (Disk.has_of_get? hdisk.source)) hdisk.source).of_sameDisk
      hquiet.toSameDisk
  have hsources : (Project.readSources [Path.render ⟨.root, top ++ ["m.ts"]⟩]).runIn u =
      (.ok [(Path.render ⟨.root, top ++ ["m.ts"]⟩, "a.b;".toList)], u) := by
    have hattempt := Action.runIn_attempt
      (Action.readText (Path.render ⟨.root, top ++ ["m.ts"]⟩)) u
    rw [Action.runIn_readText hfile (Utf8.decode_encode _)] at hattempt
    exact Action.runIn_bind_of_ok hattempt
  obtain ⟨v, hnote, hquiet', hparser'⟩ := exists_note .info "chainfix.fix.project"
    s!"Fixing {1} file(s) from {project.configPath.render}" u
  have htools : ((oneFileRequest top).tools project).runIn v =
      (.ok (complaining (Path.render ⟨.root, top ++ ["m.ts"]⟩)), v) := rfl
  obtain ⟨session, v', hsession, hfiles, hquiet''⟩ := runIn_session
    [Path.render ⟨.root, top ++ ["m.ts"]⟩] project.compiler (hparser'.trans hparser)
  refine ⟨_, v', (Action.runIn_bind_of_ok hload).trans ((Action.runIn_bind_of_ok hselect).trans
    ((Action.runIn_bind_of_ok hsources).trans ((Action.runIn_bind_of_ok hnote).trans
    ((Action.runIn_bind_of_ok htools).trans (Action.runIn_bind_of_ok hsession))))),
    hdirectory, ?_, (hquiet.trans hquiet').trans hquiet''⟩
  show changes _ session.files = _
  rw [hfiles, changes_cons, Dict.get?_cons, if_pos rfl]
  exact if_neg (by decide)

theorem backupName_source {top : Location} (htop : Path.Descends top) :
    backupName 0 (Path.render ⟨.root, top ++ ["m.ts"]⟩) = "0000-m.ts.bak" := by
  have hm : Path.Descends ["m.ts"] := Path.descends_singleton (by decide) (by decide)
  have hpath : Path.ofString (Path.render ⟨.root, top ++ ["m.ts"]⟩) = ⟨.root, top ++ ["m.ts"]⟩ :=
    Path.ofString_render fun s hs => ((htop.append hm) s hs).1
  unfold backupName
  rw [hpath, Path.name, List.getLast?_concat]
  decide

/-- The text of the only file can be saved, if the backup has room. -/
theorem exists_save_oneFile {top : Location} {disk : Disk} (hdisk : OneFile top disk)
    (htop : Path.Descends top)
    (hfits : ∀ last ∈ ["manifest.json", "0000-m.ts.bak"],
      Path.Fits (storeAt top ++ ["2024-01-01T00-00-00"] ++ [last]))
    {v : Host} (hv : v.disk = disk) (hstamp : v.clock.stamp = "2024-01-01T00-00-00")
    {files : Files} (hfiles : sorted files =
      [(Path.render ⟨.root, top ++ ["m.ts"]⟩, "a.b;".toList)]) :
    ∃ u, (save ⟨.root, top⟩ files).runIn v =
      (.ok ⟨.root, storeAt top ++ [v.clock.stamp]⟩, u) := by
  refine runIn_save ?_ ?_ ?_ ?_ fun i name text hfile => ?_
  · rw [hv]
    exact hdisk.tree
  · rw [hv]
    exact hdisk.tree.holds hdisk.store
  · rw [hv]
    exact hdisk.empty _
  · rw [hstamp]
    exact hfits _ (by simp)
  · rw [hfiles] at hfile
    cases i with
    | zero =>
      cases hfile
      rw [hstamp, backupName_source htop]
      exact hfits _ (by simp)
    | succ i => cases hfile

/-- A live run on the project succeeds, if its backup has room. -/
theorem exists_run_oneFileRequest {top : Location} {disk : Disk} (hdisk : OneFile top disk)
    (hfits : ∀ last ∈ ["manifest.json", "0000-m.ts.bak"],
      Path.Fits (storeAt top ++ ["2024-01-01T00-00-00"] ++ [last]))
    (hconfig : Path.Fits (top ++ ["tsconfig.json"])) (hsource : Path.Fits (top ++ ["m.ts"])) :
    ∃ y w₁, (oneFileRequest top).run.runIn (oneFileHost disk) = (.ok y, w₁) ∧ y.changed ≠ [] ∧
      y.backup = some ⟨.root, storeAt top ++ ["2024-01-01T00-00-00"]⟩ ∧
      ∃ stamp target u, w₁ = Committed.written y.changed target u ∧
        Committed top "2024-01-01T00-00-00" stamp y.changed target (oneFileHost disk) u := by
  have htop : Path.Descends top := hsource.descends.of_isPrefix (List.prefix_append _ _)
  obtain ⟨a, v, hanalyse, hdirectory, hchanged, hquiet⟩ :=
    analyse_oneFileRequest hdisk hconfig hsource
  have hstamp : v.clock.stamp = "2024-01-01T00-00-00" := by
    have hclock : accessHost.clock.stamp = "2024-01-01T00-00-00" := by decide
    rw [hquiet.clock]
    exact hclock
  have hsorted : sorted (a.changed.mapValues Prod.fst) =
      [(Path.render ⟨.root, top ++ ["m.ts"]⟩, "a.b;".toList)] := by
    rw [hchanged]
    exact List.mergeSort_singleton _
  obtain ⟨u, hsave⟩ := exists_save_oneFile hdisk htop hfits hquiet.disk hstamp hsorted
  obtain ⟨target, hfiles, hnames⟩ := (analyse_eq_ok hanalyse).exists_target
    (wellFormed_oneFileHost hdisk) (isRead_oneFileRequest hconfig)
  have hne : a.changed ≠ [] := by
    rw [hchanged]
    exact List.cons_ne_nil _ _
  obtain ⟨name, stamp, hp, hcommitted, hcommit⟩ := commit_of_save (r := oneFileRequest top) rfl rfl
    hdirectory htop hne (hquiet.disk ▸ hdisk.tree)
    (fun file old new hentry => (hfiles file old new hentry).of_sameDisk hquiet.toSameDisk)
    hnames hsave
  rw [hstamp] at hp hcommit
  cases List.singleton_inj.mp (List.append_cancel_left (Path.mk.inj hp).2)
  exact ⟨_, _, (Action.runIn_bind_of_ok hanalyse).trans (Action.runIn_bind_of_ok hcommit), hne, rfl,
    stamp, target, u, rfl, hcommitted.of_sameDisk hquiet.toSameDisk (hquiet.spares _) hfiles⟩

/-- In a project whose directory for backups was empty, the new backup is the only one. -/
theorem Committed.eq_of_has {project : Location} {name stamp : String}
    {changed : Dict (Text × Text)} {target : String → Location} {w v : Host}
    (h : Committed project name stamp changed target w v)
    (hempty : ∀ other, w.disk.has (storeAt project ++ [other]) = false) {other : String}
    (hhas : (written changed target v).disk.has (storeAt project ++ [other]) = true) :
    other = name := by
  by_contra hother
  have hkept := not_covers_of_ne hother (List.prefix_rfl : storeAt project ++ [other] <+: _)
  rw [written, h.targets_written.has_afterWrites, Disk.has, h.saved.kept _ hkept] at hhas
  cases (hempty other).symm.trans hhas

/-- A directory whose name takes 4040 bytes. -/
def deepTop : Location :=
  List.replicate 20 (String.ofList (List.replicate 201 'd'))

def deepDisk : Disk :=
  (List.range 20).map (fun k => (deepTop.take (k + 1), Entry.directory)) ++
    [(deepTop ++ ["tsconfig.json"], .file []),
      (deepTop ++ ["m.ts"], .file (Utf8.encode "a.b;".toList)), (homeAt deepTop, .directory),
      (storeAt deepTop, .directory)]

theorem oneFile_deepDisk : OneFile deepTop deepDisk where
  tree := by decide +kernel
  config := by decide +kernel
  source := by decide +kernel
  store := by decide +kernel
  empty name := by
    have hnone : deepDisk.children (storeAt deepTop) = [] := by decide +kernel
    rw [Bool.eq_false_iff]
    intro hhas
    have hmem := Disk.mem_children.mpr hhas
    rw [hnone] at hmem
    cases hmem

theorem sound_deepDisk : (oneFileHost deepDisk).Sound where
  tree := oneFile_deepDisk.tree
  cwd := fun _ h => nomatch h
  distinct := by
    show deepDisk.Distinct
    decide +kernel
  named := by
    show deepDisk.Named
    decide +kernel

theorem size_deepTop {rest : List String} (hrest : rest ≠ []) :
    (Path.render ⟨.root, deepTop ++ rest⟩).utf8ByteSize =
      4040 + (rest.map (·.utf8ByteSize + 1)).sum := by
  have htop : (deepTop.map (·.utf8ByteSize + 1)).sum = 4040 := by decide +kernel
  rw [Path.size_render (List.append_ne_nil_of_right_ne_nil _ hrest), List.map_append,
    List.sum_append, htop]

theorem fits_deepTop {rest : List String} (hrest : rest ≠ []) (hnames : ∀ s ∈ rest, Path.IsName s)
    (hsize : (rest.map (·.utf8ByteSize + 1)).sum ≤ 55) : Path.Fits (deepTop ++ rest) where
  names s hs := by
    rcases List.mem_append.mp hs with hs | hs
    · have htop : ∀ s ∈ deepTop, Path.IsName s := by decide +kernel
      exact htop s hs
    · exact hnames s hs
  size := by
    rw [size_deepTop hrest]
    exact Nat.add_le_add_left hsize 4040

/-- In the deep directory a run succeeds and its backup is the newest, but undoing it fails: the
name of the manifest just fits, and its other name does not. -/
theorem undo_fails_with_long_names :
    (oneFileHost deepDisk).Sound ∧ (oneFileRequest deepTop).config.IsRead ∧
    (oneFileRequest deepTop).dry = false ∧ (oneFileRequest deepTop).backup = true ∧
    ∃ y w₁ session, (oneFileRequest deepTop).run.runIn (oneFileHost deepDisk) = (.ok y, w₁) ∧
      y.changed ≠ [] ∧ y.backup = some session ∧ session.parent = store ⟨.root, deepTop⟩ ∧
      IsNewest session w₁.disk ∧
      ∀ entries w₂, (undo ⟨.root, deepTop⟩).runIn w₁ ≠ (.ok entries, w₂) := by
  have hconfig : Path.Fits (deepTop ++ ["tsconfig.json"]) :=
    fits_deepTop (by simp) (by decide) (by decide)
  have hsource : Path.Fits (deepTop ++ ["m.ts"]) := fits_deepTop (by simp) (by decide) (by decide)
  have hbelow : ∀ last : String, storeAt deepTop ++ ["2024-01-01T00-00-00"] ++ [last] =
      deepTop ++ [".chainfix", "backups", "2024-01-01T00-00-00", last] := by
    intro last
    rw [storeAt, homeAt, List.append_assoc, List.append_assoc, List.append_assoc]
    rfl
  have hfits : ∀ last ∈ ["manifest.json", "0000-m.ts.bak"],
      Path.Fits (storeAt deepTop ++ ["2024-01-01T00-00-00"] ++ [last]) := by
    intro last hlast
    rw [hbelow]
    simp only [List.mem_cons, List.not_mem_nil, or_false] at hlast
    rcases hlast with rfl | rfl <;> exact fits_deepTop (by simp) (by decide) (by decide)
  have hlong : Disk.maxNameBytes < (Path.render ⟨.root,
      storeAt deepTop ++ ["2024-01-01T00-00-00"] ++ ["manifest.restored.json"]⟩).utf8ByteSize := by
    rw [hbelow, size_deepTop (by simp)]
    decide
  obtain ⟨y, w₁, hrun, hchanged, hbackup, stamp, target, u, rfl, h⟩ :=
    exists_run_oneFileRequest oneFile_deepDisk hfits hconfig hsource
  have hnewest : IsNewest ⟨.root, storeAt deepTop ++ ["2024-01-01T00-00-00"]⟩
      (Committed.written y.changed target u).disk := by
    have htree := h.targets_written.isTree_afterWrites (h.saved.isTree sound_deepDisk.tree)
    refine isNewest_iff.mpr fun other hother => ?_
    cases h.eq_of_has oneFile_deepDisk.empty (Disk.has_of_get? (hother.has_session htree))
    exact String.le_refl _
  obtain ⟨e, hundo⟩ := h.undo_of_long sound_deepDisk hnewest (fun other hhas => by
    cases h.eq_of_has oneFile_deepDisk.empty hhas
    exact (hfits "manifest.json" (by simp)).size) hlong
  refine ⟨sound_deepDisk, isRead_oneFileRequest hconfig, rfl, rfl, y, _, _, hrun, hchanged, hbackup,
    ?_, hnewest, fun entries w₂ heq => ?_⟩
  · rw [Path.parent, List.dropLast_concat]
    rfl
  · cases hundo.symm.trans heq

end FixRequest

end ChainGuard
