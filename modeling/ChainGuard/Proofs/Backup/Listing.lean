import ChainGuard.Proofs.Backup.Session

/-!
# Listing and undoing backups

The backups that are listed are those with a manifest, in the reverse order of their names. Undoing
the first one writes its texts back and takes its manifest away, and with that the backup off the
list.

1. `Backup.Listed`, `Backup.runIn_sessions`: the list.
2. `Backup.sessions_eq_ok`: what is known of a list that was given.
3. `Backup.undo_of_sessions`: undoing a complete backup writes its files back.
4. `Backup.Lists.setAside`: the backup comes off the list. `Backup.runIn_undo`: undoing a complete
   backup.
-/

namespace ChainGuard.Backup

/-! ## 1. Lists -/

/-- There is a manifest in the backup of this name. -/
def Listed (project : Location) (disk : Disk) (name : String) : Prop :=
  disk.has (storeAt project ++ [name] ++ ["manifest.json"]) = true

/-- The names of all backups, from the greatest to the least. -/
def descending (names : List String) : List String :=
  names.mergeSort fun a b => decide (b ≤ a)

theorem pairwise_descending (names : List String) :
    (descending names).Pairwise fun a b => b ≤ a := by
  have htrans : ∀ a b c : String, decide (b ≤ a) = true → decide (c ≤ b) = true →
      decide (c ≤ a) = true := by
    intro a b c hab hbc
    rw [decide_eq_true_eq] at hab hbc ⊢
    exact String.le_trans hbc hab
  have htotal : ∀ a b : String, (decide (b ≤ a) || decide (a ≤ b)) = true := by
    intro a b
    rw [Bool.or_eq_true, decide_eq_true_eq, decide_eq_true_eq]
    exact String.le_total b a
  exact (List.pairwise_mergeSort htrans htotal names).imp fun h => of_decide_eq_true h

theorem mem_descending {names : List String} {name : String} :
    name ∈ descending names ↔ name ∈ names :=
  List.mem_mergeSort

/-- A list in strictly falling order is determined by what is in it. -/
theorem eq_of_falling {a b : List String} (ha : a.Pairwise fun x y => y < x)
    (hb : b.Pairwise fun x y => y < x) (h : ∀ name, name ∈ a ↔ name ∈ b) : a = b := by
  have hperm : a.Perm b := by
    rw [List.perm_ext_iff_of_nodup]
    · exact h
    · exact ha.imp fun hlt heq => absurd (heq ▸ hlt) (String.lt_irrefl _)
    · exact hb.imp fun hlt heq => absurd (heq ▸ hlt) (String.lt_irrefl _)
  exact hperm.eq_of_pairwise (fun x y _ _ hxy hyx => absurd hyx (String.lt_asymm hxy)) ha hb

/-- What has to hold of a disk so that the backups of a project can be listed: names are within the
limits, and the directory of the backups is one, if it is there. -/
structure Listable (project : Location) (disk : Disk) : Prop where
  tree : disk.IsTree
  distinct : disk.Distinct
  fits : Path.Fits (storeAt project)
  directory : disk.has (storeAt project) = true → disk.get? (storeAt project) = some .directory
  manifests : ∀ name, disk.has (storeAt project ++ [name]) = true →
    Path.Fits (storeAt project ++ [name] ++ ["manifest.json"])

theorem Listed.has_session {project : Location} {disk : Disk} {name : String}
    (h : Listed project disk name) (hdisk : disk.IsTree) :
    disk.get? (storeAt project ++ [name]) = some .directory := by
  have hparent := hdisk _ h
  rwa [List.dropLast_concat] at hparent

theorem Listed.has_store {project : Location} {disk : Disk} {name : String}
    (h : Listed project disk name) (hdisk : disk.IsTree) :
    disk.get? (storeAt project) = some .directory := by
  have hparent := hdisk _ (Disk.has_of_get? (h.has_session hdisk))
  rwa [List.dropLast_concat] at hparent

/-- The names of the backups with a manifest, from the greatest to the least. -/
structure Lists (project : Location) (names : List String) (disk : Disk) : Prop where
  falling : names.Pairwise fun a b => b < a
  mem : ∀ name, name ∈ names ↔ Listed project disk name

theorem lists_descending {project : Location} {disk : Disk} (htree : disk.IsTree)
    (hdistinct : disk.Distinct) :
    Lists project ((descending (disk.children (storeAt project))).filter fun name =>
      disk.has (storeAt project ++ [name] ++ ["manifest.json"])) disk where
  falling := by
    have hnodup : (descending (disk.children (storeAt project))).Nodup :=
      (List.mergeSort_perm _ _).nodup_iff.mpr (hdistinct.nodup_children _)
    refine List.Pairwise.filter _ (((pairwise_descending _).and hnodup).imp fun ⟨hle, hne⟩ => ?_)
    by_contra hlt
    exact hne (String.le_antisymm (String.not_lt.mp hlt) hle)
  mem name := by
    rw [List.mem_filter, mem_descending, Disk.mem_children]
    exact ⟨And.right, fun h => ⟨Disk.has_of_get? (Listed.has_session h htree), h⟩⟩

theorem Lists.unique {project : Location} {disk : Disk} {a b : List String}
    (ha : Lists project a disk) (hb : Lists project b disk) : a = b :=
  eq_of_falling ha.falling hb.falling fun name => (ha.mem name).trans (hb.mem name).symm

/-- A backup with a greater name than all others comes first on the list. -/
theorem Lists.cons {project : Location} {older : List String} {disk after : Disk} {name : String}
    (h : Lists project older disk)
    (hnew : ∀ other, Listed project after other ↔ other = name ∨ Listed project disk other)
    (hgreatest : ∀ other, Listed project disk other → other < name) :
    Lists project (name :: older) after where
  falling := List.pairwise_cons.mpr
    ⟨fun other hother => hgreatest other ((h.mem other).mp hother), h.falling⟩
  mem other := by rw [List.mem_cons, hnew, h.mem]

/-- The backups with a manifest are listed, from the greatest name to the least. -/
theorem runIn_sessions {project : Location} {w : Host} (hw : Listable project w.disk)
    {names : List String} (h : Lists project names w.disk) :
    (sessions ⟨.root, project⟩).runIn w =
      (.ok (names.map (Path.child ⟨.root, storeAt project⟩)), w) := by
  have hexists := Action.runIn_exists? hw.fits fun h => hw.tree.opensTo h
  cases hhas : w.disk.has (storeAt project) with
  | false =>
    have hnames : names = [] := by
      refine List.eq_nil_iff_forall_not_mem.mpr fun name hname => ?_
      have hstore := ((h.mem name).mp hname).has_store hw.tree
      rw [Disk.has_of_get? hstore] at hhas
      cases hhas
    rw [hhas] at hexists
    refine (Action.runIn_bind_of_ok hexists).trans ?_
    rw [hnames]
    rfl
  | true =>
    have hlist := Action.runIn_list hw.fits (hw.tree.opensTo hhas) (hw.directory hhas)
    rw [hhas] at hexists
    refine (Action.runIn_bind_of_ok hexists).trans ?_
    rw [if_pos rfl]
    refine (Action.runIn_bind_of_ok hlist).trans ?_
    have hfilter : (((descending (w.disk.children (storeAt project))).map
        (Path.child ⟨.root, storeAt project⟩)).filterM fun session =>
          Action.exists? (manifestPath session)).runIn w = _ :=
      Action.runIn_filterM (q := fun session => w.disk.has (session.parts ++ ["manifest.json"]))
        fun session hsession => by
        obtain ⟨name, hname, rfl⟩ := List.mem_map.mp hsession
        rw [mem_descending, Disk.mem_children] at hname
        exact Action.runIn_exists? (hw.manifests name hname) fun h => hw.tree.opensTo h
    refine hfilter.trans ?_
    rw [List.filter_map]
    exact congrArg (fun found => (Except.ok (found.map (Path.child ⟨.root, storeAt project⟩)), w))
      ((lists_descending hw.tree hw.distinct).unique h)

/-! ## 2. Lists that were given -/

def holdsIn (w : Host) (test : Action Bool) : Bool :=
  match (test.runIn w).1 with
  | .ok answer => answer
  | .error _ => false

theorem holdsIn_of_run {w w' : Host} {test : Action Bool} {answer : Bool}
    (h : test.runIn w = (.ok answer, w')) : holdsIn w test = answer := by
  rw [holdsIn, h]

theorem run_of_holdsIn {w : Host} {test : Action Bool} (h : holdsIn w test = true) :
    ∃ w', test.runIn w = (.ok true, w') := by
  unfold holdsIn at h
  rcases hrun : test.runIn w with ⟨result, w'⟩
  rw [hrun] at h
  cases result with
  | error e => cases h
  | ok answer => exact ⟨w', by rw [show answer = true from h]⟩

/-- Of a list that was given: every backup on it has a manifest, and the names fall. A backup with a
manifest that can be asked for is on it. -/
theorem sessions_eq_ok {project : Location} (hproject : Path.Descends project) {found : List Path}
    {w w' : Host} (hw : w.disk.IsTree)
    (hnames : ∀ name, w.disk.has (storeAt project ++ [name]) = true → Path.Descends [name])
    (h : (sessions ⟨.root, project⟩).runIn w = (.ok found, w')) :
    w' = w ∧ ∃ names : List String, found = names.map (Path.child ⟨.root, storeAt project⟩) ∧
      (names.Pairwise fun a b => b ≤ a) ∧ (∀ name ∈ names, Listed project w.disk name) ∧
      ∀ name, Listed project w.disk name →
        Path.Fits (storeAt project ++ [name] ++ ["manifest.json"]) → name ∈ names := by
  have hstore := descends_storeAt hproject
  obtain ⟨there, v, hthere, hrest⟩ := Action.runIn_bind_eq_ok h
  have hv := Action.host_of_exists? hthere
  subst hv
  cases there with
  | false =>
    cases hrest
    refine ⟨rfl, [], rfl, .nil, (fun _ hname => nomatch hname), fun name hlisted hfits => ?_⟩
    have hfitsStore : Path.Fits (storeAt project) :=
      hfits.of_isPrefix (List.append_assoc _ _ _ ▸ List.prefix_append _ _)
    have hexists := Action.runIn_exists? hfitsStore fun h => hw.opensTo h
    rw [Disk.has_of_get? (hlisted.has_store hw)] at hexists
    cases hthere.symm.trans hexists
  | true =>
    obtain ⟨children, u, hlist, hfilter⟩ := Action.runIn_bind_eq_ok hrest
    obtain ⟨rfl, rfl⟩ := Action.list_eq_ok hstore hlist
    obtain ⟨rfl, rfl⟩ := Action.filterM_eq_ok
      (q := fun session => holdsIn u (Action.exists? (manifestPath session)))
      (I := (· = u)) (fun session keep v v' hv hrun => by
        subst hv
        exact ⟨(holdsIn_of_run hrun).symm, Action.host_of_exists? hrun⟩) rfl hfilter
    refine ⟨rfl, _, List.filter_map, ?_, fun name hname => ?_, fun name hlisted hfits => ?_⟩
    · exact (pairwise_descending _).filter _
    · obtain ⟨hchild, hholds⟩ := List.mem_filter.mp hname
      obtain ⟨v, hrun⟩ := run_of_holdsIn hholds
      have hname := hnames name (Disk.mem_children.mp (mem_descending.mp hchild))
      exact (Action.exists?_eq_ok_true
        ((hstore.append hname).append descends_manifestName) hrun).2
    · have hexists := Action.runIn_exists? hfits fun h => hw.opensTo h
      rw [show w'.disk.has _ = true from hlisted] at hexists
      refine List.mem_filter.mpr ⟨?_, holdsIn_of_run hexists⟩
      exact mem_descending.mpr (Disk.mem_children.mpr (Disk.has_of_get? (hlisted.has_session hw)))

theorem leads_sessions (p : Path) : Action.Leads Host.Quiet (sessions p) := by
  have hR := Action.isFrame_quiet
  refine .bind hR (Action.leads_exists? _) fun there => .ite ?_ (.pure hR _)
  refine .bind hR (Action.leads_ask _ _) fun names => ?_
  exact Action.leads_filterM (fun session => Action.leads_exists? _) _

/-- The greatest name with a manifest comes first on a list that was given. -/
theorem sessions_head {project : Location} (hproject : Path.Descends project) {found : List Path}
    {w w' : Host} (hw : w.disk.IsTree)
    (hnames : ∀ name, w.disk.has (storeAt project ++ [name]) = true → Path.Descends [name])
    {name : String} (hlisted : Listed project w.disk name)
    (hfits : Path.Fits (storeAt project ++ [name] ++ ["manifest.json"]))
    (hgreatest : ∀ other, Listed project w.disk other → other ≤ name)
    (h : (sessions ⟨.root, project⟩).runIn w = (.ok found, w')) :
    w' = w ∧ ∃ others, found = ⟨.root, storeAt project ++ [name]⟩ :: others := by
  obtain ⟨hsame, names, rfl, hsorted, hall, hlast⟩ := sessions_eq_ok hproject hw hnames h
  refine ⟨hsame, ?_⟩
  have hmem := hlast name hlisted hfits
  cases names with
  | nil => cases hmem
  | cons first rest =>
    have hfirst : first = name := by
      rcases List.mem_cons.mp hmem with heq | hmem
      · exact heq.symm
      · exact String.le_antisymm (hgreatest first (hall first List.mem_cons_self))
          ((List.pairwise_cons.mp hsorted).1 name hmem)
    exact ⟨rest.map _, by rw [hfirst]; rfl⟩

/-! ## 3. Undoing -/

/-- A complete backup whose files can all be written, none of them near the backup itself. -/
structure Restorable (place : Location) (stamp : String) (files : Files)
    (target : String → Location) (w : Host) : Prop where
  complete : IsComplete place stamp files w.disk
  names : ∀ name ∈ files.keys, (Path.ofString name).render = name
  targets : w.Targets target files.keys
  off : ∀ name ∈ files.keys, ¬Near place (target name)

/-- Saving leaves every file that can be read. -/
theorem Saved.hasFile {project backup : Location} {w v : Host} (h : Saved project backup w v)
    {name : String} {at_ : Location} {content : Bytes} (hfile : w.HasFile name at_ content) :
    v.HasFile name at_ content := by
  have hoff : ¬Covers project backup at_ := fun hat => h.not_file hat content hfile.get?
  exact hfile.mono h.cwd h.keepsDirectories (by rw [h.kept at_ hoff, hfile.get?])

/-- Saving leaves all other backups on the list or off it. -/
theorem Saved.listed_of_ne {project : Location} {name : String} {w v : Host}
    (h : Saved project (storeAt project ++ [name]) w v) {other : String} (hother : other ≠ name) :
    Listed project v.disk other ↔ Listed project w.disk other := by
  have hkept := not_covers_of_ne hother
    (List.prefix_append (storeAt project ++ [other]) ["manifest.json"])
  rw [Listed, Listed, Disk.has, h.kept _ hkept, Disk.has]

theorem Saved.not_listed {project : Location} {name : String} {w v : Host}
    (h : Saved project (storeAt project ++ [name]) w v) : ¬Listed project w.disk name := by
  have hnone := h.fresh _ (List.prefix_append _ ["manifest.json"])
  rw [Listed, Disk.has, hnone]
  exact Bool.false_ne_true

/-- No file that was there lies near the new backup. -/
theorem Saved.not_near {project backup : Location} {w v : Host} (h : Saved project backup w v)
    (hbackup : v.disk.Holds backup) {name : String} {at_ : Location} {content : Bytes}
    (hfile : w.HasFile name at_ content) : ¬Near backup at_ := by
  rintro (habove | hunder)
  · have hdir := hbackup at_ habove
    rw [(h.hasFile hfile).get?] at hdir
    cases hdir
  · have hnone := h.fresh at_ hunder
    rw [hfile.get?] at hnone
    cases hnone

/-- No backup beside this one that has a manifest has a greater name. -/
def IsNewest (session : Path) (disk : Disk) : Prop :=
  ∀ name, disk.has (session.parent.parts ++ [name] ++ ["manifest.json"]) = true →
    name ≤ session.name

theorem isNewest_iff {project : Location} {name : String} {disk : Disk} :
    IsNewest ⟨.root, storeAt project ++ [name]⟩ disk ↔
      ∀ other, Listed project disk other → other ≤ name := by
  unfold IsNewest Path.parent Path.name
  rw [List.dropLast_concat, List.getLast?_concat]
  exact Iff.rfl

/-- The manifest of a backup that is undone moves to its other name. -/
def setAside (place : Location) : Mutation :=
  .rename (place ++ ["manifest.json"]) (place ++ ["manifest.restored.json"])

theorem spares_setAside {place at_ : Location} (hold : at_ ≠ place ++ ["manifest.json"])
    (hnew : at_ ≠ place ++ ["manifest.restored.json"]) : (setAside place).Spares at_ :=
  Mutation.spares_rename hold hnew

theorem Restorable.canWrite {place : Location} {stamp : String} {files : Files}
    {target : String → Location} {w : Host} (h : Restorable place stamp files target w) :
    ∀ name ∈ files.keys, w.CanWrite (Path.ofString name).render (target name) := by
  intro name hname
  obtain ⟨content, hfile⟩ := h.targets name hname
  rw [h.names name hname]
  exact hfile.canWrite

/-- Undoing a complete backup writes its files back and then moves the manifest. -/
theorem undo_of_sessions {project place : Location} {stamp : String} {files : Files}
    {target : String → Location} {others : List Path} {w : Host}
    (h : Restorable place stamp files target w)
    (hsessions : (sessions ⟨.root, project⟩).runIn w = (.ok (⟨.root, place⟩ :: others), w)) :
    (undo ⟨.root, project⟩).runIn w =
      (do
        Action.rename (manifestPath ⟨.root, place⟩) (restoredPath ⟨.root, place⟩)
        pure (entriesFrom ⟨.root, place⟩ stamp 0 files) : Action (List Entry)).runIn
          (w.afterWrites target files) := by
  refine (Action.runIn_bind_of_ok hsessions).trans ?_
  refine (Action.runIn_bind_of_ok (runIn_entries h.complete)).trans ?_
  exact Action.runIn_bind_of_ok
    (runIn_restore h.complete.directory h.complete.saved h.canWrite h.off)

/-- The backup is still there after its files are written back. -/
theorem Restorable.spares {place : Location} {stamp : String} {files : Files}
    {target : String → Location} {w : Host} (h : Restorable place stamp files target w) :
    w.Spares (Near place) (w.afterWrites target files) :=
  Host.spares_afterWrites h.off

/-- The backup is complete as before, since nothing near it was written. -/
theorem Restorable.complete_afterWrites {place : Location} {stamp : String} {files : Files}
    {target : String → Location} {w : Host} (h : Restorable place stamp files target w) :
    IsComplete place stamp files (w.afterWrites target files).disk :=
  h.complete.mono fun _ hat => h.spares.get? hat

/-- Writing back neither makes nor removes a backup. -/
theorem Listable.afterWrites {project place : Location} {stamp : String} {files : Files}
    {target : String → Location} {w : Host} (hw : Listable project w.disk)
    (h : Restorable place stamp files target w) :
    Listable project (w.afterWrites target files).disk where
  tree := h.targets.isTree_afterWrites hw.tree
  distinct := Mutation.distinct_applyAll hw.distinct _
  fits := hw.fits
  directory hhas := by
    rw [h.targets.has_afterWrites] at hhas
    exact h.targets.keepsDirectories_afterWrites _ (hw.directory hhas)
  manifests name hhas := by
    rw [h.targets.has_afterWrites] at hhas
    exact hw.manifests name hhas

theorem Lists.afterWrites {project place : Location} {names : List String} {stamp : String}
    {files : Files} {target : String → Location} {w : Host} (hw : Lists project names w.disk)
    (h : Restorable place stamp files target w) :
    Lists project names (w.afterWrites target files).disk where
  falling := hw.falling
  mem name := by
    rw [hw.mem, Listed, Listed, h.targets.has_afterWrites]

/-! ## 4. Off the list -/

theorem get?_setAside {place : Location} {disk : Disk} {content : Bytes}
    (hmanifest : disk.get? (place ++ ["manifest.json"]) = some (.file content)) :
    ((setAside place).apply disk).get? (place ++ ["manifest.json"]) = none := by
  have hroot : place ++ ["manifest.json"] ≠ [] :=
    List.append_ne_nil_of_right_ne_nil _ (List.cons_ne_nil _ _)
  have happly : (setAside place).apply disk =
      (disk.removeEntry (place ++ ["manifest.json"])).set (place ++ ["manifest.restored.json"])
        (.file content) := Mutation.apply_rename_of_some hmanifest _
  rw [happly, Disk.get?_set_of_ne _ (concat_ne_concat place (by decide)),
    Disk.get?_removeEntry_self hroot]

/-- Setting a manifest aside touches nothing but its two names. -/
theorem get?_setAside_cases (place : Location) (disk : Disk) (at_ : Location) :
    ((setAside place).apply disk).get? at_ = disk.get? at_ ∨
      at_ = place ++ ["manifest.json"] ∨ at_ = place ++ ["manifest.restored.json"] := by
  by_cases hold : at_ = place ++ ["manifest.json"]
  · exact Or.inr (Or.inl hold)
  · by_cases hnew : at_ = place ++ ["manifest.restored.json"]
    · exact Or.inr (Or.inr hnew)
    · exact Or.inl (spares_setAside hold hnew disk)

section

variable {place : Location} {stamp : String} {files : Files} {disk : Disk}

theorem IsComplete.keepsDirectories_setAside (h : IsComplete place stamp files disk) :
    disk.KeepsDirectories ((setAside place).apply disk) := by
  intro at_ hdir
  rcases get?_setAside_cases place disk at_ with heq | rfl | rfl
  · rw [heq, hdir]
  · cases h.manifest.symm.trans hdir
  · cases h.notRestored.symm.trans hdir

theorem IsComplete.isTree_setAside (h : IsComplete place stamp files disk) (hdisk : disk.IsTree) :
    ((setAside place).apply disk).IsTree := by
  intro at_ hhas
  refine h.keepsDirectories_setAside _ ?_
  rcases get?_setAside_cases place disk at_ with heq | rfl | rfl
  · rw [Disk.has, heq] at hhas
    exact hdisk at_ hhas
  · rw [List.dropLast_concat]
    exact h.directory place List.prefix_rfl
  · rw [List.dropLast_concat]
    exact h.directory place List.prefix_rfl

end

section

variable {project : Location} {name stamp : String} {files : Files} {disk : Disk}

theorem has_setAside (project : Location) (disk : Disk) (name other : String) :
    ((setAside (storeAt project ++ [name])).apply disk).has (storeAt project ++ [other]) =
      disk.has (storeAt project ++ [other]) := by
  have hne : ∀ last, storeAt project ++ [other] ≠ storeAt project ++ [name] ++ [last] :=
    fun last heq => absurd (congrArg List.length heq) (by simp)
  rcases get?_setAside_cases (storeAt project ++ [name]) disk (storeAt project ++ [other]) with
    heq | heq | heq
  · rw [Disk.has, heq, Disk.has]
  · exact absurd heq (hne _)
  · exact absurd heq (hne _)

/-- Backups can still be listed when one of them is set aside. -/
theorem Listable.setAside (hdisk : Listable project disk)
    (h : IsComplete (storeAt project ++ [name]) stamp files disk) :
    Listable project ((setAside (storeAt project ++ [name])).apply disk) where
  tree := h.isTree_setAside hdisk.tree
  distinct := Mutation.distinct_apply hdisk.distinct _
  fits := hdisk.fits
  directory _ := h.keepsDirectories_setAside _
    (h.directory _ (List.prefix_append _ _))
  manifests other hhas := by
    rw [has_setAside] at hhas
    exact hdisk.manifests other hhas

/-- The backup that is set aside comes off the list, and all others stay. -/
theorem Lists.setAside {older : List String} (hlists : Lists project (name :: older) disk)
    (h : IsComplete (storeAt project ++ [name]) stamp files disk) :
    Lists project older ((setAside (storeAt project ++ [name])).apply disk) where
  falling := (List.pairwise_cons.mp hlists.falling).2
  mem other := by
    have hgone := get?_setAside h.manifest
    by_cases hother : other = name
    · subst hother
      constructor
      · intro hmem
        exact absurd ((List.pairwise_cons.mp hlists.falling).1 other hmem) (String.lt_irrefl _)
      · intro hlisted
        rw [Listed, Disk.has, hgone] at hlisted
        cases hlisted
    · have hmem : other ∈ older ↔ Listed project disk other := by
        rw [← hlists.mem, List.mem_cons, or_iff_right hother]
      have hne : ∀ last, storeAt project ++ [other] ++ ["manifest.json"] ≠
          storeAt project ++ [name] ++ [last] := by
        intro last heq
        exact concat_ne_concat (storeAt project) hother (List.append_inj' heq rfl).1
      rw [hmem, Listed, Listed, Disk.has, Disk.has]
      rcases get?_setAside_cases (storeAt project ++ [name]) disk
        (storeAt project ++ [other] ++ ["manifest.json"]) with heq | heq | heq
      · rw [heq]
      · exact absurd heq (hne _)
      · exact absurd heq (hne _)

end

/-- Undoing a complete backup stops before a change, or after the files were written back, or with
the manifest moved. -/
theorem undo_cases {project : Location} (hproject : Path.Descends project) {name stamp : String}
    {files : Files} {target : String → Location} {w w' : Host} (hw : w.disk.IsTree)
    (hnames : ∀ other, w.disk.has (storeAt project ++ [other]) = true → Path.Descends [other])
    (h : Restorable (storeAt project ++ [name]) stamp files target w)
    (hgreatest : ∀ other, Listed project w.disk other → other ≤ name)
    {result : Except Failure (List Entry)}
    (hundo : (undo ⟨.root, project⟩).runIn w = (result, w')) :
    w.Quiet w' ∨ w' = w.afterWrites target files ∨
      w' = (w.afterWrites target files).after [setAside (storeAt project ++ [name])] := by
  have hlisted : Listed project w.disk name := Disk.has_of_get? h.complete.manifest
  rcases hsessions : (sessions ⟨.root, project⟩).runIn w with ⟨found, v⟩
  cases found with
  | error e =>
    cases (Action.runIn_bind_of_error hsessions).symm.trans hundo
    exact Or.inl ((leads_sessions _).of_run hsessions)
  | ok found =>
    obtain ⟨rfl, others, rfl⟩ :=
      sessions_head hproject hw hnames hlisted h.complete.fits hgreatest hsessions
    rw [undo_of_sessions h hsessions] at hundo
    have hplace : Path.Descends (storeAt project ++ [name]) :=
      h.complete.fits.descends.of_isPrefix (List.prefix_append _ _)
    rcases Action.rename_cases (hplace.append descends_manifestName)
      (hplace.append descends_restoredName) (v.afterWrites target files) with ⟨e, hrename⟩ | hrename
    · cases (Action.runIn_bind_of_error hrename).symm.trans hundo
      exact Or.inr (Or.inl rfl)
    · cases (Action.runIn_bind_of_ok hrename).symm.trans hundo
      exact Or.inr (Or.inr rfl)

/-- The manifest of a complete backup can be set aside, if its other name is within the limits. -/
theorem IsComplete.runIn_setAside {place : Location} {stamp : String} {files : Files} {w : Host}
    (h : IsComplete place stamp files w.disk)
    (hfits : Path.Fits (place ++ ["manifest.restored.json"])) :
    (Action.rename (manifestPath ⟨.root, place⟩) (restoredPath ⟨.root, place⟩)).runIn w =
      (.ok (), w.after [Backup.setAside place]) := by
  have hnew : w.disk.get? (place ++ ["manifest.restored.json"]) ≠ some .directory := by
    rw [h.notRestored]
    exact fun heq => nomatch heq
  exact Action.runIn_rename h.fits hfits
    (List.append_ne_nil_of_right_ne_nil _ (List.cons_ne_nil _ _)) h.manifest
    (h.directory.opensTo _) hnew (h.directory.opensTo _)

/-- Undoing a complete backup that comes first on the list succeeds, if the other name of its
manifest is within the limits. -/
theorem runIn_undo {project place : Location} {stamp : String} {files : Files}
    {target : String → Location} {others : List Path} {w : Host}
    (h : Restorable place stamp files target w)
    (hfits : Path.Fits (place ++ ["manifest.restored.json"]))
    (hsessions : (sessions ⟨.root, project⟩).runIn w = (.ok (⟨.root, place⟩ :: others), w)) :
    (undo ⟨.root, project⟩).runIn w =
      (.ok (entriesFrom ⟨.root, place⟩ stamp 0 files),
        (w.afterWrites target files).after [setAside place]) := by
  rw [undo_of_sessions h hsessions]
  exact Action.runIn_bind_of_ok (h.complete_afterWrites.runIn_setAside hfits)

/-- Undoing a complete backup fails after the files were written back, if the other name of its
manifest is too long. -/
theorem runIn_undo_of_long {project place : Location} {stamp : String} {files : Files}
    {target : String → Location} {others : List Path} {w : Host}
    (h : Restorable place stamp files target w)
    (hlong : Disk.maxNameBytes < (restoredPath ⟨.root, place⟩).render.utf8ByteSize)
    (hsessions : (sessions ⟨.root, project⟩).runIn w = (.ok (⟨.root, place⟩ :: others), w)) :
    (undo ⟨.root, project⟩).runIn w =
      (.error (.disk ⟨.nameTooLong, (manifestPath ⟨.root, place⟩).render,
        some (restoredPath ⟨.root, place⟩).render⟩), w.afterWrites target files) := by
  have hcomplete := h.complete_afterWrites
  have hplace : Path.Descends place := hcomplete.fits.descends.of_isPrefix (List.prefix_append _ _)
  have hrename := Action.runIn_rename_of_long hcomplete.fits
    (hplace.append descends_restoredName)
    (List.append_ne_nil_of_right_ne_nil _ (List.cons_ne_nil _ _)) hlong hcomplete.manifest
    (hcomplete.directory.opensTo _)
  rw [undo_of_sessions h hsessions]
  exact Action.runIn_bind_of_error hrename

end ChainGuard.Backup
