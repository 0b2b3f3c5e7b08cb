import ChainGuard.Proofs.Backup.Order

/-!
# Saving is faithful

Saving a backup takes a name that is free, loses nothing, and keeps every text: the manifest gives
one entry for each file, in the order of their names, and the text of each can be read again. The
project may be given by any path, also by a relative one.

1. `Backup.freeSession_finds`: the search for a free name. `Backup.fewer_taken`: it ends, as there
   are fewer taken names than entries on the disk.
2. `Backup.MadeAt`, `Backup.prepare_eq_ok`: the directory that is made for it.
   `Backup.fill_stores`: what is put into it.
3. `Backup.Faithful`, `Backup.save_is_faithful`: the backup as it is found afterwards.
-/

namespace ChainGuard

namespace Backup

/-! ## 1. The name of a backup -/

theorem sessionName_injective (stamp : String) : Function.Injective (sessionName stamp) := by
  intro j k h
  rw [← String.toList_inj, toList_sessionName, toList_sessionName,
    List.append_cancel_left_eq] at h
  cases j with
  | zero => cases k with
    | zero => rfl
    | succ k => cases h
  | succ j => cases k with
    | zero => cases h
    | succ k =>
      have hdigits := congrArg (Nat.ofDigitChars 10 · 0) (List.cons.inj h).2
      simpa only [Nat.ofDigitChars_ten_toDigits] using hdigits

/-- The names before the one that is found are taken. It is free itself, unless it is the last one
that may be tried. -/
theorem freeSession_finds {directory p : Path} {stamp : String} {fuel n : Nat} {w w' : Host}
    (h : (freeSession directory stamp fuel n).runIn w = (.ok p, w')) : w' = w ∧
      ∃ k, p = directory.child (sessionName stamp k) ∧
        (∀ j, n ≤ j → j < k →
          (Action.exists? (directory.child (sessionName stamp j))).runIn w = (.ok true, w)) ∧
        ((Action.exists? p).runIn w = (.ok false, w) ∨ k = n + fuel) := by
  induction fuel generalizing n with
  | zero =>
    cases h
    exact ⟨rfl, n, rfl, fun j hn hk => absurd hn (Nat.not_le.mpr hk), Or.inr rfl⟩
  | succ fuel ih =>
    obtain ⟨there, v, hthere, hend⟩ := Action.runIn_bind_eq_ok h
    cases Action.host_of_exists? hthere
    cases there with
    | true =>
      obtain ⟨hsame, k, hp, htaken, hlast⟩ := ih hend
      refine ⟨hsame, k, hp, fun j hn hk => ?_, hlast.imp_right fun heq => by omega⟩
      rcases Nat.eq_or_lt_of_le hn with rfl | hn
      · exact hthere
      · exact htaken j hn hk
    | false =>
      cases hend
      exact ⟨rfl, n, rfl, fun j hn hk => absurd hn (Nat.not_le.mpr hk), Or.inl hthere⟩

theorem enters_of_taken {directory : Path} (hdirectory : directory.IsRead) {c : Clock} {j : Nat}
    {w : Host} (h : (Action.exists? (directory.child (sessionName c.stamp j))).runIn w =
      (.ok true, w)) : ∃ place, w.disk.Enters w.cwd directory place ∧
        w.disk.has (place ++ [sessionName c.stamp j]) = true := by
  obtain ⟨-, at_, hlocate, hhas⟩ := Action.locate_of_exists? h
  obtain ⟨place, henters, rfl⟩ :=
    Disk.locate_child_eq_ok hdirectory (descends_sessionName c j) hlocate
  exact ⟨place, henters, hhas⟩

/-- There are fewer taken names than entries on the disk, as the directory itself is one of the
entries. -/
theorem fewer_taken {above : Path} {last : String} (habove : above.IsRead)
    (hlast : Path.Descends [last]) {c : Clock} {n : Nat} {w : Host} (hn : 0 < n)
    (h : ∀ j < n, (Action.exists? ((above.child last).child (sessionName c.stamp j))).runIn w =
      (.ok true, w)) : n < w.disk.length := by
  have hread : (above.child last).IsRead := habove.child (hlast last List.mem_cons_self).1
  obtain ⟨place, henters, -⟩ := enters_of_taken hread (h 0 hn)
  have hplace : place ≠ [] := by
    obtain ⟨front, -, -, rfl⟩ := Disk.walk_concat_eq_ok hlast henters.walked
    exact List.append_ne_nil_of_right_ne_nil _ (List.cons_ne_nil _ _)
  let taken := (List.range n).map fun j => place ++ [sessionName c.stamp j]
  have hsubset : place :: taken ⊆ w.disk.map Prod.fst := by
    refine List.cons_subset.mpr ⟨?_, fun at_ hat => ?_⟩
    · exact Disk.mem_places_of_has (Disk.has_of_get? henters.directory) hplace
    · obtain ⟨j, hj, rfl⟩ := List.mem_map.mp hat
      obtain ⟨other, hother, hhas⟩ := enters_of_taken hread (h j (List.mem_range.mp hj))
      rw [henters.unique hother] at hhas
      exact Disk.mem_places_of_has hhas
        (List.append_ne_nil_of_right_ne_nil _ (List.cons_ne_nil _ _))
  have hnodup : (place :: taken).Nodup := by
    refine List.nodup_cons.mpr ⟨fun hmem => ?_, List.nodup_range.map fun i j heq => ?_⟩
    · obtain ⟨j, -, heq⟩ := List.mem_map.mp hmem
      exact absurd (congrArg List.length heq) (by simp)
    · exact sessionName_injective c.stamp
        (List.singleton_inj.mp (List.append_cancel_left heq))
  have hlength := (hnodup.subperm hsubset).length_le
  simp only [taken, List.length_cons, List.length_map, List.length_range] at hlength
  omega

/-- The search for a free name ends at one. -/
theorem freeSession_isFree {above p : Path} {last : String} (habove : above.IsRead)
    (hlast : Path.Descends [last]) {c : Clock} {w w' : Host} (hdisk : 0 < w.disk.length)
    (h : (freeSession (above.child last) c.stamp w.disk.length 0).runIn w = (.ok p, w')) :
    w' = w ∧ (Action.exists? p).runIn w = (.ok false, w) ∧
      ∃ k, p = (above.child last).child (sessionName c.stamp k) ∧ ∀ j < k,
        (Action.exists? ((above.child last).child (sessionName c.stamp j))).runIn w =
          (.ok true, w) := by
  obtain ⟨hsame, k, hp, htaken, hfree | hk⟩ := freeSession_finds h
  · exact ⟨hsame, hfree, k, hp, fun j => htaken j (Nat.zero_le j)⟩
  · rw [Nat.zero_add] at hk
    have hfewer := fewer_taken habove hlast hdisk fun j hj => htaken j (Nat.zero_le j) (hk ▸ hj)
    exact absurd hfewer (Nat.lt_irrefl _)

/-! ## 2. Saving -/

/-- The entry is that of the file, and the saved text is that of the file. -/
structure GivesBack (w : Host) (original : String × Text) (entry : Entry) : Prop where
  file : entry.file = Path.ofString original.1
  there : (Action.exists? entry.backup).runIn w = (.ok true, w)
  text : (Action.readText entry.backup.render).runIn w = (.ok original.2, w)

/-- A backup of files was saved, from one host to the other. -/
structure Faithful (project : Path) (files : Files) (session : Path) (w w' : Host) : Prop where
  /-- The name is the first one that is free. -/
  named : ∃ k, session = (store project).child (sessionName w.clock.stamp k) ∧ ∀ j < k,
    (Action.exists? ((store project).child (sessionName w.clock.stamp j))).runIn w = (.ok true, w)
  fresh : (Action.exists? session).runIn w = (.ok false, w)
  made : (Action.isDirectory session).runIn w' = (.ok true, w')
  /-- All that was there is as it was. -/
  kept : ∀ at_ entry, w.disk.get? at_ = some entry → w'.disk.get? at_ = some entry
  /-- Every file has one entry, in the order of the names, and its text is given back. -/
  listed : ∃ ordered listing, ordered.Perm files ∧ ordered.Pairwise (fun a b => a.1 ≤ b.1) ∧
    (entries session).runIn w' = (.ok listing, w') ∧ List.Forall₂ (GivesBack w') ordered listing

theorem pairwise_sorted (files : Files) : (sorted files).Pairwise fun a b => a.1 ≤ b.1 := by
  have hsorted := @List.pairwise_mergeSort _ (fun a b : String × Text => decide (a.1 ≤ b.1))
    (fun a b c hab hbc => decide_eq_true
      (String.le_trans (of_decide_eq_true hab) (of_decide_eq_true hbc)))
    (fun a b => by
      rw [Bool.or_eq_true, decide_eq_true_iff, decide_eq_true_iff]
      exact String.le_total a.1 b.1) files
  exact hsorted.imp fun h => of_decide_eq_true h

theorem forall₂_entriesFrom {session : Path} {stamp : String} {index : Nat} {files : Files}
    {R : String × Text → Entry → Prop} (h : ∀ i name text, files[i]? = some (name, text) →
      R (name, text)
        ⟨Path.ofString name, session.child (backupName (index + i) name), .text stamp⟩) :
    List.Forall₂ R files (entriesFrom session stamp index files) := by
  induction files generalizing index with
  | nil => exact .nil
  | cons first rest ih =>
    obtain ⟨name, text⟩ := first
    refine .cons (h 0 name text rfl) (ih fun i other now hfile => ?_)
    rw [Nat.add_assoc, Nat.add_comm 1 i]
    exact h (i + 1) other now hfile

theorem StoredFrom.forall₂_givesBack {session : Path} {place : Location} {stamp : String}
    {files : Files} {w : Host} (h : StoredFrom session place 0 files w) :
    List.Forall₂ (GivesBack w) files (entriesFrom session stamp 0 files) :=
  forall₂_entriesFrom fun i name text hfile => {
    file := rfl
    there := Action.runIn_exists?_of_hasFile (h i name text hfile)
    text := Action.runIn_readText (h i name text hfile) (Utf8.decode_encode text) }

/-- Filling a new backup: the texts and the manifest can be read, and nothing else was touched. -/
theorem fill_stores {session p : Path} {place : Location} {stamp : String} {files : Files}
    {w w' : Host} (hfinds : w.FindsIn session place)
    (h : (fill session stamp files).runIn w = (.ok p, w')) :
    p = session ∧ StoredFrom session place 0 files w' ∧
      w'.HasFile (manifestPath session).render (place ++ ["manifest.json"])
        (Utf8.encode (JsonValue.array (manifestFrom session stamp 0 files)).render) ∧
      w.disk.KeepsDirectories w'.disk ∧
      w.Spares (fun at_ => ∀ name, at_ ≠ place ++ [name]) w' := by
  have hsession := fill_eq_ok h
  obtain ⟨manifest, v, hsave, h⟩ := Action.runIn_bind_eq_ok h
  obtain ⟨⟨⟩, u, hwrite, hend⟩ := Action.runIn_bind_eq_ok h
  cases hend
  obtain ⟨rfl, hstored, hkept, hspares⟩ := saveFrom_eq_ok hfinds hsave
  obtain ⟨at_, hcan, hw'⟩ := Action.writeText_eq_ok hwrite
  have hat : at_ = place ++ ["manifest.json"] :=
    hfinds v hspares.cwd hkept _ at_ descends_manifestName hcan.located
  subst hat
  have hkeeps := hcan.keepsDirectories
    (Utf8.encode (JsonValue.array (manifestFrom session stamp 0 files)).render)
  have hfile := hcan.hasFile
    (Utf8.encode (JsonValue.array (manifestFrom session stamp 0 files)).render)
  have hperforms := v.performs_after [.truncate (place ++ ["manifest.json"]),
    .write (place ++ ["manifest.json"])
      (Utf8.encode (JsonValue.array (manifestFrom session stamp 0 files)).render)]
  rw [← hw'] at hkeeps hfile hperforms
  have hlast : v.Spares (· ≠ place ++ ["manifest.json"]) w' :=
    hperforms.spares_write fun hne => hne rfl
  refine ⟨hsession, fun i name text hsaved => ?_, hfile,
    fun at_ hdir => hkeeps at_ (hkept at_ hdir), ?_⟩
  · have hthere := hstored i name text hsaved
    refine hthere.mono hperforms.cwd hkeeps ?_
    rw [hlast.get? (concat_ne_concat place (backupName_ne_manifest _ _))]
    exact hthere.get?
  · exact (hspares.mono fun at_ hat i name _ => hat _).trans (hlast.mono fun at_ hat => hat _)

theorem isRead_home {project : Path} (h : project.IsRead) : (project.child homeName).IsRead :=
  h.child (descends_homeName _ List.mem_cons_self).1

theorem isRead_store {project : Path} (h : project.IsRead) : (store project).IsRead :=
  (isRead_home h).child (descends_storeName _ List.mem_cons_self).1

/-- The directory kept for a project is never the root, which no entry of the disk stands for. -/
theorem length_pos_of_home {project : Path} (hproject : project.IsRead) {cwd at_ : Location}
    {before after : Disk} (hlocate : before.locate cwd (project.child homeName).render = .ok at_)
    (hdirectory : after.get? at_ = some .directory) : 0 < after.length := by
  obtain ⟨front, -, rfl⟩ := Disk.locate_child_eq_ok hproject descends_homeName hlocate
  have hmem := Disk.mem_places_of_has (Disk.has_of_get? hdirectory)
    (List.append_ne_nil_of_right_ne_nil _ (List.cons_ne_nil _ _))
  rw [← List.length_map Prod.fst]
  exact List.length_pos_of_mem hmem

/-- Where the directory kept for a project is new, no backup was there before. -/
theorem not_taken_of_new {project : Path} (hproject : project.IsRead) {c : Clock} {j : Nat}
    {at_ : Location} {w v : Host} (hw : w.disk.IsTree)
    (hlocate : w.disk.locate w.cwd (project.child homeName).render = .ok at_)
    (hhas : w.disk.has at_ = false) (hmade : w.Performs [.makeDirectory at_] v) :
    (Action.exists? ((store project).child (sessionName c.stamp j))).runIn v ≠ (.ok true, v) := by
  intro htaken
  obtain ⟨place, henters, hthere⟩ := enters_of_taken (isRead_store hproject) htaken
  obtain ⟨front, hfront, -, rfl⟩ := Disk.walk_concat_eq_ok descends_storeName henters.walked
  have hkeeps := (Host.makesAt_grows at_ w v hhas hmade).keepsDirectories
  have hnow := Disk.locate_mono hkeeps hlocate
  rw [← hmade.cwd] at hnow
  have hat : front = at_ :=
    Except.ok.inj (hfront.symm.trans (Disk.walk_of_locate_child hproject descends_homeName hnow))
  subst hat
  have hbelow : w.disk.has (front ++ ["backups"] ++ [sessionName c.stamp j]) = false := by
    refine hw.has_below hhas ?_
    rw [List.append_assoc]
    exact List.prefix_append _ _
  have hsame : v.disk.get? (front ++ ["backups"] ++ [sessionName c.stamp j]) =
      w.disk.get? (front ++ ["backups"] ++ [sessionName c.stamp j]) := by
    rw [hmade.disk]
    exact Disk.get?_set_of_ne _ fun heq => absurd (congrArg List.length heq) (by simp)
  rw [Disk.has, hsame] at hthere
  cases hthere.symm.trans hbelow

/-- The directory of a new backup was made, at a place where nothing was. -/
structure MadeAt (project session : Path) (place : Location) (w v : Host) : Prop where
  named : ∃ k, session = (store project).child (sessionName w.clock.stamp k) ∧ ∀ j < k,
    (Action.exists? ((store project).child (sessionName w.clock.stamp j))).runIn w = (.ok true, w)
  fresh : (Action.exists? session).runIn w = (.ok false, w)
  noNull : session.render.toList.contains '\x00' = false
  located : v.disk.locate v.cwd session.render = .ok place
  enters : v.disk.Enters v.cwd session place
  isNew : w.disk.has place = false
  kept : ∀ at_ entry, at_ ≠ place → w.disk.get? at_ = some entry → v.disk.get? at_ = some entry

/-- The first part of saving: the new directory has the first name that is free. -/
theorem prepare_eq_ok {project : Path} (hproject : project.IsRead) {session : Path}
    {stamp : String} {w w' : Host} (hw : w.disk.IsTree)
    (h : (prepare project).runIn w = (.ok (session, stamp), w')) :
    session.IsRead ∧ ∃ place, MadeAt project session place w w' := by
  have hreadStore := isRead_store hproject
  obtain ⟨p, w₁, hmakeHome, hrest⟩ := Action.runIn_bind_eq_ok h
  obtain ⟨⟨⟩, v₁, hensure, hpure⟩ := Action.runIn_bind_eq_ok hmakeHome
  cases hpure
  rw [Action.runIn_bind_of_ok (Action.runIn_get w₁)] at hrest
  obtain ⟨free, w₂, hfree, hrest⟩ := Action.runIn_bind_eq_ok hrest
  obtain ⟨⟨⟩, v₃, hmakeAll, hpure⟩ := Action.runIn_bind_eq_ok hrest
  cases hpure
  have hgrows₁ := (Action.leads_ensureDirectory_grows _).of_run hensure
  obtain ⟨at_, hlocate, hdirectory, hnew⟩ := Action.locate_of_ensureDirectory hensure
  obtain ⟨rfl, hfresh, k, rfl, htaken⟩ := freeSession_isFree (isRead_home hproject)
    descends_storeName (length_pos_of_home hproject hlocate hdirectory) hfree
  rw [hgrows₁.clock] at htaken hfresh hmakeAll ⊢
  have hname := descends_sessionName w.clock k
  obtain ⟨v, hgrows₂, hmake⟩ := Action.makeDirectories_eq_ok hmakeAll
  obtain ⟨place, hplace, hhas, hmade⟩ := Action.locate_of_makeDirectory hmake
  have hgrows := Host.isFrame_grows.trans hgrows₁ hgrows₂
  have hplaceRoot : place ≠ [] := by
    rintro rfl
    cases hhas
  have hthere : w'.disk.get? place = some .directory := by
    rw [hmade.disk]
    exact Disk.get?_set_self _ hplaceRoot
  have hplace' :=
    Disk.locate_mono (Host.makesAt_grows place v w' hhas hmade).keepsDirectories hplace
  rw [← hmade.cwd] at hplace'
  refine ⟨hreadStore.child (hname _ List.mem_cons_self).1, place, {
    named := ⟨k, rfl, fun j hj => ?_⟩
    fresh := Action.exists?_of_grows hgrows₁ hfresh
    noNull := Action.noNull_of_makeDirectory hmake
    located := hplace'
    enters := Disk.enters_child hreadStore hname hplace' hthere
    isNew := hgrows.has_eq_false hhas
    kept := fun other entry hne hother => ?_ }⟩
  · rcases hnew with rfl | ⟨hhasHome, hmadeHome⟩
    · exact htaken j hj
    · exact absurd (htaken j hj) (not_taken_of_new hproject hw hlocate hhasHome hmadeHome)
  · rw [hmade.disk]
    refine (Disk.get?_set_of_ne _ hne).trans ?_
    rw [hgrows.get? (Disk.has_of_get? hother), hother]

/-- Saving a backup gives it a free name, keeps all that was there, and keeps every text so that it
is listed and can be read again. -/
theorem save_is_faithful {project : Path} (hproject : project.IsRead) {files : Files}
    {session : Path} {w w' : Host} (hw : w.disk.IsTree)
    (h : (save project files).runIn w = (.ok session, w')) :
    Faithful project files session w w' := by
  rw [save_eq] at h
  obtain ⟨⟨made, stamp⟩, v, hprepare, hfill⟩ := Action.runIn_bind_eq_ok h
  obtain ⟨hread, place, hmade⟩ := prepare_eq_ok hproject hw hprepare
  obtain ⟨rfl, hstored, hmanifest, hkeeps, hspares⟩ :=
    fill_stores (Host.findsIn_of_enters hread hmade.enters) hfill
  have hlocated := Disk.locate_mono hkeeps hmade.located
  rw [← hspares.cwd] at hlocated
  refine {
    named := hmade.named
    fresh := hmade.fresh
    made := Action.runIn_isDirectory_of_locate hmade.noNull hlocated
      (hkeeps place hmade.enters.directory)
    kept := fun other entry hother => ?_
    listed := ⟨sorted files, _, List.mergeSort_perm files _, pairwise_sorted files,
      runIn_entries_of_hasFile hread hmanifest, hstored.forall₂_givesBack⟩ }
  have hoff : ¬place <+: other := by
    intro hunder
    have hnone := hw.has_below hmade.isNew hunder
    cases (Disk.has_of_get? hother).symm.trans hnone
  have hoffBelow : ∀ name, other ≠ place ++ [name] := by
    rintro name rfl
    exact hoff (List.prefix_append _ _)
  have hne : other ≠ place := by
    rintro rfl
    exact hoff List.prefix_rfl
  rw [hspares.get? hoffBelow]
  exact hmade.kept other entry hne hother

/-- A host that works in a project, with a backup of the time that it is. -/
def busyHost : Host where
  disk := [(["p"], .directory), (["p", ".chainfix"], .directory),
    (["p", ".chainfix", "backups"], .directory),
    (["p", ".chainfix", "backups", "2024-01-01T00-00-00"], .directory)]
  cwd := ["p"]
  temporary := "/tmp"
  clock := ⟨2024, 1, 1, 0, 0, 0⟩
  parser _ _ _ := .node ⟨.other "program", 0, 0, true, none⟩ []

def twins : Files :=
  [("/p/a/m.ts", "a".toList), ("/p/b/m.ts", "b".toList)]

theorem sorted_twins : sorted twins = twins :=
  List.mergeSort_of_pairwise (by decide)

/-- Both files are given back, from a backup with the second name of its time. -/
theorem twins_are_given_back :
    Path.IsRead ⟨.relative, []⟩ ∧ busyHost.disk.IsTree ∧
    (save ⟨.relative, []⟩ twins).runIn busyHost =
      (.ok ⟨.relative, [".chainfix", "backups", "2024-01-01T00-00-00.1"]⟩,
        ((save ⟨.relative, []⟩ twins).runIn busyHost).2) ∧
    Faithful ⟨.relative, []⟩ twins
      ⟨.relative, [".chainfix", "backups", "2024-01-01T00-00-00.1"]⟩ busyHost
      ((save ⟨.relative, []⟩ twins).runIn busyHost).2 := by
  have hread : Path.IsRead ⟨.relative, []⟩ := fun _ hs => nomatch hs
  have htree : busyHost.disk.IsTree := by decide
  have hsave : (save ⟨.relative, []⟩ twins).runIn busyHost =
      (.ok ⟨.relative, [".chainfix", "backups", "2024-01-01T00-00-00.1"]⟩,
        ((save ⟨.relative, []⟩ twins).runIn busyHost).2) := by
    have hname : ((save ⟨.relative, []⟩ twins).runIn busyHost).1.toOption =
        some ⟨.relative, [".chainfix", "backups", "2024-01-01T00-00-00.1"]⟩ := by
      rw [save_eq, sorted_twins]
      decide +kernel
    cases hresult : ((save ⟨.relative, []⟩ twins).runIn busyHost).1 with
    | error e =>
      rw [hresult] at hname
      cases hname
    | ok p =>
      rw [hresult] at hname
      cases hname
      exact Prod.ext hresult rfl
  exact ⟨hread, htree, hsave, save_is_faithful hread htree hsave⟩

end Backup

end ChainGuard
