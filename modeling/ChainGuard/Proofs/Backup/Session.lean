import ChainGuard.Proofs.Backup
import ChainGuard.Proofs.Host.Relative
import ChainGuard.Proofs.JsonValue
import ChainGuard.Proofs.Name
import ChainGuard.Proofs.Utf8

/-!
# Complete backups

A backup that was saved holds every text in a file of its own, and a manifest from which exactly
these files are read again. Writing them back sets every file to its saved text.

1. Names in a backup are different from each other.
2. `Backup.manifestFrom`, `Backup.entriesFrom`: the manifest of some files, and its entries.
3. `Backup.IsComplete`, `Backup.save_complete`: what a saved backup holds.
4. `Backup.runIn_entries`, `Backup.runIn_restore`: reading the manifest, and writing back.
-/

namespace ChainGuard

namespace Backup

/-! ## 1. Names -/

theorem toList_fourDigits (n : Nat) : (fourDigits n).toList =
    List.replicate (4 - (toString n).length) '0' ++ Nat.toDigits 10 n := by
  show (String.ofList _ ++ Nat.repr n).toList = _
  rw [String.toList_append, String.toList_ofList, Nat.toList_repr]

theorem ofDigitChars_fourDigits (n : Nat) : Nat.ofDigitChars 10 (fourDigits n).toList 0 = n := by
  rw [toList_fourDigits, Nat.ofDigitChars_append, Nat.ofDigitChars_replicate_zero, Nat.mul_zero,
    Nat.ofDigitChars_ten_toDigits]

theorem dash_not_mem_fourDigits (n : Nat) : '-' ∉ (fourDigits n).toList := by
  rw [toList_fourDigits, List.mem_append, not_or]
  refine ⟨fun h => absurd (List.eq_of_mem_replicate h) (by decide), fun h => ?_⟩
  exact absurd (Nat.isDigit_of_mem_toDigits (by decide) (by decide) h) (by decide)

theorem toList_backupName (index : Nat) (file : String) : (backupName index file).toList =
    (fourDigits index).toList ++ '-' :: ((Path.ofString file).name ++ ".bak").toList := by
  have hdash : "-".toList = ['-'] := by decide
  show (fourDigits index ++ "-" ++ (Path.ofString file).name ++ ".bak").toList = _
  simp only [String.toList_append, hdash, List.append_assoc, List.singleton_append]
  rfl

/-- Saved texts of different files have different names. -/
theorem index_eq_of_backupName_eq {i j : Nat} {a b : String} (h : backupName i a = backupName j b) :
    i = j := by
  have hdigits : ∀ n file, ((backupName n file).toList.takeWhile (· != '-')) =
      (fourDigits n).toList := by
    intro n file
    rw [toList_backupName, List.takeWhile_append_of_pos, List.takeWhile_cons_of_neg (by decide),
      List.append_nil]
    intro c hc
    exact bne_iff_ne.mpr fun heq => dash_not_mem_fourDigits n (heq ▸ hc)
  rw [← ofDigitChars_fourDigits i, ← ofDigitChars_fourDigits j, ← hdigits i a, ← hdigits j b, h]

/-- The name of a saved text ends in another letter than that of a manifest. -/
theorem backupName_ne {s : String} (hs : s.toList.getLast? = some 'n') (index : Nat)
    (file : String) : backupName index file ≠ s := by
  rintro rfl
  have hbak : ".bak".toList ≠ [] := by decide
  rw [toList_backupName, String.toList_append, ← List.singleton_append, ← List.append_assoc,
    ← List.append_assoc, List.getLast?_append_of_ne_nil _ hbak] at hs
  exact absurd hs (by decide)

theorem backupName_ne_manifest (index : Nat) (file : String) :
    backupName index file ≠ "manifest.json" :=
  backupName_ne (by decide) index file

theorem backupName_ne_restored (index : Nat) (file : String) :
    backupName index file ≠ "manifest.restored.json" :=
  backupName_ne (by decide) index file

/-! ## 2. Manifests -/

/-- The manifest of files, from the `index`-th on. -/
def manifestFrom (session : Path) (stamp : String) : (index : Nat) → Files → List JsonValue
  | _, [] => []
  | index, (file, _) :: rest =>
    entryJson file (session.child (backupName index file)).render stamp ::
      manifestFrom session stamp (index + 1) rest

/-- The entries of files, from the `index`-th on. -/
def entriesFrom (session : Path) (stamp : String) : (index : Nat) → Files → List Entry
  | _, [] => []
  | index, (file, _) :: rest =>
    { file := Path.ofString file
      backup := session.child (backupName index file)
      timestamp := .text stamp } :: entriesFrom session stamp (index + 1) rest

/-- The names of files stand in the order in which the files are saved. -/
theorem keys_sorted (files : Files) :
    (sorted files).keys = files.keys.mergeSort fun a b => decide (a ≤ b) :=
  List.map_mergeSort fun _ _ _ _ => rfl

theorem mem_sorted {files : Files} {file : String × Text} : file ∈ sorted files ↔ file ∈ files :=
  List.mem_mergeSort

theorem mem_entriesFrom {session : Path} {stamp : String} {index i : Nat} {files : Files}
    {name : String} {text : Text} (h : files[i]? = some (name, text)) :
    ⟨Path.ofString name, session.child (backupName (index + i) name), .text stamp⟩ ∈
      entriesFrom session stamp index files := by
  induction files generalizing index i with
  | nil => cases h
  | cons first rest ih =>
    cases i with
    | zero =>
      cases h
      exact List.mem_cons_self
    | succ i =>
      rw [Nat.add_comm i 1, ← Nat.add_assoc]
      exact List.mem_cons_of_mem _ (ih h)

theorem isPlain_entryJson (levels : Nat) (file backup stamp : String) :
    JsonValue.IsPlain (levels + 1) (entryJson file backup stamp) := by
  have hkeys : ["file", "backup", "timestamp"].Nodup := by decide
  refine .object hkeys fun member hmember => ?_
  simp only [List.mem_cons, List.not_mem_nil, or_false] at hmember
  rcases hmember with rfl | rfl | rfl <;> exact .text _ _

theorem isPlain_manifestFrom (levels : Nat) (session : Path) (stamp : String) (index : Nat)
    (files : Files) :
    ∀ item ∈ manifestFrom session stamp index files, JsonValue.IsPlain (levels + 1) item := by
  induction files generalizing index with
  | nil => exact fun item hitem => nomatch hitem
  | cons first rest ih =>
    intro item hitem
    rcases List.mem_cons.mp hitem with rfl | hitem
    · exact isPlain_entryJson _ _ _ _
    · exact ih (index + 1) item hitem

theorem entryOf_entryJson (file backup stamp : String) :
    entryOf (entryJson file backup stamp) =
      .ok ⟨Path.ofString file, Path.ofString backup, .text stamp⟩ := by
  rfl

theorem isPart_backupName (index : Nat) (file : String) : Path.IsPart (backupName index file) :=
  (descends_backupName index file _ List.mem_cons_self).1

theorem mapM_entryOf_manifestFrom {session : Path} (hsession : session.IsRead)
    (stamp : String) (index : Nat) (files : Files) :
    (manifestFrom session stamp index files).mapM entryOf =
      .ok (entriesFrom session stamp index files) := by
  induction files generalizing index with
  | nil => rfl
  | cons first rest ih =>
    obtain ⟨file, text⟩ := first
    have hpath := Path.ofString_render (hsession.child (isPart_backupName index file))
    rw [manifestFrom, List.mapM_cons, entryOf_entryJson, ih, hpath]
    rfl

/-! ## 3. Saving -/

/-- The texts of files, from the `index`-th on, are saved in the backup. -/
def HoldsFrom (place : Location) (index : Nat) (files : Files) (disk : Disk) : Prop :=
  ∀ i name text, files[i]? = some (name, text) →
    Path.Fits (place ++ [backupName (index + i) name]) ∧
      disk.get? (place ++ [backupName (index + i) name]) = some (.file (Utf8.encode text))

/-- A backup holds the texts of files and their manifest, and was not undone. -/
structure IsComplete (place : Location) (stamp : String) (files : Files) (disk : Disk) : Prop where
  directory : disk.Holds place
  saved : HoldsFrom place 0 files disk
  fits : Path.Fits (place ++ ["manifest.json"])
  manifest : disk.get? (place ++ ["manifest.json"]) = some (.file (Utf8.encode
    (JsonValue.array (manifestFrom ⟨.root, place⟩ stamp 0 files)).render))
  notRestored : disk.get? (place ++ ["manifest.restored.json"]) = none

/-- The place lies at, above or below the other. -/
def Near (place at_ : Location) : Prop :=
  at_ <+: place ∨ place <+: at_

/-- Whether a backup is complete depends only on what lies near it. -/
theorem IsComplete.mono {place : Location} {stamp : String} {files : Files} {disk after : Disk}
    (h : IsComplete place stamp files disk)
    (hsame : ∀ at_, Near place at_ → after.get? at_ = disk.get? at_) :
    IsComplete place stamp files after where
  directory above habove := by
    rw [hsame above (Or.inl habove)]
    exact h.directory above habove
  saved i name text hfile := by
    rw [hsame _ (Or.inr (List.prefix_append _ _))]
    exact h.saved i name text hfile
  fits := h.fits
  manifest := by
    rw [hsame _ (Or.inr (List.prefix_append _ _))]
    exact h.manifest
  notRestored := by
    rw [hsame _ (Or.inr (List.prefix_append _ _))]
    exact h.notRestored

/-- In a tree it is enough to look at the backup itself and below. -/
theorem IsComplete.of_below {place : Location} {stamp : String} {files : Files}
    {disk after : Disk} (h : IsComplete place stamp files disk) (hafter : after.IsTree)
    (hsame : ∀ at_, place <+: at_ → after.get? at_ = disk.get? at_) :
    IsComplete place stamp files after := by
  have hholds : after.Holds place := by
    refine hafter.holds ?_
    rw [hsame place List.prefix_rfl]
    exact h.directory place List.prefix_rfl
  refine h.mono fun at_ hnear => ?_
  rcases hnear with habove | hunder
  · rw [hholds at_ habove, h.directory at_ habove]
  · exact hsame at_ hunder

theorem concat_ne_concat (place : Location) {a b : String} (h : a ≠ b) :
    place ++ [a] ≠ place ++ [b] :=
  fun heq => h (List.singleton_inj.mp (List.append_cancel_left heq))

/-- Saving a backup does not touch the others. -/
theorem not_covers_of_ne {project at_ : Location} {name other : String} (h : other ≠ name)
    (hunder : storeAt project ++ [other] <+: at_) :
    ¬Covers project (storeAt project ++ [name]) at_ := by
  have hlength := hunder.length_le
  rintro (rfl | rfl | hcovers)
  · simp only [storeAt, List.length_append, List.length_singleton] at hlength
    omega
  · simp only [List.length_append, List.length_singleton] at hlength
    omega
  · have heq := (List.prefix_of_prefix_length_le hcovers hunder (by simp)).eq_of_length (by simp)
    exact concat_ne_concat _ h heq.symm

/-- The saved texts of files, from the `index`-th on, lie in the place and can be read. -/
def StoredFrom (session : Path) (place : Location) (index : Nat) (files : Files) (w : Host) :
    Prop :=
  ∀ i name text, files[i]? = some (name, text) →
    w.HasFile (session.child (backupName (index + i) name)).render
      (place ++ [backupName (index + i) name]) (Utf8.encode text)

/-- In a backup at an absolute path, what can be read has a path within the limits. -/
theorem StoredFrom.holdsFrom {place : Location} (hplace : Path.Descends place) {index : Nat}
    {files : Files} {w : Host} (h : StoredFrom ⟨.root, place⟩ place index files w) :
    HoldsFrom place index files w.disk := by
  intro i name text hfile
  have hfound := h i name text hfile
  exact ⟨Disk.fits_of_locate (hplace.append (descends_backupName _ _)) hfound.noNull
    hfound.located, hfound.get?⟩

/-- The texts are saved one after the other, each in a file of its own. Nothing but these files is
touched. -/
theorem saveFrom_eq_ok {session : Path} {place : Location} {stamp : String} {index : Nat}
    {files : Files} {manifest : List JsonValue} {w w' : Host} (hfinds : w.FindsIn session place)
    (h : (saveFrom session stamp index files).runIn w = (.ok manifest, w')) :
    manifest = manifestFrom session stamp index files ∧
      StoredFrom session place index files w' ∧ w.disk.KeepsDirectories w'.disk ∧
      w.Spares (fun at_ => ∀ i name, index ≤ i → at_ ≠ place ++ [backupName i name]) w' := by
  induction files generalizing index manifest w with
  | nil =>
    cases h
    exact ⟨rfl, (fun i name text hfile => nomatch hfile), fun at_ hdir => hdir,
      (Host.Quiet.refl _).spares _⟩
  | cons first rest ih =>
    obtain ⟨name, text⟩ := first
    obtain ⟨⟨⟩, v, hwrite, h⟩ := Action.runIn_bind_eq_ok h
    obtain ⟨others, u, hrest, hend⟩ := Action.runIn_bind_eq_ok h
    cases hend
    obtain ⟨at_, hcan, hv⟩ := Action.writeText_eq_ok hwrite
    have hat : at_ = place ++ [backupName index name] :=
      hfinds w rfl (fun at_ hdir => hdir) _ at_ (descends_backupName index name) hcan.located
    subst hat
    have hkeeps := hcan.keepsDirectories (Utf8.encode text)
    have hfile := hcan.hasFile (Utf8.encode text)
    have hperforms := w.performs_after
      [.truncate (place ++ [backupName index name]),
        .write (place ++ [backupName index name]) (Utf8.encode text)]
    rw [← hv] at hkeeps hfile hperforms
    obtain ⟨rfl, hstored, hkept, hspares⟩ := ih (hfinds.mono hperforms.cwd hkeeps) hrest
    refine ⟨rfl, fun i other now hother => ?_, fun at_ hdir => hkept at_ (hkeeps at_ hdir), ?_⟩
    · cases i with
      | zero =>
        cases hother
        refine hfile.mono hspares.cwd hkept ?_
        rw [hspares.get? fun i other hi => concat_ne_concat place fun heq => ?_]
        · exact hfile.get?
        · have hindex := index_eq_of_backupName_eq heq
          omega
      | succ i =>
        have hnext := hstored i other now hother
        rwa [Nat.add_assoc, Nat.add_comm 1 i] at hnext
    · refine (hperforms.spares_write fun hkeep => hkeep index name (Nat.le_refl _) rfl).trans ?_
      exact hspares.mono fun at_ hat i other hi => hat i other (Nat.le_of_succ_le hi)

/-- A backup that was made and filled is complete. -/
theorem fill_complete {place : Location} (hplace : Path.Descends place) {stamp : String}
    {files : Files} {p : Path} {w w' : Host} (hdirectory : w.disk.Holds place)
    (hnew : w.disk.get? (place ++ ["manifest.restored.json"]) = none)
    (h : (fill ⟨.root, place⟩ stamp files).runIn w = (.ok p, w')) :
    IsComplete place stamp files w'.disk := by
  obtain ⟨manifest, v, hsave, h⟩ := Action.runIn_bind_eq_ok h
  obtain ⟨⟨⟩, u, hwrite, hend⟩ := Action.runIn_bind_eq_ok h
  cases hend
  obtain ⟨hfits, -, hperforms⟩ :=
    Action.writeText_render_eq_ok (hplace.append descends_manifestName) hwrite
  obtain ⟨rfl, hstored, -, hspares⟩ := saveFrom_eq_ok (w.findsIn_root hplace) hsave
  have hholds := hstored.holdsFrom hplace
  have hlast : ∀ at_, at_ ≠ place ++ ["manifest.json"] → w'.disk.get? at_ = v.disk.get? at_ := by
    intro at_ hat
    have hkept : v.Spares (· ≠ place ++ ["manifest.json"]) w' :=
      hperforms.spares_write fun hne => hne rfl
    exact hkept.get? hat
  refine ⟨fun above habove => ?_, fun i name text hfile => ?_, hfits, ?_, ?_⟩
  · have hoff : ∀ name : String, above ≠ place ++ [name] := by
      rintro name rfl
      exact absurd habove.length_le (by simp)
    rw [hlast above (hoff _), hspares.get? fun i name _ => hoff _]
    exact hdirectory above habove
  · rw [hlast _ (concat_ne_concat place (backupName_ne_manifest _ _))]
    exact hholds i name text hfile
  · rw [hperforms.disk]
    exact Disk.get?_set_self _ (List.append_ne_nil_of_right_ne_nil _ (List.cons_ne_nil _ _))
  · rw [hlast _ (concat_ne_concat place (by decide)), hspares.get? fun i name _ =>
      concat_ne_concat place (backupName_ne_restored i name).symm]
    exact hnew

/-- Filling a backup that fails writes no manifest. -/
theorem fill_eq_error {place : Location} (hplace : Path.Descends place) {stamp : String}
    {files : Files} {e : Failure} {w w' : Host}
    (h : (fill ⟨.root, place⟩ stamp files).runIn w = (.error e, w')) :
    w'.disk.get? (place ++ ["manifest.json"]) = w.disk.get? (place ++ ["manifest.json"]) := by
  have hleads := leads_saveFrom (Host.isFrame_spares (· = place ++ ["manifest.json"])) hplace
    (fun i name => Host.writesAt_spares
      (concat_ne_concat place (backupName_ne_manifest i name))) stamp 0 files
  rcases hsave : (saveFrom ⟨.root, place⟩ stamp 0 files).runIn w with ⟨saved, v⟩
  have hspares := hleads.of_run hsave
  cases saved with
  | error e' =>
    cases (Action.runIn_bind_of_error hsave).symm.trans h
    exact hspares.get? rfl
  | ok manifest =>
    replace h := (Action.runIn_bind_of_ok hsave).symm.trans h
    rcases Action.writeText_cases (manifestPath ⟨.root, place⟩).render
      (JsonValue.array manifest).render v with ⟨e', hwrite⟩ | ⟨at_, v', hwrite, -⟩
    · cases (Action.runIn_bind_of_error hwrite).symm.trans h
      exact hspares.get? rfl
    · cases (Action.runIn_bind_of_ok hwrite).symm.trans h

/-- How saving a backup can end. It fails before the backup is made. It fails with a backup that has
no manifest. Or the backup is complete. The backup has the first name that is free. -/
theorem save_cases {project : Location} (hproject : Path.Descends project) {files : Files}
    {w w' : Host} (hw : w.disk.IsTree) {result : Except Failure Path}
    (h : (save ⟨.root, project⟩ files).runIn w = (result, w')) :
    (∃ e, result = .error e ∧ Unsaved project w w') ∨
    ∃ k, Saved project (storeAt project ++ [sessionName w.clock.stamp k]) w w' ∧
      (∀ j < k, w.disk.has (storeAt project ++ [sessionName w.clock.stamp j]) = true) ∧
      ((∃ e, result = .error e ∧ w'.disk.get?
          (storeAt project ++ [sessionName w.clock.stamp k] ++ ["manifest.json"]) = none) ∨
        result = .ok ⟨.root, storeAt project ++ [sessionName w.clock.stamp k]⟩ ∧
        IsComplete (storeAt project ++ [sessionName w.clock.stamp k]) w.clock.stamp (sorted files)
          w'.disk) := by
  rcases save_steps hproject hw h with hunsaved | ⟨k, w₁, v, w₃, steps, htaken, hfill⟩
  · exact Or.inl hunsaved
  · have hplace := (descends_storeAt hproject).append (descends_sessionName w.clock k)
    have hbelow : ∀ last : String, w₃.disk.get? (storeAt project ++
        [sessionName w.clock.stamp k] ++ [last]) = none := fun last =>
      steps.get?_below hproject hw (List.prefix_append _ _)
        fun heq => absurd (congrArg List.length heq) (by simp)
    refine Or.inr ⟨k, steps.saved hproject hw, htaken, ?_⟩
    cases result with
    | error e => exact Or.inl ⟨e, rfl, (fill_eq_error hplace hfill).trans (hbelow _)⟩
    | ok p =>
      cases fill_eq_ok hfill
      exact Or.inr ⟨rfl, fill_complete hplace steps.holds_made (hbelow _) hfill⟩

/-- Saving a backup of a project: all else is as it was, and the backup is complete. Its name is the
first one that is free. -/
theorem save_complete {project : Location} (hproject : Path.Descends project) {files : Files}
    {p : Path} {w w' : Host} (hw : w.disk.IsTree)
    (h : (save ⟨.root, project⟩ files).runIn w = (.ok p, w')) :
    ∃ k, p = ⟨.root, storeAt project ++ [sessionName w.clock.stamp k]⟩ ∧
      Saved project (storeAt project ++ [sessionName w.clock.stamp k]) w w' ∧
      IsComplete (storeAt project ++ [sessionName w.clock.stamp k]) w.clock.stamp (sorted files)
        w'.disk := by
  rcases save_cases hproject hw h with ⟨e, he, -⟩ | ⟨k, hsaved, -, ⟨e, he, -⟩ | ⟨hp, hcomplete⟩⟩
  · cases he
  · cases he
  · exact ⟨k, Except.ok.inj hp, hsaved, hcomplete⟩

/-- A directory in which there are no directories. -/
structure IsFlat (place : Location) (disk : Disk) : Prop where
  holds : disk.Holds place
  files : ∀ name, disk.get? (place ++ [name]) ≠ some .directory

theorem IsFlat.after_write {place : Location} {w : Host} (h : IsFlat place w.disk) (name : String)
    (content : Bytes) : IsFlat place
      (w.after [.truncate (place ++ [name]), .write (place ++ [name]) content]).disk := by
  have hspares : w.Spares (· ≠ place ++ [name])
      (w.after [.truncate (place ++ [name]), .write (place ++ [name]) content]) :=
    (w.performs_after _).spares_write fun hne => hne rfl
  refine ⟨fun above habove => ?_, fun other => ?_⟩
  · rw [hspares.get? ?_]
    · exact h.holds above habove
    · rintro rfl
      exact absurd habove.length_le (by simp)
  · by_cases hother : other = name
    · have hget : (w.after [.truncate (place ++ [name]),
          .write (place ++ [name]) content]).disk.get? (place ++ [name]) = some (.file content) :=
        Disk.get?_set_self _ (List.append_ne_nil_of_right_ne_nil _ (List.cons_ne_nil _ _))
      rw [hother, hget]
      exact fun heq => nomatch heq
    · rw [hspares.get? (concat_ne_concat place hother)]
      exact h.files other

/-- Texts can be saved in a directory without directories, if their names are within the limits. -/
theorem runIn_saveFrom {place : Location} (stamp : String) {index : Nat} {files : Files} {w : Host}
    (hplace : IsFlat place w.disk)
    (hfits : ∀ i name text, files[i]? = some (name, text) →
      Path.Fits (place ++ [backupName (index + i) name])) :
    ∃ w', (saveFrom ⟨.root, place⟩ stamp index files).runIn w =
      (.ok (manifestFrom ⟨.root, place⟩ stamp index files), w') ∧ IsFlat place w'.disk := by
  induction files generalizing index w with
  | nil => exact ⟨w, rfl, hplace⟩
  | cons first rest ih =>
    obtain ⟨name, text⟩ := first
    have hne : place ++ [backupName index name] ≠ [] :=
      List.append_ne_nil_of_right_ne_nil _ (List.cons_ne_nil _ _)
    have hwrite := Action.runIn_writeText_render (hfits 0 name text rfl) hne
      (hplace.holds.opensTo _) (hplace.files _) text
    obtain ⟨w', hrest, hflat⟩ := ih (hplace.after_write (backupName index name) (Utf8.encode text))
      fun i other now hother => by
        rw [Nat.add_assoc, Nat.add_comm 1 i]
        exact hfits (i + 1) other now hother
    refine ⟨w', ?_, hflat⟩
    exact (Action.runIn_bind_of_ok hwrite).trans (Action.runIn_bind_of_ok hrest)

theorem runIn_home {project : Location} {w : Host} (hfits : Path.Fits (homeAt project))
    (hhome : w.disk.Holds (homeAt project)) :
    (home ⟨.root, project⟩).runIn w = (.ok ⟨.root, homeAt project⟩, w) := by
  have hhere : w.disk.get? (homeAt project) = some .directory := hhome _ List.prefix_rfl
  have hdirectory := Action.runIn_isDirectory hfits fun h above habove _ => hhome above habove
  rw [Disk.isDirectory, hhere, decide_eq_true rfl] at hdirectory
  have hensure : (Action.ensureDirectory ⟨.root, homeAt project⟩).runIn w = (.ok (), w) := by
    rcases Action.makeDirectory_cases ⟨.root, homeAt project⟩ w with
      ⟨e, hmake⟩ | ⟨at_, w', -, hlocate, hhas, -⟩
    · have hattempt := Action.runIn_attempt (Action.makeDirectory ⟨.root, homeAt project⟩) w
      rw [hmake] at hattempt
      exact (Action.runIn_bind_of_ok hattempt).trans (Action.runIn_bind_of_ok hdirectory)
    · obtain ⟨rfl, -⟩ := Disk.locate_render_eq_ok hfits.descends hlocate
      rw [Disk.has_of_get? hhere] at hhas
      cases hhas
  exact Action.runIn_bind_of_ok hensure

theorem runIn_freeSession {directory : Location} {stamp : String} {w : Host} (fuel : Nat)
    (hfits : Path.Fits (directory ++ [stamp])) (hfree : w.disk.has (directory ++ [stamp]) = false) :
    (freeSession ⟨.root, directory⟩ stamp fuel 0).runIn w =
      (.ok ⟨.root, directory ++ [stamp]⟩, w) := by
  cases fuel with
  | zero => rfl
  | succ fuel =>
    have hexists : (Action.exists? ⟨.root, directory ++ [stamp]⟩).runIn w = (.ok false, w) := by
      rw [Action.runIn_exists? hfits fun h => ?_, hfree]
      rw [hfree] at h
      cases h
    exact Action.runIn_bind_of_ok hexists

theorem runIn_fill {place : Location} (stamp : String) {files : Files} {w : Host}
    (hplace : IsFlat place w.disk) (hfits : Path.Fits (place ++ ["manifest.json"]))
    (hbackups : ∀ i name text, files[i]? = some (name, text) →
      Path.Fits (place ++ [backupName i name])) :
    ∃ w', (fill ⟨.root, place⟩ stamp files).runIn w = (.ok ⟨.root, place⟩, w') := by
  obtain ⟨v, hsave, hflat⟩ := runIn_saveFrom stamp hplace
    fun i name text hfile => by
      rw [Nat.zero_add]
      exact hbackups i name text hfile
  have hwrite := Action.runIn_writeText_render hfits
    (List.append_ne_nil_of_right_ne_nil _ (List.cons_ne_nil _ _)) (hflat.holds.opensTo _)
    (hflat.files _) (JsonValue.array (manifestFrom ⟨.root, place⟩ stamp 0 files)).render
  exact ⟨_, (Action.runIn_bind_of_ok hsave).trans (Action.runIn_bind_of_ok hwrite)⟩

/-- Saving succeeds where backups are held, the time has no backup yet, and all names are within the
limits. -/
theorem runIn_save {project : Location} {files : Files} {w : Host} (hw : w.disk.IsTree)
    (hstore : w.disk.Holds (storeAt project))
    (hfree : w.disk.has (storeAt project ++ [w.clock.stamp]) = false)
    (hfits : Path.Fits (storeAt project ++ [w.clock.stamp] ++ ["manifest.json"]))
    (hbackups : ∀ i name text, (sorted files)[i]? = some (name, text) →
      Path.Fits (storeAt project ++ [w.clock.stamp] ++ [backupName i name])) :
    ∃ w', (save ⟨.root, project⟩ files).runIn w =
      (.ok ⟨.root, storeAt project ++ [w.clock.stamp]⟩, w') := by
  have hsession := hfits.of_isPrefix (List.prefix_append _ _)
  have hne : storeAt project ++ [w.clock.stamp] ≠ [] :=
    List.append_ne_nil_of_right_ne_nil _ (List.cons_ne_nil _ _)
  have habove : homeAt project <+: storeAt project := List.prefix_append _ _
  have hhome := runIn_home (w := w) (hsession.of_isPrefix (habove.trans (List.prefix_append _ _)))
    fun above h => hstore above (h.trans habove)
  have hsearch := runIn_freeSession w.disk.length hsession hfree
  have hmake := Action.runIn_makeDirectory hsession (hstore.opensTo _) hfree
  have hmakeAll : (Action.makeDirectories ⟨.root, storeAt project ++ [w.clock.stamp]⟩).runIn w =
      (.ok (), w.after [.makeDirectory (storeAt project ++ [w.clock.stamp])]) := by
    have hattempt := Action.runIn_attempt
      (Action.makeDirectory ⟨.root, storeAt project ++ [w.clock.stamp]⟩) w
    rw [hmake] at hattempt
    exact Action.runIn_bind_of_ok hattempt
  have hflat : IsFlat (storeAt project ++ [w.clock.stamp])
      (w.after [.makeDirectory (storeAt project ++ [w.clock.stamp])]).disk := by
    refine ⟨(hstore.opensTo _).holds_set hne, fun name => ?_⟩
    have hnone := hw.has_below hfree (List.prefix_append _ [name])
    have hsame : (w.disk.set (storeAt project ++ [w.clock.stamp]) .directory).get?
        (storeAt project ++ [w.clock.stamp] ++ [name]) = none := by
      rw [Disk.get?_set_of_ne _ (by simp), Disk.get?_eq_none hnone]
    exact fun heq => nomatch hsame.symm.trans heq
  obtain ⟨w', hfill⟩ := runIn_fill w.clock.stamp hflat hfits hbackups
  refine ⟨w', ?_⟩
  refine (Action.runIn_bind_of_ok hhome).trans ?_
  refine (Action.runIn_bind_of_ok (Action.runIn_get w)).trans ?_
  refine (Action.runIn_bind_of_ok hsearch).trans ?_
  exact (Action.runIn_bind_of_ok hmakeAll).trans hfill

/-! ## 4. Reading and writing back -/

theorem runIn_entries_of_hasFile {session : Path} (hsession : session.IsRead) {at_ : Location}
    {stamp : String} {files : Files} {w : Host}
    (h : w.HasFile (manifestPath session).render at_ (Utf8.encode
      (JsonValue.array (manifestFrom session stamp 0 files)).render)) :
    (entries session).runIn w = (.ok (entriesFrom session stamp 0 files), w) := by
  have hplain : JsonValue.IsPlain w.levels (.array (manifestFrom session stamp 0 files)) :=
    .array (isPlain_manifestFrom _ _ _ _ _)
  have hread : (Action.readText (manifestPath session).render).runIn w = _ :=
    Action.runIn_readText h (Utf8.decode_encode _)
  unfold entries
  rw [Action.runIn_bind_of_ok hread, hplain.unifyLineEnds_render,
    Action.runIn_bind_of_ok (Action.runIn_readJson _ w), hplain.read_render]
  show (Action.lift (List.mapM entryOf _)).runIn w = _
  rw [Action.runIn_lift, mapM_entryOf_manifestFrom hsession]

/-- The entries of a complete backup are those of the files that were saved. -/
theorem runIn_entries {place : Location} {stamp : String} {files : Files} {w : Host}
    (h : IsComplete place stamp files w.disk) :
    (entries ⟨.root, place⟩).runIn w = (.ok (entriesFrom ⟨.root, place⟩ stamp 0 files), w) := by
  have hplace : Path.Descends place := h.fits.descends.of_isPrefix (List.prefix_append _ _)
  have hfile := Host.hasFile_render h.fits (h.directory.opensTo _) h.manifest
  exact runIn_entries_of_hasFile (fun s hs => (hplace s hs).1) hfile

theorem HoldsFrom.runIn_first {place : Location} {index : Nat} {name : String} {text : Text}
    {rest : Files} {w : Host} (h : HoldsFrom place index ((name, text) :: rest) w.disk)
    (hdirectory : w.disk.Holds place) :
    (Action.exists? ⟨.root, place ++ [backupName index name]⟩).runIn w = (.ok true, w) ∧
    (Action.readText (Path.render ⟨.root, place ++ [backupName index name]⟩)).runIn w =
      (.ok text, w) := by
  obtain ⟨hfits, hget⟩ := h 0 name text rfl
  rw [Nat.add_zero] at hfits hget
  have hopens := hdirectory.opensTo (backupName index name)
  have hexists := Action.runIn_exists? hfits fun _ => hopens
  rw [Disk.has_of_get? hget] at hexists
  exact ⟨hexists, Action.runIn_readText (Host.hasFile_render hfits hopens hget)
    (Utf8.decode_encode text)⟩

/-- The other texts are saved as before, if nothing in the backup was touched. -/
theorem HoldsFrom.rest {place : Location} {index : Nat} {first : String × Text} {rest : Files}
    {disk after : Disk} (h : HoldsFrom place index (first :: rest) disk)
    (hsame : ∀ at_, place <+: at_ → after.get? at_ = disk.get? at_) :
    HoldsFrom place (index + 1) rest after := by
  intro i name text hfile
  have hnext := h (i + 1) name text hfile
  rw [Nat.add_comm i 1, ← Nat.add_assoc] at hnext
  rw [hsame _ (List.prefix_append _ _)]
  exact hnext

theorem runIn_restore_cons (entry : Entry) (rest : List Entry) {text : Text} {w : Host}
    (hexists : (Action.exists? entry.backup).runIn w = (.ok true, w))
    (hread : (Action.readText entry.backup.render).runIn w = (.ok text, w)) :
    (restore (entry :: rest)).runIn w = (do
      Action.writeText entry.file.render text
      let others ← restore rest
      pure (entry :: others) : Action (List Entry)).runIn w := by
  rw [restore, Action.runIn_bind_of_ok hexists, if_pos rfl, Action.runIn_bind_of_ok hread]

/-- Every file that can be written gets its saved text. The backup and the files to come are still
there, whatever was written. -/
theorem runIn_restore {place : Location} {stamp : String} {index : Nat} {files : Files}
    {target : String → Location} {w : Host} (hdirectory : w.disk.Holds place)
    (hsaved : HoldsFrom place index files w.disk)
    (hfiles : ∀ name ∈ files.keys, w.CanWrite (Path.ofString name).render (target name))
    (hoff : ∀ name ∈ files.keys, ¬Near place (target name)) :
    (restore (entriesFrom ⟨.root, place⟩ stamp index files)).runIn w =
      (.ok (entriesFrom ⟨.root, place⟩ stamp index files),
        w.afterWrites target files) := by
  induction files generalizing index w with
  | nil => exact congrArg (Prod.mk _) (w.afterWrites_nil target).symm
  | cons first rest ih =>
    obtain ⟨name, text⟩ := first
    obtain ⟨hexists, hread⟩ := hsaved.runIn_first hdirectory
    have hfile := hfiles name List.mem_cons_self
    have hwrite := Action.runIn_writeText hfile text
    have hstill : ∀ other ∈ Dict.keys rest, (w.after [.truncate (target name),
        .write (target name) (Utf8.encode text)]).CanWrite (Path.ofString other).render
          (target other) :=
      fun other hother => hfile.after_write (hfiles other (List.mem_cons_of_mem _ hother)) _
    have hspares : w.Spares (Near place)
        (w.after [.truncate (target name), .write (target name) (Utf8.encode text)]) :=
      (w.performs_after _).spares_write (hoff name List.mem_cons_self)
    rw [w.afterWrites_cons]
    generalize w.after [.truncate (target name), .write (target name) (Utf8.encode text)] = v
      at hwrite hstill hspares ⊢
    have hdirectory' : v.disk.Holds place := by
      intro above habove
      rw [hspares.get? (Or.inl habove)]
      exact hdirectory above habove
    have hsaved' := hsaved.rest fun at_ hat => hspares.get? (Or.inr hat)
    have hend := ih hdirectory' hsaved' hstill fun other h => hoff other (List.mem_cons_of_mem _ h)
    let entry : Entry :=
      ⟨Path.ofString name, ⟨.root, place ++ [backupName index name]⟩, .text stamp⟩
    let others := entriesFrom ⟨.root, place⟩ stamp (index + 1) rest
    refine (runIn_restore_cons entry others hexists hread).trans ?_
    exact (Action.runIn_bind_of_ok hwrite).trans (Action.runIn_bind_of_ok hend)

end Backup

end ChainGuard
