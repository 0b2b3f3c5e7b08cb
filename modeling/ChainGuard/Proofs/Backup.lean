import ChainGuard.Backup
import ChainGuard.Proofs.Host

/-!
# What saving leaves on the disk

A backup is a directory that was not there before. Saving makes it, the directories of the project
that hold it, and files in it, and changes nothing else.

1. Names of backups and of saved texts are single parts.
2. `Host.MakesAbove`, `Host.WritesIn`: directories above a place, files in it.
3. `Backup.Saved`: the disk after saving.
4. `Backup.prepare_cases`, `Backup.save_eq_ok`: the steps of saving.
-/

namespace ChainGuard

open ChainGuard.Action (IsFrame Leads MakesAt WritesAt)

/-! ## 1. Names -/

open ChainGuard.Path (slash_not_mem_append slash_not_mem_toString slash_not_mem_zeros)

namespace Clock

theorem slash_not_mem_twoDigits (n : Nat) : '/' ∉ (twoDigits n).toList := by
  have hdigits := slash_not_mem_toString n
  unfold twoDigits
  split
  · exact slash_not_mem_append (by decide) hdigits
  · exact hdigits

theorem slash_not_mem_stamp (c : Clock) : '/' ∉ c.stamp.toList := by
  have hdash : '/' ∉ (toString "-").toList := by decide
  have hdate := slash_not_mem_append (slash_not_mem_append (slash_not_mem_append
    (slash_not_mem_append (slash_not_mem_toString c.year) hdash) (slash_not_mem_twoDigits c.month))
    hdash) (slash_not_mem_twoDigits c.day)
  have htime := slash_not_mem_append (slash_not_mem_append (slash_not_mem_append
    (slash_not_mem_append (slash_not_mem_twoDigits c.hour) hdash)
    (slash_not_mem_twoDigits c.minute)) hdash) (slash_not_mem_twoDigits c.second)
  exact slash_not_mem_append (slash_not_mem_append hdate (by decide)) htime

theorem length_stamp (c : Clock) : 2 < c.stamp.toList.length := by
  have hdash : (toString "-").toList.length = 1 := by decide
  unfold stamp
  simp only [String.toList_append, List.length_append]
  omega

end Clock

namespace Backup

theorem descends_homeName : Path.Descends [homeName] :=
  Path.descends_singleton (by decide) (by decide)

theorem descends_storeName : Path.Descends ["backups"] :=
  Path.descends_singleton (by decide) (by decide)

theorem descends_manifestName : Path.Descends ["manifest.json"] :=
  Path.descends_singleton (by decide) (by decide)

theorem descends_restoredName : Path.Descends ["manifest.restored.json"] :=
  Path.descends_singleton (by decide) (by decide)

theorem descends_sessionName (c : Clock) (n : Nat) : Path.Descends [sessionName c.stamp n] := by
  have hslash := c.slash_not_mem_stamp
  have hlength := c.length_stamp
  cases n with
  | zero => exact Path.descends_singleton hlength hslash
  | succ n =>
    refine Path.descends_singleton ?_ ?_
    · have hfront : (toString c.stamp).toList.length = c.stamp.toList.length := rfl
      unfold sessionName
      simp only [String.toList_append, List.length_append]
      omega
    · exact slash_not_mem_append (slash_not_mem_append hslash (by decide))
        (slash_not_mem_toString (n + 1))

theorem slash_not_mem_name (file : String) : '/' ∉ (Path.ofString file).name.toList := by
  unfold Path.name
  cases hlast : (Path.ofString file).parts.getLast? with
  | none => decide
  | some part => exact (Path.isRead_ofString file part (List.mem_of_getLast? hlast)).no_slash

theorem descends_backupName (index : Nat) (file : String) :
    Path.Descends [backupName index file] := by
  have hdigits : '/' ∉ (fourDigits index).toList :=
    slash_not_mem_append (slash_not_mem_zeros _) (slash_not_mem_toString index)
  refine Path.descends_singleton ?_ ?_
  · have hend : (toString ".bak").toList.length = 4 := by decide
    unfold backupName
    simp only [String.toList_append, List.length_append]
    omega
  · exact slash_not_mem_append (slash_not_mem_append (slash_not_mem_append hdigits (by decide))
      (slash_not_mem_name file)) (by decide)

end Backup

/-! ## 2. Changes above and below a place -/

namespace Host

/-- Directories were made above the place, where nothing was. -/
def MakesAbove (place : Location) (w w' : Host) : Prop :=
  w.Grows w' ∧ ∀ at_, w'.disk.get? at_ = w.disk.get? at_ ∨
    at_ <+: place ∧ at_ ≠ place ∧ w.disk.get? at_ = none ∧ w'.disk.get? at_ = some .directory

/-- No change was made anywhere but at what lies directly in the place. -/
def WritesIn (place : Location) : Host → Host → Prop :=
  Spares fun at_ => ∀ name, at_ ≠ place ++ [name]

theorem isFrame_makesAbove (place : Location) : IsFrame (MakesAbove place) where
  quiet h := ⟨isFrame_grows.quiet h, fun at_ => Or.inl (by rw [h.disk])⟩
  trans hab hbc := by
    refine ⟨isFrame_grows.trans hab.1 hbc.1, fun at_ => ?_⟩
    rcases hab.2 at_ with hb | ⟨habove, hne, hnone, hmade⟩
    · rcases hbc.2 at_ with hc | ⟨habove, hne, hnone, hmade⟩
      · exact Or.inl (hc.trans hb)
      · exact Or.inr ⟨habove, hne, hb ▸ hnone, hmade⟩
    · rcases hbc.2 at_ with hc | ⟨-, -, hnone', -⟩
      · exact Or.inr ⟨habove, hne, hnone, hc.trans hmade⟩
      · rw [hmade] at hnone'
        cases hnone'

theorem isFrame_writesIn (place : Location) : IsFrame (WritesIn place) :=
  isFrame_spares _

theorem makesAt_makesAbove {place at_ : Location} (habove : at_ <+: place) (hne : at_ ≠ place) :
    MakesAt (MakesAbove place) at_ := by
  intro w w' hhas hperforms
  have hdisk : w'.disk = w.disk.set at_ .directory := hperforms.disk
  refine ⟨makesAt_grows at_ w w' hhas hperforms, fun other => ?_⟩
  by_cases heq : other = at_
  · subst heq
    have hroot : other ≠ [] := by
      rintro rfl
      cases hhas
    rw [hdisk, Disk.get?_set_self _ hroot]
    exact Or.inr ⟨habove, hne, Disk.get?_eq_none hhas, rfl⟩
  · rw [hdisk, Disk.get?_set_of_ne _ heq]
    exact Or.inl rfl

theorem writesAt_writesIn (place : Location) (name : String) :
    WritesAt (WritesIn place) (place ++ [name]) :=
  writesAt_spares fun hother => hother name rfl

end Host

/-- Making a directory with those above it may fail after some of these were made. Else it makes the
directory, which was not there. Those above are made first, and lie strictly above it. -/
theorem Action.makeDirectories_cases {parts : List String} (hparts : Path.Descends parts)
    (w : Host) :
    (∃ e w', (makeDirectories ⟨.root, parts⟩).runIn w = (.error e, w') ∧ w.MakesAbove parts w') ∨
    ∃ v w' : Host, (makeDirectories ⟨.root, parts⟩).runIn w = (.ok (), w') ∧
      w.MakesAbove parts v ∧ v.disk.OpensTo parts ∧ v.disk.has parts = false ∧
      v.Performs [.makeDirectory parts] w' := by
  have hR := Host.isFrame_makesAbove parts
  have hattempt := runIn_attempt (makeDirectory ⟨.root, parts⟩) w
  rcases hfirst : (makeDirectory ⟨.root, parts⟩).runIn w with ⟨first, w₁⟩
  rw [hfirst] at hattempt
  unfold makeDirectories
  rw [runIn_bind_of_ok hattempt]
  cases first with
  | ok => exact Or.inr ⟨w, w₁, rfl, hR.quiet (.refl w), makeDirectory_eq_ok hparts hfirst⟩
  | error e =>
    cases makeDirectory_eq_error hfirst
    dsimp only
    split
    · next hmissing =>
      have hne : parts.dropLast ≠ parts := by
        rw [Bool.and_eq_true, bne_iff_ne] at hmissing
        exact fun heq => hmissing.2 (congrArg (Path.mk .root) heq)
      have habove := List.dropLast_prefix parts
      have hmakes : ∀ place, place <+: parts.dropLast → MakesAt (Host.MakesAbove parts) place := by
        intro place hplace
        refine Host.makesAt_makesAbove (hplace.trans habove) ?_
        rintro rfl
        exact hne (habove.eq_of_length_le hplace.length_le)
      have hleads := leads_ensureDirectories hR (hparts.of_isPrefix habove) hmakes parts.length
      rcases hensure : (ensureDirectories parts.length ⟨.root, parts.dropLast⟩).runIn w with
        ⟨ensured, v⟩
      have hv := hleads.of_run hensure
      cases ensured with
      | error e => exact Or.inl ⟨e, v, runIn_bind_of_error hensure, hv⟩
      | ok =>
        rcases hmake : (makeDirectory ⟨.root, parts⟩).runIn v with ⟨made, w'⟩
        cases made with
        | error e =>
          cases makeDirectory_eq_error hmake
          exact Or.inl ⟨e, _, (runIn_bind_of_ok hensure).trans hmake, hv⟩
        | ok =>
          exact Or.inr ⟨v, w', (runIn_bind_of_ok hensure).trans hmake, hv,
            makeDirectory_eq_ok hparts hmake⟩
    · exact Or.inl ⟨e, w, rfl, hR.quiet (.refl w)⟩

namespace Backup

/-- The place of the directory kept for a project. -/
def homeAt (project : Location) : Location :=
  project ++ [homeName]

/-- The place of the directory that holds the backups of a project. -/
def storeAt (project : Location) : Location :=
  homeAt project ++ ["backups"]

/-- The places that saving may change: the directories that hold the backup, and all that lies in
it. -/
def Covers (project backup at_ : Location) : Prop :=
  at_ = homeAt project ∨ at_ = storeAt project ∨ backup <+: at_

/-- A backup of a project is there in the end, in the directories that hold the backups. Before,
there was nothing at its place or below, and nothing but directories where it is held. -/
structure Made (project backup : Location) (w w' : Host) : Prop where
  below : ∃ name, backup = storeAt project ++ [name]
  fresh : ∀ at_, backup <+: at_ → w.disk.get? at_ = none
  made : w'.disk.get? backup = some .directory
  holders : ∀ at_, at_ = homeAt project ∨ at_ = storeAt project →
    (w.disk.get? at_ = none ∨ w.disk.get? at_ = some .directory) ∧
      w'.disk.get? at_ = some .directory

/-- A backup of a project was made, with nothing deep in it, and all else is as it was. -/
structure Saved (project backup : Location) (w w' : Host) : Prop
    extends Made project backup w w' where
  directory : w.disk.get? project = some .directory
  flat : ∀ at_, backup <+: at_ → w'.disk.has at_ = true →
    at_ = backup ∨ ∃ name, at_ = backup ++ [name]
  grows : w.Grows w'
  kept : ∀ at_, ¬Covers project backup at_ → w'.disk.get? at_ = w.disk.get? at_

theorem Made.mono {project backup : Location} {w v w' : Host} (h : Made project backup w v)
    (hkeeps : v.disk.KeepsDirectories w'.disk) : Made project backup w w' where
  below := h.below
  fresh := h.fresh
  made := hkeeps backup h.made
  holders at_ hat := ⟨(h.holders at_ hat).1, hkeeps at_ (h.holders at_ hat).2⟩

theorem Made.of_sameDisk {project backup : Location} {w v w' : Host} (hsame : w.SameDisk v)
    (h : Made project backup v w') : Made project backup w w' where
  below := h.below
  fresh := hsame.disk ▸ h.fresh
  made := h.made
  holders := hsame.disk ▸ h.holders

/-- A backup may be made after changes that left the disk as it was. -/
theorem Saved.of_sameDisk {project backup : Location} {w v w' : Host} (hsame : w.SameDisk v)
    (hgrows : w.Grows v) (h : Saved project backup v w') : Saved project backup w w' where
  toMade := h.toMade.of_sameDisk hsame
  directory := hsame.disk ▸ h.directory
  flat := h.flat
  grows := Host.isFrame_grows.trans hgrows h.grows
  kept := hsame.disk ▸ h.kept

theorem Made.not_file {project backup : Location} {w w' : Host} (h : Made project backup w w')
    {at_ : Location} (hat : Covers project backup at_) (content : Bytes) :
    w.disk.get? at_ ≠ some (.file content) := by
  intro hfile
  have hholder : at_ = homeAt project ∨ at_ = storeAt project → False := by
    intro hheld
    rcases (h.holders at_ hheld).1 with hnone | hdir
    · rw [hfile] at hnone
      cases hnone
    · rw [hfile] at hdir
      cases hdir
  rcases hat with hhome | hstore | hunder
  · exact hholder (Or.inl hhome)
  · exact hholder (Or.inr hstore)
  · rw [h.fresh at_ hunder] at hfile
    cases hfile

theorem Saved.cwd {project backup : Location} {w w' : Host} (h : Saved project backup w w') :
    w'.cwd = w.cwd :=
  h.grows.cwd

theorem Saved.keepsDirectories {project backup : Location} {w w' : Host}
    (h : Saved project backup w w') : w.disk.KeepsDirectories w'.disk := by
  intro at_ hdir
  by_cases hat : Covers project backup at_
  · rcases hat with hhome | hstore | hunder
    · exact (h.holders at_ (Or.inl hhome)).2
    · exact (h.holders at_ (Or.inr hstore)).2
    · rw [h.fresh at_ hunder] at hdir
      cases hdir
  · rw [h.kept at_ hat, hdir]

/-- A disk that is a tree is a tree after saving. -/
theorem Saved.isTree {project backup : Location} {w w' : Host} (h : Saved project backup w w')
    (hw : w.disk.IsTree) : w'.disk.IsTree := by
  intro at_ hhas
  by_cases hat : Covers project backup at_
  · rcases hat with rfl | rfl | hunder
    · rw [homeAt, List.dropLast_concat]
      exact h.keepsDirectories _ h.directory
    · rw [storeAt, List.dropLast_concat]
      exact (h.holders _ (Or.inl rfl)).2
    · rcases h.flat at_ hunder hhas with rfl | ⟨name, rfl⟩
      · obtain ⟨name, rfl⟩ := h.below
        rw [List.dropLast_concat]
        exact (h.holders _ (Or.inr rfl)).2
      · rw [List.dropLast_concat]
        exact h.made
  · rw [Disk.has, h.kept at_ hat] at hhas
    exact h.keepsDirectories _ (hw at_ hhas)

/-- The names before the one that is taken are in use. -/
theorem freeSession_eq_ok {directory : Location} (hdirectory : Path.Descends directory) {p : Path}
    {c : Clock} {fuel n : Nat} {w w' : Host}
    (h : (freeSession ⟨.root, directory⟩ c.stamp fuel n).runIn w = (.ok p, w')) :
    w' = w ∧ ∃ k, p = ⟨.root, directory ++ [sessionName c.stamp k]⟩ ∧
      ∀ j, n ≤ j → j < k → w.disk.has (directory ++ [sessionName c.stamp j]) = true := by
  induction fuel generalizing n with
  | zero =>
    cases h
    exact ⟨rfl, n, rfl, fun j hn hk => absurd hn (Nat.not_le.mpr hk)⟩
  | succ fuel ih =>
    obtain ⟨there, v, hthere, hend⟩ := Action.runIn_bind_eq_ok h
    have hv := Action.host_of_exists? hthere
    subst hv
    cases there with
    | true =>
      obtain ⟨-, hhas⟩ :=
        Action.exists?_eq_ok_true (hdirectory.append (descends_sessionName c n)) hthere
      obtain ⟨hsame, k, hp, htaken⟩ := ih hend
      refine ⟨hsame, k, hp, fun j hn hk => ?_⟩
      rcases Nat.eq_or_lt_of_le hn with rfl | hn
      · exact hhas
      · exact htaken j hn hk
    | false =>
      cases hend
      exact ⟨rfl, n, rfl, fun j hn hk => absurd hn (Nat.not_le.mpr hk)⟩

theorem leads_saveFrom {R : Host → Host → Prop} (hR : IsFrame R) {place : Location}
    (hplace : Path.Descends place) (h : ∀ i name, WritesAt R (place ++ [backupName i name]))
    (stamp : String) (index : Nat) (files : Files) :
    Leads R (saveFrom ⟨.root, place⟩ stamp index files) := by
  induction files generalizing index with
  | nil => exact .pure hR _
  | cons entry rest ih =>
    obtain ⟨file, text⟩ := entry
    have hname := hplace.append (descends_backupName index file)
    refine .bind hR (Action.leads_writeText hR hname (h index file) _) fun _ => ?_
    exact .bind hR (ih (index + 1)) fun _ => .pure hR _

theorem home_eq_ok {project : Location} {p : Path} {w w' : Host}
    (h : (home ⟨.root, project⟩).runIn w = (.ok p, w')) :
    (Action.ensureDirectory ⟨.root, homeAt project⟩).runIn w = (.ok (), w') := by
  obtain ⟨⟨⟩, v, hensure, hpure⟩ := Action.runIn_bind_eq_ok h
  cases hpure
  exact hensure

theorem descends_storeAt {project : Location} (hproject : Path.Descends project) :
    Path.Descends (storeAt project) :=
  (hproject.append descends_homeName).append descends_storeName

theorem descends_homeAt {project : Location} (hproject : Path.Descends project) :
    Path.Descends (homeAt project) :=
  (descends_storeAt hproject).of_isPrefix (List.prefix_append _ _)

/-- Ensuring the directory kept for a project changes nothing else. -/
theorem get?_home {project : Location} (hproject : Path.Descends project) {w w' : Host}
    (h : (Action.ensureDirectory ⟨.root, homeAt project⟩).runIn w = (.ok (), w')) {at_ : Location}
    (hat : at_ ≠ homeAt project) : w'.disk.get? at_ = w.disk.get? at_ := by
  obtain ⟨-, -, rfl | ⟨-, hmade⟩⟩ := Action.ensureDirectory_eq_ok (descends_homeAt hproject) h
  · rfl
  · rw [hmade.disk]
    exact Disk.get?_set_of_ne _ hat

theorem grows_home {project : Location} (hproject : Path.Descends project) {w w' : Host}
    (h : (Action.ensureDirectory ⟨.root, homeAt project⟩).runIn w = (.ok (), w')) : w.Grows w' := by
  obtain ⟨-, -, rfl | ⟨hhas, hmade⟩⟩ := Action.ensureDirectory_eq_ok (descends_homeAt hproject) h
  · exact Host.isFrame_grows.quiet (.refl _)
  · exact Host.makesAt_grows _ _ _ hhas hmade

theorem clock_home {project : Location} (hproject : Path.Descends project) {p : Path} {w w' : Host}
    (h : (home ⟨.root, project⟩).runIn w = (.ok p, w')) : w'.clock = w.clock := by
  obtain ⟨-, -, rfl | ⟨-, hmade⟩⟩ :=
    Action.ensureDirectory_eq_ok (descends_homeAt hproject) (home_eq_ok h)
  · rfl
  · exact hmade.clock

/-- Write texts and their manifest into a backup that was just made. -/
def fill (session : Path) (stamp : String) (files : Files) : Action Path := do
  let manifest ← saveFrom session stamp 0 files
  Action.writeText (manifestPath session).render (JsonValue.array manifest).render
  pure session

theorem leads_fill {place : Location} (hplace : Path.Descends place) (stamp : String)
    (files : Files) : Leads (Host.WritesIn place) (fill ⟨.root, place⟩ stamp files) := by
  have hR := Host.isFrame_writesIn place
  have hwrites := fun i name => Host.writesAt_writesIn place (backupName i name)
  refine .bind hR (leads_saveFrom hR hplace hwrites stamp 0 files) fun manifest => ?_
  refine .bind hR ?_ fun _ => .pure hR _
  exact Action.leads_writeText hR (hplace.append descends_manifestName)
    (Host.writesAt_writesIn _ _) _

theorem fill_eq_ok {session p : Path} {stamp : String} {files : Files} {w w' : Host}
    (h : (fill session stamp files).runIn w = (.ok p, w')) : p = session := by
  obtain ⟨manifest, w₄, -, h⟩ := Action.runIn_bind_eq_ok h
  obtain ⟨⟨⟩, w₅, -, hpure⟩ := Action.runIn_bind_eq_ok h
  exact (Except.ok.inj (congrArg Prod.fst hpure)).symm

/-- The steps before a backup is filled: the directory kept for the project is there in `w₁`, the
directories above the backup are there in `v`, then the backup is made. -/
structure Prepared (project backup : Location) (w w₁ v w₃ : Host) : Prop where
  home : (Action.ensureDirectory ⟨.root, homeAt project⟩).runIn w = (.ok (), w₁)
  above : w₁.MakesAbove backup v
  opens : v.disk.OpensTo backup
  fresh : v.disk.has backup = false
  made : v.Performs [.makeDirectory backup] w₃

/-- The steps of saving. -/
structure Steps (project backup : Location) (w w₁ v w₃ w' : Host) : Prop
    extends Prepared project backup w w₁ v w₃ where
  filled : w₃.WritesIn backup w'

/-- Above the directory that holds the backups lies the directory kept for the project, and above
that the project. -/
theorem above_backup {project at_ : Location} {name : String}
    (h : at_ <+: storeAt project ++ [name]) (hne : at_ ≠ storeAt project ++ [name]) :
    at_ = storeAt project ∨ at_ = homeAt project ∨
      at_ <+: homeAt project ∧ at_ ≠ homeAt project := by
  rcases List.prefix_concat_iff.mp h with heq | hstore
  · exact absurd heq hne
  · rcases List.prefix_concat_iff.mp hstore with heq | hhome
    · exact Or.inl heq
    · by_cases heq : at_ = homeAt project
      · exact Or.inr (Or.inl heq)
      · exact Or.inr (Or.inr ⟨hhome, heq⟩)

namespace Prepared

variable {project backup : Location} {name : String} {w w₁ v w₃ w' : Host}

/-- The first step changes nothing but the directory kept for the project. -/
theorem get?_first (h : Prepared project backup w w₁ v w₃) (hproject : Path.Descends project)
    {at_ : Location} (hat : at_ ≠ homeAt project) : w₁.disk.get? at_ = w.disk.get? at_ :=
  get?_home hproject h.home hat

theorem store_ne_home (project : Location) : storeAt project ≠ homeAt project := by
  intro heq
  have hlength := congrArg List.length heq
  simp [storeAt] at hlength

theorem backup_ne_home (project : Location) (name : String) :
    storeAt project ++ [name] ≠ homeAt project := by
  intro heq
  have hlength := congrArg List.length heq
  simp [storeAt] at hlength

theorem store_ne_backup (project : Location) (name : String) :
    storeAt project ≠ storeAt project ++ [name] := by
  intro heq
  have hlength := congrArg List.length heq
  simp at hlength

theorem has_fresh (h : Prepared project (storeAt project ++ [name]) w w₁ v w₃)
    (hproject : Path.Descends project) : w.disk.has (storeAt project ++ [name]) = false := by
  rcases h.above.2 (storeAt project ++ [name]) with hsame | ⟨-, hne, -⟩
  · rw [Disk.has, ← h.get?_first hproject (backup_ne_home _ _), ← hsame]
    exact h.fresh
  · exact absurd rfl hne

/-- Before the backup is filled, nothing lies in it. -/
theorem get?_below (h : Prepared project (storeAt project ++ [name]) w w₁ v w₃)
    (hproject : Path.Descends project) (hw : w.disk.IsTree) {at_ : Location}
    (hunder : storeAt project ++ [name] <+: at_) (hne : at_ ≠ storeAt project ++ [name]) :
    w₃.disk.get? at_ = none := by
  have hmade : w₃.disk.get? at_ = v.disk.get? at_ := by
    rw [h.made.disk]
    exact Disk.get?_set_of_ne _ hne
  have hhome : at_ ≠ homeAt project := by
    rintro rfl
    have hlength := hunder.length_le
    simp only [storeAt, List.length_append, List.length_singleton] at hlength
    omega
  have hnone : w.disk.get? at_ = none :=
    Disk.get?_eq_none (hw.has_below (h.has_fresh hproject) hunder)
  rcases h.above.2 at_ with hsame | ⟨habove, hoff, -⟩
  · rw [hmade, hsame, h.get?_first hproject hhome, hnone]
  · exact absurd (habove.eq_of_length_le hunder.length_le) hoff

theorem holds_made (h : Prepared project (storeAt project ++ [name]) w w₁ v w₃) :
    w₃.disk.Holds (storeAt project ++ [name]) := by
  rw [h.made.disk]
  exact h.opens.holds_set (List.append_ne_nil_of_right_ne_nil _ (List.cons_ne_nil _ _))

theorem grows (h : Prepared project (storeAt project ++ [name]) w w₁ v w₃)
    (hproject : Path.Descends project) : w.Grows w₃ := by
  have hR := Host.isFrame_grows
  have hhome := grows_home hproject h.home
  exact hR.trans (hR.trans hhome h.above.1) (Host.makesAt_grows _ _ _ h.fresh h.made)

/-- Filling the backup touches nothing that was there. -/
theorem grows_of_writesIn (h : Prepared project (storeAt project ++ [name]) w w₁ v w₃)
    (hproject : Path.Descends project) (hw : w.disk.IsTree)
    (hfilled : w₃.WritesIn (storeAt project ++ [name]) w') : w₃.Grows w' := by
  refine hfilled.mono fun at_ hat other heq => ?_
  have hnone := h.get?_below hproject hw (heq ▸ List.prefix_append _ _)
    fun hsame => absurd (congrArg List.length (heq.symm.trans hsame)) (by simp)
  rw [Disk.has, hnone] at hat
  cases hat

end Prepared

namespace Steps

open Prepared (store_ne_home backup_ne_home store_ne_backup)

variable {project backup : Location} {name : String} {w w₁ v w₃ w' : Host}

/-- The last steps change nothing but the backup and what lies in it. -/
theorem get?_last (h : Steps project backup w w₁ v w₃ w') {at_ : Location}
    (hat : ¬backup <+: at_) : w'.disk.get? at_ = v.disk.get? at_ := by
  have hne : at_ ≠ backup := by
    rintro rfl
    exact hat List.prefix_rfl
  have hoff : ∀ name, at_ ≠ backup ++ [name] := by
    rintro name rfl
    exact hat (List.prefix_append _ _)
  rw [h.filled.get? hoff, h.made.disk]
  exact Disk.get?_set_of_ne _ hne

theorem not_prefix_of_above {at_ : Location} (habove : at_ <+: backup) (hne : at_ ≠ backup) :
    ¬backup <+: at_ :=
  fun hunder => hne (habove.eq_of_length_le hunder.length_le)

theorem get?_above (h : Steps project backup w w₁ v w₃ w') {at_ : Location}
    (habove : at_ <+: backup) (hne : at_ ≠ backup) : w'.disk.get? at_ = some .directory := by
  rw [h.get?_last (not_prefix_of_above habove hne)]
  exact h.opens at_ habove hne

/-- The directories that hold the backup are there now, and nothing else was in their place. -/
theorem holders (h : Steps project (storeAt project ++ [name]) w w₁ v w₃ w')
    (hproject : Path.Descends project) {at_ : Location}
    (hat : at_ = homeAt project ∨ at_ = storeAt project) :
    (w.disk.get? at_ = none ∨ w.disk.get? at_ = some .directory) ∧
      w'.disk.get? at_ = some .directory := by
  have hstore : storeAt project <+: storeAt project ++ [name] := List.prefix_append _ _
  rcases hat with rfl | rfl
  · refine ⟨?_, h.get?_above ((List.prefix_append _ _).trans hstore) (backup_ne_home _ _).symm⟩
    obtain ⟨-, hthere, rfl | ⟨hhas, -⟩⟩ :=
      Action.ensureDirectory_eq_ok (descends_homeAt hproject) h.home
    · exact Or.inr hthere
    · exact Or.inl (Disk.get?_eq_none hhas)
  · refine ⟨?_, h.get?_above hstore (store_ne_backup _ _)⟩
    rw [← h.get?_first hproject (store_ne_home project)]
    rcases h.above.2 (storeAt project) with hsame | ⟨-, -, hnone, -⟩
    · exact Or.inr (hsame ▸ h.opens _ hstore (store_ne_backup _ _))
    · exact Or.inl hnone

theorem get?_made (h : Steps project (storeAt project ++ [name]) w w₁ v w₃ w') :
    w'.disk.get? (storeAt project ++ [name]) = some .directory := by
  have hroot : storeAt project ++ [name] ≠ [] := List.append_ne_nil_of_right_ne_nil _ nofun
  have hoff : ∀ other, storeAt project ++ [name] ≠ storeAt project ++ [name] ++ [other] :=
    fun other heq => absurd (congrArg List.length heq) (by simp)
  rw [h.filled.get? hoff, h.made.disk]
  exact Disk.get?_set_self _ hroot

/-- Everything else is as it was. -/
theorem get?_kept (h : Steps project (storeAt project ++ [name]) w w₁ v w₃ w')
    (hproject : Path.Descends project) {at_ : Location}
    (hat : ¬Covers project (storeAt project ++ [name]) at_) :
    w'.disk.get? at_ = w.disk.get? at_ := by
  have hhome : at_ ≠ homeAt project := fun heq => hat (Or.inl heq)
  have hstore : at_ ≠ storeAt project := fun heq => hat (Or.inr (Or.inl heq))
  have hunder : ¬storeAt project ++ [name] <+: at_ := fun h => hat (Or.inr (Or.inr h))
  rw [h.get?_last hunder]
  rcases h.above.2 at_ with hsame | ⟨habove, hne, hnone, -⟩
  · rw [hsame, h.get?_first hproject hhome]
  · rcases above_backup habove hne with heq | heq | ⟨hhigh, hneHome⟩
    · exact absurd heq hstore
    · exact absurd heq hhome
    · obtain ⟨hopens, -⟩ := Action.ensureDirectory_eq_ok (descends_homeAt hproject) h.home
      rw [h.get?_first hproject hhome, hopens at_ hhigh hneHome] at hnone
      cases hnone

/-- What lies below the backup lies directly in it. -/
theorem flat (h : Steps project (storeAt project ++ [name]) w w₁ v w₃ w')
    (hproject : Path.Descends project) (hw : w.disk.IsTree) {at_ : Location}
    (hunder : storeAt project ++ [name] <+: at_) (hhas : w'.disk.has at_ = true) :
    at_ = storeAt project ++ [name] ∨ ∃ other, at_ = storeAt project ++ [name] ++ [other] := by
  by_contra hdeep
  rw [not_or, not_exists] at hdeep
  rw [Disk.has, h.filled.get? hdeep.2, h.get?_below hproject hw hunder hdeep.1] at hhas
  cases hhas

theorem saved (h : Steps project (storeAt project ++ [name]) w w₁ v w₃ w')
    (hproject : Path.Descends project) (hw : w.disk.IsTree) :
    Saved project (storeAt project ++ [name]) w w' where
  below := ⟨name, rfl⟩
  fresh _ hunder := Disk.get?_eq_none (hw.has_below (h.has_fresh hproject) hunder)
  made := h.get?_made
  holders _ hat := h.holders hproject hat
  directory := by
    obtain ⟨hopens, -⟩ := Action.ensureDirectory_eq_ok (descends_homeAt hproject) h.home
    refine hopens project (List.prefix_append _ _) fun heq => ?_
    exact absurd (congrArg List.length heq) (by simp [homeAt])
  flat _ := h.flat hproject hw
  grows := Host.isFrame_grows.trans (h.toPrepared.grows hproject)
    (h.grows_of_writesIn hproject hw h.filled)
  kept _ hat := h.get?_kept hproject hat

end Steps

/-! ## 4. Saving -/

/-- No backup was made. At most the directories that would hold it are new. -/
structure Unsaved (project : Location) (w w' : Host) : Prop where
  tree : w'.disk.IsTree
  grows : w.Grows w'
  kept : ∀ at_, at_ ≠ homeAt project → at_ ≠ storeAt project →
    w'.disk.get? at_ = w.disk.get? at_
  store : w'.disk.get? (storeAt project) = w.disk.get? (storeAt project) ∨
    w'.disk.get? (storeAt project) = some .directory

theorem Unsaved.of_quiet {project : Location} {w w' : Host} (hw : w.disk.IsTree)
    (h : w.Quiet w') : Unsaved project w w' where
  tree := h.disk ▸ hw
  grows := Host.isFrame_grows.quiet h
  kept _ _ _ := by rw [h.disk]
  store := by rw [h.disk]; exact Or.inl rfl

/-- Directories above a backup are only made below the directory kept for the project. -/
theorem Unsaved.of_makesAbove {project : Location} (hproject : Path.Descends project)
    {name : String} {w w₁ w' : Host} (hw : w.disk.IsTree)
    (hhome : (Action.ensureDirectory ⟨.root, homeAt project⟩).runIn w = (.ok (), w₁))
    (h : w₁.MakesAbove (storeAt project ++ [name]) w') : Unsaved project w w' := by
  obtain ⟨hopens, hthere, -⟩ := Action.ensureDirectory_eq_ok (descends_homeAt hproject) hhome
  have hgrows := Host.isFrame_grows.trans (grows_home hproject hhome) h.1
  have hdirectory : ∀ at_, w.disk.get? at_ = some .directory →
      w'.disk.get? at_ = some .directory := by
    intro at_ hdir
    rw [hgrows.get? (Disk.has_of_get? hdir), hdir]
  have hhere : w'.disk.get? (homeAt project) = some .directory := by
    rw [h.1.get? (Disk.has_of_get? hthere), hthere]
  have hcases : ∀ at_, w'.disk.get? at_ = w₁.disk.get? at_ ∨
      at_ = storeAt project ∧ w'.disk.get? at_ = some .directory := by
    intro at_
    rcases h.2 at_ with hsame | ⟨habove, hne, hnone, hmade⟩
    · exact Or.inl hsame
    · rcases above_backup habove hne with heq | rfl | ⟨hhigh, hneHome⟩
      · exact Or.inr ⟨heq, hmade⟩
      · cases hnone.symm.trans hthere
      · rw [get?_home hproject hhome hneHome, hopens at_ hhigh hneHome] at hnone
        cases hnone
  refine ⟨fun at_ hhas => ?_, hgrows, fun at_ hhome' hstore => ?_, ?_⟩
  · by_cases heq : at_ = homeAt project
    · rw [heq, homeAt, List.dropLast_concat]
      refine hdirectory _ (hopens project (List.prefix_append _ _) fun heq => ?_)
      exact absurd (congrArg List.length heq) (by simp [homeAt])
    · rcases hcases at_ with hsame | ⟨rfl, -⟩
      · rw [Disk.has, hsame, get?_home hproject hhome heq] at hhas
        exact hdirectory _ (hw at_ hhas)
      · rw [storeAt, List.dropLast_concat, hhere]
  · rcases hcases at_ with hsame | ⟨heq, -⟩
    · rw [hsame, get?_home hproject hhome hhome']
    · exact absurd heq hstore
  · rcases hcases (storeAt project) with hsame | ⟨-, hmade⟩
    · exact Or.inl (hsame.trans (get?_home hproject hhome (Prepared.store_ne_home project)))
    · exact Or.inr hmade

theorem home_eq_error {project : Path} {e : Failure} {w w' : Host}
    (h : (home project).runIn w = (.error e, w')) : w.Quiet w' := by
  rcases hensure : (Action.ensureDirectory (project.child homeName)).runIn w with ⟨made, v⟩
  cases made with
  | error e' =>
    cases (Action.runIn_bind_of_error hensure).symm.trans h
    exact Action.ensureDirectory_eq_error hensure
  | ok => cases (Action.runIn_bind_of_ok hensure).symm.trans h

theorem leads_freeSession (directory : Path) (stamp : String) (fuel n : Nat) :
    Leads Host.Quiet (freeSession directory stamp fuel n) := by
  have hR := Action.isFrame_quiet
  induction fuel generalizing n with
  | zero => exact .pure hR _
  | succ fuel ih => exact .bind hR (Action.leads_exists? _) fun _ => .ite (ih _) (.pure hR _)

/-- The first part of saving: make the directory of a backup. It gives its path and the time. -/
def prepare (project : Path) : Action (Path × String) := do
  let _ ← home project
  let w ← get
  let session ← freeSession (store project) w.clock.stamp w.disk.length 0
  Action.makeDirectories session
  pure (session, w.clock.stamp)

theorem save_eq (project : Path) (files : Files) :
    save project files = prepare project >>= fun made => fill made.1 made.2 (sorted files) := by
  simp only [save, prepare, fill, bind_assoc, pure_bind]

/-- A backup that is made has the first name that is free. Where none is made, at most the
directories that would hold it are new. -/
theorem prepare_cases {project : Location} (hproject : Path.Descends project) {w : Host}
    (hw : w.disk.IsTree) :
    (∃ e w', (prepare ⟨.root, project⟩).runIn w = (.error e, w') ∧ Unsaved project w w') ∨
    ∃ k w₁ v w₃, (prepare ⟨.root, project⟩).runIn w =
        (.ok (⟨.root, storeAt project ++ [sessionName w.clock.stamp k]⟩, w.clock.stamp), w₃) ∧
      Prepared project (storeAt project ++ [sessionName w.clock.stamp k]) w w₁ v w₃ ∧
      ∀ j < k, w.disk.has (storeAt project ++ [sessionName w.clock.stamp j]) = true := by
  rcases hhome : (home ⟨.root, project⟩).runIn w with ⟨made, w₁⟩
  cases made with
  | error e =>
    exact .inl ⟨e, w₁, Action.runIn_bind_of_error hhome, .of_quiet hw (home_eq_error hhome)⟩
  | ok home =>
    have hensure := home_eq_ok hhome
    have hclock := clock_home hproject hhome
    have hrun : (prepare ⟨.root, project⟩).runIn w = _ :=
      (Action.runIn_bind_of_ok hhome).trans (Action.runIn_bind_of_ok (Action.runIn_get w₁))
    rw [hclock] at hrun
    rw [hrun]
    rcases hfree : (freeSession (store ⟨.root, project⟩) w.clock.stamp w₁.disk.length 0).runIn w₁
      with ⟨found, w₂⟩
    cases found with
    | error e =>
      have hquiet := (leads_freeSession _ _ _ _).of_run hfree
      have habove : w₁.MakesAbove (storeAt project ++ [""]) w₂ :=
        (Host.isFrame_makesAbove _).quiet hquiet
      exact Or.inl ⟨e, w₂, Action.runIn_bind_of_error hfree,
        .of_makesAbove hproject hw hensure habove⟩
    | ok session =>
      obtain ⟨rfl, k, rfl, htaken⟩ := freeSession_eq_ok (descends_storeAt hproject) hfree
      rw [Action.runIn_bind_of_ok hfree]
      have hbackup := (descends_storeAt hproject).append (descends_sessionName w.clock k)
      rcases Action.makeDirectories_cases hbackup w₂ with
        ⟨e, v, hmake, habove⟩ | ⟨v, w₃, hmake, habove, hopens, hfresh, hmade⟩
      · exact Or.inl ⟨e, v, Action.runIn_bind_of_error hmake,
          .of_makesAbove hproject hw hensure habove⟩
      · refine Or.inr ⟨k, w₂, v, w₃, Action.runIn_bind_of_ok hmake,
          ⟨hensure, habove, hopens, hfresh, hmade⟩, fun j hj => ?_⟩
        have hthere := htaken j (Nat.zero_le j) hj
        rwa [Disk.has, get?_home hproject hensure (Prepared.backup_ne_home _ _)] at hthere

/-- Saving fails before a backup is made, or makes one and fills it. -/
theorem save_steps {project : Location} (hproject : Path.Descends project) {files : Files}
    {w w' : Host} (hw : w.disk.IsTree) {result : Except Failure Path}
    (h : (save ⟨.root, project⟩ files).runIn w = (result, w')) :
    (∃ e, result = .error e ∧ Unsaved project w w') ∨ ∃ (k : Nat) (w₁ v w₃ : Host),
      Steps project (storeAt project ++ [sessionName w.clock.stamp k]) w w₁ v w₃ w' ∧
      (∀ j < k, w.disk.has (storeAt project ++ [sessionName w.clock.stamp j]) = true) ∧
      (fill ⟨.root, storeAt project ++ [sessionName w.clock.stamp k]⟩ w.clock.stamp
        (sorted files)).runIn w₃ = (result, w') := by
  rw [save_eq] at h
  rcases prepare_cases hproject hw with
    ⟨e, v, hrun, hunsaved⟩ | ⟨k, w₁, v, w₃, hrun, prepared, htaken⟩
  · cases (Action.runIn_bind_of_error hrun).symm.trans h
    exact Or.inl ⟨e, rfl, hunsaved⟩
  · rw [Action.runIn_bind_of_ok hrun] at h
    have hbackup := (descends_storeAt hproject).append (descends_sessionName w.clock k)
    exact Or.inr ⟨k, w₁, v, w₃, ⟨prepared, (leads_fill hbackup _ _).of_run h⟩, htaken, h⟩

/-- Saving touches nothing that was there, also where it fails. -/
theorem grows_save {project : Location} (hproject : Path.Descends project) (files : Files)
    {w : Host} (hw : w.disk.IsTree) : w.Grows ((save ⟨.root, project⟩ files).runIn w).2 := by
  rcases save_steps hproject hw rfl with ⟨e, -, hunsaved⟩ | ⟨k, w₁, v, w₃, steps, -⟩
  · exact hunsaved.grows
  · exact (steps.saved hproject hw).grows

/-- Saving a backup of a project at an absolute place. -/
theorem save_eq_ok {project : Location} (hproject : Path.Descends project) {files : Files}
    {p : Path} {w w' : Host} (hw : w.disk.IsTree)
    (h : (save ⟨.root, project⟩ files).runIn w = (.ok p, w')) :
    ∃ backup, p = ⟨.root, backup⟩ ∧ Saved project backup w w' := by
  rcases save_steps hproject hw h with ⟨e, he, -⟩ | ⟨k, w₁, v, w₃, steps, -, hfill⟩
  · cases he
  · exact ⟨_, fill_eq_ok hfill, steps.saved hproject hw⟩

end Backup

end ChainGuard
