import ChainGuard.Proofs.Backup.Listing
import ChainGuard.Proofs.Backup.Order

/-!
# Backups as a stack

Backups are saved and undone in any order, and any of these calls may fail. The order of the backups
is only in their names. As long as the clock does not go back and no more than ten backups are saved
at one time, the list is that of the backups that were saved and not undone, the last one first.

1. `Backup.History`: calls, one after the other, and the stack that they should come to.
2. `Backup.Stacked`: what holds after all calls. `Backup.Stacked.sessions`: the list is the stack.
3. `Backup.Stacked.next`: one more call.
4. Main statement: `Backup.sessions_form_stack`. With one backup more at one time the names are out
   of order, by `Backup.sessionName_ten_lt`.
-/

namespace ChainGuard

def Host.atTime (w : Host) (now : Clock) : Host :=
  { w with clock := now }

namespace Backup

/-! ## 1. Calls -/

/-- A call on the backups of a project. -/
inductive Call where
  /-- Save files, at the time that the clock shows. -/
  | save (now : Clock) (files : Files)
  /-- Undo the newest backup. -/
  | undo

/-- A backup that was saved: its path, its time and its files. -/
structure Kept where
  session : Path
  stamp : String
  files : Files

/-- A host, and the backups that were saved on it and not undone, the last one first. -/
structure History where
  host : Host
  stack : List Kept

namespace History

/-- One more call. A call that fails leaves the stack as it is. -/
def next (project : Path) (s : History) : Call → History
  | .save now files =>
    match (save project files).runIn (s.host.atTime now) with
    | (.ok session, w) => ⟨w, ⟨session, now.stamp, files⟩ :: s.stack⟩
    | (.error _, w) => ⟨w, s.stack⟩
  | .undo =>
    match (undo project).runIn s.host with
    | (.ok _, w) => ⟨w, s.stack.tail⟩
    | (.error _, w) => ⟨w, s.stack⟩

section

variable {project : Path} {s : History} {w : Host}

theorem next_save_of_ok {now : Clock} {files : Files} {session : Path}
    (h : (save project files).runIn (s.host.atTime now) = (.ok session, w)) :
    s.next project (.save now files) = ⟨w, ⟨session, now.stamp, files⟩ :: s.stack⟩ := by
  simp only [next, h]

theorem next_save_of_error {now : Clock} {files : Files} {e : Failure}
    (h : (save project files).runIn (s.host.atTime now) = (.error e, w)) :
    s.next project (.save now files) = ⟨w, s.stack⟩ := by
  simp only [next, h]

theorem next_undo_of_ok {entries : List Entry}
    (h : (undo project).runIn s.host = (.ok entries, w)) :
    s.next project .undo = ⟨w, s.stack.tail⟩ := by
  simp only [next, h]

theorem next_undo_of_error {e : Failure} (h : (undo project).runIn s.host = (.error e, w)) :
    s.next project .undo = ⟨w, s.stack⟩ := by
  simp only [next, h]

end

def run (project : Path) (w : Host) (calls : List Call) : History :=
  calls.foldl (next project) ⟨w, []⟩

end History

def clocks (calls : List Call) : List Clock :=
  calls.filterMap fun
    | .save now _ => some now
    | .undo => none

/-- The name stands for a place outside of what is kept for the project. -/
def IsOutside (project here : Location) (name : String) : Prop :=
  ¬homeAt project <+: (Path.resolve ⟨.root, here⟩ (Path.ofString name)).parts

/-- The clock never goes back, and no more than ten backups are saved at one time. No file that is
saved lies in what is kept for the project. -/
structure Orderly (project here : Location) (calls : List Call) : Prop where
  regular : ∀ now ∈ clocks calls, now.Regular
  rising : (clocks calls).Pairwise fun a b => a.reading ≤ b.reading
  few : ∀ now, (clocks calls).count now ≤ 10
  outside : ∀ now files, .save now files ∈ calls → ∀ file ∈ files.keys, IsOutside project here file

/-- There are no backups of the project. -/
structure IsEmpty (project : Location) (disk : Disk) : Prop where
  directory : disk.has (storeAt project) = true → disk.get? (storeAt project) = some .directory
  empty : ∀ name, disk.has (storeAt project ++ [name]) = false

theorem clocks_append (a b : List Call) : clocks (a ++ b) = clocks a ++ clocks b :=
  List.filterMap_append

theorem Orderly.of_append {project here : Location} {past more : List Call}
    (h : Orderly project here (past ++ more)) : Orderly project here past where
  regular now hnow := h.regular now (clocks_append past more ▸ List.mem_append_left _ hnow)
  rising := (List.pairwise_append.mp (clocks_append past more ▸ h.rising)).1
  few now := by
    have hfew := h.few now
    rw [clocks_append, List.count_append] at hfew
    omega
  outside now files hcall := h.outside now files (List.mem_append_left _ hcall)

/-! ## 2. What holds after all calls -/

theorem name_session (project : Location) (name : String) :
    Path.name ⟨.root, storeAt project ++ [name]⟩ = name := by
  rw [Path.name, List.getLast?_concat]
  rfl

/-- The backup is there with all its files, none of which lies in what is kept for the project. -/
structure IsKept (project here : Location) (disk : Disk) (b : Kept) : Prop where
  session : b.session = ⟨.root, storeAt project ++ [b.session.name]⟩
  complete : IsComplete (storeAt project ++ [b.session.name]) b.stamp (sorted b.files) disk
  outside : ∀ file ∈ b.files.keys, IsOutside project here file

/-- What holds after all calls so far. The names that are taken at one time are the first ones, no
more than there were calls. The stack is listed, and every backup on it is there. -/
structure Stacked (project here : Location) (past : List Call) (s : History) : Prop where
  cwd : s.host.cwd = here
  tree : s.host.disk.IsTree
  distinct : s.host.disk.Distinct
  directory : s.host.disk.has (storeAt project) = true →
    s.host.disk.get? (storeAt project) = some .directory
  names : ∀ name, s.host.disk.has (storeAt project ++ [name]) = true →
    ∃ now k, name = sessionName now.stamp k ∧ k < (clocks past).count now
  closed : ∀ (now : Clock) (k : Nat), now.Regular → k < 10 →
    s.host.disk.has (storeAt project ++ [sessionName now.stamp k]) = true →
    ∀ j < k, s.host.disk.has (storeAt project ++ [sessionName now.stamp j]) = true
  lists : Lists project (s.stack.map (·.session.name)) s.host.disk
  kept : ∀ b ∈ s.stack, IsKept project here s.host.disk b

theorem Stacked.name_cases {project here : Location} {past : List Call} {s : History}
    (h : Stacked project here past s) (hpast : Orderly project here past) {name : String}
    (hhas : s.host.disk.has (storeAt project ++ [name]) = true) :
    ∃ now k, name = sessionName now.stamp k ∧ now ∈ clocks past ∧ now.Regular ∧ k < 10 ∧
      k < (clocks past).count now := by
  obtain ⟨now, k, hname, hk⟩ := h.names name hhas
  have hnow : now ∈ clocks past := List.count_pos_iff.mp (Nat.zero_lt_of_lt hk)
  exact ⟨now, k, hname, hnow, hpast.regular now hnow, Nat.lt_of_lt_of_le hk (hpast.few now), hk⟩

theorem Stacked.listable {project here : Location} {past : List Call} {s : History}
    (h : Stacked project here past s) (hpast : Orderly project here past)
    (hroom : HasRoom project) : Listable project s.host.disk where
  tree := h.tree
  distinct := h.distinct
  fits := hroom.of_isPrefix ((List.prefix_append _ _).trans (List.prefix_append _ _))
  directory := h.directory
  manifests name hhas := by
    obtain ⟨now, k, rfl, -, hregular, hk, -⟩ := h.name_cases hpast hhas
    exact hroom.fits hregular hk (by decide) (by decide)

theorem Stacked.sessions {project here : Location} {past : List Call} {s : History}
    (h : Stacked project here past s) (hpast : Orderly project here past)
    (hroom : HasRoom project) :
    (sessions ⟨.root, project⟩).runIn s.host = (.ok (s.stack.map Kept.session), s.host) := by
  have hnames : (s.stack.map (·.session.name)).map (Path.child ⟨.root, storeAt project⟩) =
      s.stack.map Kept.session := by
    rw [List.map_map]
    exact List.map_congr_left fun b hb => (h.kept b hb).session.symm
  rw [runIn_sessions (h.listable hpast hroom) h.lists, hnames]

/-- The stack stays, if nothing in the directory of the backups is touched. -/
theorem Stacked.of_same {project here : Location} {past more : List Call} {s : History} {w : Host}
    (h : Stacked project here past s) (hcwd : w.cwd = s.host.cwd) (htree : w.disk.IsTree)
    (hdistinct : w.disk.Distinct)
    (hdirectory : w.disk.has (storeAt project) = true →
      w.disk.get? (storeAt project) = some .directory)
    (hsame : ∀ name at_, storeAt project ++ [name] <+: at_ →
      w.disk.get? at_ = s.host.disk.get? at_) :
    Stacked project here (past ++ more) ⟨w, s.stack⟩ := by
  have hhas : ∀ name, w.disk.has (storeAt project ++ [name]) =
      s.host.disk.has (storeAt project ++ [name]) := fun name => by
    rw [Disk.has, hsame name _ List.prefix_rfl, Disk.has]
  refine ⟨hcwd.trans h.cwd, htree, hdistinct, hdirectory, fun name hname => ?_,
    fun now k hnow hk hname j hj => ?_, ⟨h.lists.falling, fun name => ?_⟩, fun b hb => ?_⟩
  · obtain ⟨now, k, heq, hk⟩ := h.names name (hhas name ▸ hname)
    refine ⟨now, k, heq, ?_⟩
    rw [clocks_append, List.count_append]
    omega
  · rw [hhas] at hname ⊢
    exact h.closed now k hnow hk hname j hj
  · rw [h.lists.mem, Listed, Listed, Disk.has, Disk.has, hsame name _ (List.prefix_append _ _)]
  · obtain ⟨hsession, hcomplete, houtside⟩ := h.kept b hb
    exact ⟨hsession, hcomplete.of_below htree (hsame _), houtside⟩

/-! ## 3. One more call -/

/-- Writing saved texts back leaves what is kept for the project, whatever comes of it. Where it
succeeds, it gives all entries. -/
theorem restore_cases {project place : Location} {stamp : String} {index : Nat} {files : Files}
    {w w' : Host} {result : Except Failure (List Entry)} (hcwd : Path.Descends w.cwd)
    (hw : w.disk.IsTree) (hplace : homeAt project <+: place) (hdirectory : w.disk.Holds place)
    (hsaved : HoldsFrom place index files w.disk)
    (houtside : ∀ name ∈ files.keys, IsOutside project w.cwd name)
    (h : (restore (entriesFrom ⟨.root, place⟩ stamp index files)).runIn w = (result, w')) :
    w.Spares (homeAt project <+: ·) w' ∧ w'.disk.IsTree ∧
      ((∃ e, result = .error e) ∨
        result = .ok (entriesFrom ⟨.root, place⟩ stamp index files)) := by
  induction files generalizing index w w' result with
  | nil =>
    cases h
    exact ⟨(Host.Quiet.refl _).spares _, hw, Or.inr rfl⟩
  | cons first rest ih =>
    obtain ⟨name, text⟩ := first
    obtain ⟨hexists, hread⟩ := hsaved.runIn_first hdirectory
    let entry : Entry :=
      ⟨Path.ofString name, ⟨.root, place ++ [backupName index name]⟩, .text stamp⟩
    let others := entriesFrom ⟨.root, place⟩ stamp (index + 1) rest
    have hrestore := (runIn_restore_cons entry others hexists hread).symm.trans h
    rcases Action.writeText_cases (Path.ofString name).render text w with
      ⟨e, hwrite⟩ | ⟨at_, v, hwrite, hlocate, hfile, hperforms⟩
    · cases (Action.runIn_bind_of_error hwrite).symm.trans hrestore
      exact ⟨(Host.Quiet.refl _).spares _, hw, Or.inl ⟨e, rfl⟩⟩
    · have hoff : ¬homeAt project <+: at_ := by
        rw [Disk.locate_resolve hcwd hlocate, Path.ofString_render (Path.isRead_ofString name)]
        exact houtside name List.mem_cons_self
      have hspares : w.Spares (homeAt project <+: ·) v := hperforms.spares_write hoff
      have hv := hperforms.isTree_write hw (Disk.get?_dropLast_of_locate hw hlocate) hfile
      have hsame : ∀ other, place <+: other → v.disk.get? other = w.disk.get? other :=
        fun other hunder => hspares.get? (hplace.trans hunder)
      have hdirectory' : v.disk.Holds place :=
        hv.holds ((hsame place List.prefix_rfl).trans (hdirectory place List.prefix_rfl))
      replace hrestore := (Action.runIn_bind_of_ok hwrite).symm.trans hrestore
      rcases hrest : (restore (entriesFrom ⟨.root, place⟩ stamp (index + 1) rest)).runIn v with
        ⟨others, u⟩
      obtain ⟨hrestSpares, hu, hothers⟩ := ih (hspares.cwd ▸ hcwd) hv hdirectory'
        (hsaved.rest hsame) (fun other hother => by
          rw [hspares.cwd]
          exact houtside other (List.mem_cons_of_mem _ hother)) hrest
      rcases hothers with ⟨e, rfl⟩ | rfl
      · cases (Action.runIn_bind_of_error hrest).symm.trans hrestore
        exact ⟨hspares.trans hrestSpares, hu, Or.inl ⟨e, rfl⟩⟩
      · cases (Action.runIn_bind_of_ok hrest).symm.trans hrestore
        exact ⟨hspares.trans hrestSpares, hu, Or.inr rfl⟩

namespace Stacked

variable {project here : Location} {past : List Call} {s : History} {now : Clock} {files : Files}

/-- The number of a new backup has one digit, since there were at most nine others at its time. -/
theorem number_le (h : Stacked project here past s)
    (hcalls : Orderly project here (past ++ [.save now files])) {k : Nat}
    (htaken : ∀ j < k,
      s.host.disk.has (storeAt project ++ [sessionName now.stamp j]) = true) :
    k ≤ (clocks past).count now ∧ k < 10 := by
  have hnow : now.Regular := hcalls.regular now (by simp [clocks])
  have hfew : (clocks past).count now ≤ 9 := by
    have hall := hcalls.few now
    rw [clocks_append, List.count_append] at hall
    have hone : (clocks [.save now files]).count now = 1 := by simp [clocks]
    omega
  have hcount : ∀ j < k, j < 10 → j < (clocks past).count now := by
    intro j hj hten
    obtain ⟨now', j', hname, -, hnow', hten', hlt⟩ := h.name_cases hcalls.of_append (htaken j hj)
    obtain ⟨rfl, rfl⟩ := sessionName_inj hnow hnow' hten hten' hname
    exact hlt
  have hk : k < 10 := by
    by_contra hten
    have hnine := hcount 9 (by omega) (by omega)
    omega
  refine ⟨?_, hk⟩
  cases k with
  | zero => exact Nat.zero_le _
  | succ j => exact hcount j (Nat.lt_succ_self j) (by omega)

/-- All names that are taken come before the one of a new backup. The names before one that is taken
are taken. -/
theorem lt_sessionName (h : Stacked project here past s)
    (hcalls : Orderly project here (past ++ [.save now files])) {k : Nat} (hk : k < 10)
    (hfree : s.host.disk.has (storeAt project ++ [sessionName now.stamp k]) = false)
    {name : String} (hhas : s.host.disk.has (storeAt project ++ [name]) = true) :
    name < sessionName now.stamp k := by
  have hnow : now.Regular := hcalls.regular now (by simp [clocks])
  obtain ⟨now', j, rfl, hpast, hnow', hj, -⟩ := h.name_cases hcalls.of_append hhas
  have hle : now'.reading ≤ now.reading := by
    have hrising := hcalls.rising
    rw [clocks_append, List.pairwise_append] at hrising
    exact hrising.2.2 now' hpast now (by simp [clocks])
  rcases Nat.lt_or_eq_of_le hle with hlt | heq
  · exact sessionName_lt hnow' hnow (Or.inl hlt)
  · obtain rfl := hnow'.eq_of_reading hnow heq
    refine sessionName_lt hnow' hnow (Or.inr ⟨rfl, ?_, hk⟩)
    rcases Nat.lt_trichotomy j k with hlt | rfl | hgt
    · exact hlt
    · cases hfree.symm.trans hhas
    · cases hfree.symm.trans (h.closed now' j hnow' hj hhas k hgt)

/-- The backups on the stack are still there after another one was made. -/
theorem isKept_of_saved (h : Stacked project here past s) {name : String} {w v : Host}
    (hw : w.disk = s.host.disk) (hsaved : Saved project (storeAt project ++ [name]) w v)
    {b : Kept} (hb : b ∈ s.stack) : IsKept project here v.disk b := by
  obtain ⟨hsession, hcomplete, houtside⟩ := h.kept b hb
  rw [← hw] at hcomplete
  have hne : b.session.name ≠ name := by
    intro heq
    have hlisted : Listed project w.disk b.session.name := Disk.has_of_get? hcomplete.manifest
    exact hsaved.not_listed (heq ▸ hlisted)
  have htree := hsaved.isTree (hw ▸ h.tree)
  exact ⟨hsession, hcomplete.of_below htree fun at_ hat =>
    hsaved.kept at_ (not_covers_of_ne hne hat), houtside⟩

/-- After a backup was made, with or without a manifest. -/
theorem of_saved (h : Stacked project here past s)
    (hcalls : Orderly project here (past ++ [.save now files])) {k : Nat} {w v : Host}
    (hw : w.disk = s.host.disk) (hcwd : w.cwd = s.host.cwd)
    (hsaved : Saved project (storeAt project ++ [sessionName now.stamp k]) w v)
    (htaken : ∀ j < k,
      s.host.disk.has (storeAt project ++ [sessionName now.stamp j]) = true)
    {stack : List Kept} (hlists : Lists project (stack.map (·.session.name)) v.disk)
    (hkept : ∀ b ∈ stack, IsKept project here v.disk b) :
    Stacked project here (past ++ [.save now files]) ⟨v, stack⟩ := by
  obtain ⟨hcount, hk⟩ := h.number_le hcalls htaken
  have hnow : now.Regular := hcalls.regular now (by simp [clocks])
  have hnew : v.disk.has (storeAt project ++ [sessionName now.stamp k]) = true :=
    Disk.has_of_get? hsaved.made
  have hstill : ∀ name, s.host.disk.has (storeAt project ++ [name]) = true →
      v.disk.has (storeAt project ++ [name]) = true := by
    intro name hhas
    rw [← hw] at hhas
    rw [Disk.has, hsaved.grows.get? hhas]
    exact hhas
  have hhas : ∀ name, v.disk.has (storeAt project ++ [name]) = true →
      name = sessionName now.stamp k ∨
        s.host.disk.has (storeAt project ++ [name]) = true := by
    intro name hname
    by_cases heq : name = sessionName now.stamp k
    · exact Or.inl heq
    · have hkept := not_covers_of_ne heq (List.prefix_rfl : storeAt project ++ [name] <+: _)
      rw [Disk.has, hsaved.kept _ hkept, hw] at hname
      exact Or.inr hname
  refine ⟨(hsaved.cwd.trans hcwd).trans h.cwd, hsaved.isTree (hw ▸ h.tree),
    hsaved.grows.distinct (hw ▸ h.distinct), fun _ => (hsaved.holders _ (Or.inr rfl)).2,
    fun name hname => ?_, fun now' k' hnow' hk' hname j hj => ?_, hlists, hkept⟩
  · rcases hhas name hname with rfl | hold
    · refine ⟨now, k, rfl, ?_⟩
      have hone : (clocks [.save now files]).count now = 1 := by simp [clocks]
      rw [clocks_append, List.count_append]
      omega
    · obtain ⟨now', k', heq, hlt⟩ := h.names name hold
      refine ⟨now', k', heq, ?_⟩
      rw [clocks_append, List.count_append]
      omega
  · rcases hhas _ hname with heq | hold
    · obtain ⟨rfl, rfl⟩ := sessionName_inj hnow' hnow hk' hk heq
      exact hstill _ (htaken j hj)
    · exact hstill _ (h.closed now' k' hnow' hk' hold j hj)

theorem of_unsaved (h : Stacked project here past s) {w v : Host} (hw : w.disk = s.host.disk)
    (hcwd : w.cwd = s.host.cwd) (hunsaved : Unsaved project w v) (more : List Call) :
    Stacked project here (past ++ more) ⟨v, s.stack⟩ := by
  refine h.of_same (hunsaved.grows.cwd.trans hcwd) hunsaved.tree
    (hunsaved.grows.distinct (hw ▸ h.distinct)) (fun hhas => ?_) fun name at_ hat => ?_
  · rcases hunsaved.store with hsame | hdir
    · rw [Disk.has, hsame, hw] at hhas
      rw [hsame, hw, h.directory hhas]
    · exact hdir
  · have hlength := hat.length_le
    rw [← hw]
    simp only [storeAt, List.length_append, List.length_singleton] at hlength
    refine hunsaved.kept at_ ?_ ?_ <;> rintro rfl
    · omega
    · simp only [storeAt, List.length_append, List.length_singleton] at hlength
      omega

/-- A backup without a manifest is not on the stack. -/
theorem lists_of_error (h : Stacked project here past s) {name : String} {w v : Host}
    (hw : w.disk = s.host.disk) (hsaved : Saved project (storeAt project ++ [name]) w v)
    (hnone : v.disk.get? (storeAt project ++ [name] ++ ["manifest.json"]) = none) :
    Lists project (s.stack.map (·.session.name)) v.disk := by
  refine ⟨h.lists.falling, fun other => ?_⟩
  rw [h.lists.mem, ← hw]
  by_cases hother : other = name
  · subst hother
    have hnot : ¬Listed project v.disk other := by
      rw [Listed, Disk.has, hnone]
      exact Bool.false_ne_true
    exact iff_of_false hsaved.not_listed hnot
  · exact (hsaved.listed_of_ne hother).symm

/-- A complete backup goes on top. -/
theorem lists_of_ok (h : Stacked project here past s)
    (hcalls : Orderly project here (past ++ [.save now files])) {k : Nat} (hk : k < 10)
    {w v : Host} (hw : w.disk = s.host.disk)
    (hsaved : Saved project (storeAt project ++ [sessionName now.stamp k]) w v)
    (hlisted : Listed project v.disk (sessionName now.stamp k)) :
    Lists project (sessionName now.stamp k :: s.stack.map (·.session.name)) v.disk := by
  have hfree : s.host.disk.has (storeAt project ++ [sessionName now.stamp k]) = false := by
    rw [← hw, Disk.has, hsaved.fresh _ List.prefix_rfl]
    rfl
  refine h.lists.cons (fun other => ?_) fun other hother => ?_
  · by_cases hother : other = sessionName now.stamp k
    · subst hother
      exact iff_of_true hlisted (Or.inl rfl)
    · rw [or_iff_right hother, ← hw, hsaved.listed_of_ne hother]
  · exact h.lt_sessionName hcalls hk hfree (Disk.has_of_get? (hother.has_session h.tree))

/-- Saving puts the new backup on the stack, or leaves the stack where it fails. -/
theorem next_save (h : Stacked project here past s) (hproject : Path.Descends project)
    (hcalls : Orderly project here (past ++ [.save now files])) :
    Stacked project here (past ++ [.save now files])
      (s.next ⟨.root, project⟩ (.save now files)) := by
  obtain ⟨w, hnext, hw, hcwd, rfl⟩ : ∃ w : Host, s.host.atTime now = w ∧ w.disk = s.host.disk ∧
      w.cwd = s.host.cwd ∧ w.clock = now := ⟨_, rfl, rfl, rfl, rfl⟩
  rcases hrun : (save ⟨.root, project⟩ files).runIn w with ⟨result, v⟩
  have hnext : (save ⟨.root, project⟩ files).runIn (s.host.atTime w.clock) = (result, v) := by
    rw [hnext, hrun]
  rcases save_cases hproject (hw ▸ h.tree) hrun with
    ⟨e, rfl, hunsaved⟩ | ⟨k, hsaved, htaken, hend⟩
  · rw [History.next_save_of_error hnext]
    exact h.of_unsaved hw hcwd hunsaved _
  · rw [hw] at htaken
    have hkept : ∀ b ∈ s.stack, IsKept project here v.disk b :=
      fun b hb => h.isKept_of_saved hw hsaved hb
    rcases hend with ⟨e, rfl, hnone⟩ | ⟨rfl, hcomplete⟩
    · rw [History.next_save_of_error hnext]
      exact h.of_saved hcalls hw hcwd hsaved htaken (h.lists_of_error hw hsaved hnone) hkept
    · rw [History.next_save_of_ok hnext]
      have hlists := h.lists_of_ok hcalls (h.number_le hcalls htaken).2 hw hsaved
        (Disk.has_of_get? hcomplete.manifest)
      refine h.of_saved hcalls hw hcwd hsaved htaken ?_ fun b hb => ?_
      · rw [List.map_cons, name_session]
        exact hlists
      · rcases List.mem_cons.mp hb with rfl | hb
        · refine ⟨?_, ?_, hcalls.outside _ files (List.mem_append_right _ List.mem_cons_self)⟩
          · rw [name_session]
          · rw [name_session]
            exact hcomplete
        · exact hkept b hb

/-- The stack stays, if nothing that is kept for the project is touched. -/
theorem of_spares (h : Stacked project here past s) {v : Host}
    (hspares : s.host.Spares (homeAt project <+: ·) v) (hv : v.disk.IsTree) (more : List Call) :
    Stacked project here (past ++ more) ⟨v, s.stack⟩ := by
  have hstore : homeAt project <+: storeAt project := List.prefix_append _ _
  refine h.of_same hspares.cwd hv (hspares.distinct h.distinct) (fun hhas => ?_)
    fun name at_ hat => hspares.get? (hstore.trans ((List.prefix_append _ _).trans hat))
  rw [Disk.has, hspares.get? hstore] at hhas
  rw [hspares.get? hstore, h.directory hhas]

/-- The manifest of every backup on the stack can be set aside. -/
theorem fits_restored (h : Stacked project here past s) (hpast : Orderly project here past)
    (hroom : HasRoom project) {b : Kept} (hb : b ∈ s.stack) :
    Path.Fits (storeAt project ++ [b.session.name] ++ ["manifest.restored.json"]) := by
  have hdirectory := (h.kept b hb).complete.directory _ List.prefix_rfl
  obtain ⟨now, k, hname, -, hregular, hk, -⟩ :=
    h.name_cases hpast (Disk.has_of_get? hdirectory)
  rw [hname]
  exact hroom.fits hregular hk (by decide) (by decide)

/-- How undoing the backup on top can end: with all its entries and its manifest set aside, or with
a failure that leaves everything kept for the project. -/
theorem undo_cases (h : Stacked project here past s) (hpast : Orderly project here past)
    (hroom : HasRoom project) (hhere : Path.Descends here) {top : Kept} {rest : List Kept}
    (hstack : s.stack = top :: rest) {result : Except Failure (List Entry)} {w' : Host}
    (hundo : (undo ⟨.root, project⟩).runIn s.host = (result, w')) :
    ∃ v, s.host.Spares (homeAt project <+: ·) v ∧ v.disk.IsTree ∧
      ((∃ e, result = .error e ∧ w' = v) ∨
        result = .ok (entriesFrom top.session top.stamp 0 (sorted top.files)) ∧
        w' = v.after [setAside top.session.parts]) := by
  have hsessions := h.sessions hpast hroom
  rw [hstack, List.map_cons] at hsessions
  obtain ⟨hsession, hcomplete, houtside⟩ := h.kept top (hstack ▸ List.mem_cons_self)
  have hunder : homeAt project <+: storeAt project ++ [top.session.name] :=
    (List.prefix_append _ _).trans (List.prefix_append _ _)
  rw [hsession] at hsessions ⊢
  replace hundo := (Action.runIn_bind_of_ok hsessions).symm.trans hundo
  replace hundo := (Action.runIn_bind_of_ok (runIn_entries hcomplete)).symm.trans hundo
  rcases hrestore : (restore (entriesFrom ⟨.root, storeAt project ++ [top.session.name]⟩ top.stamp 0
    (sorted top.files))).runIn s.host with ⟨restored, v⟩
  have hfiles : ∀ file ∈ (sorted top.files).keys, IsOutside project s.host.cwd file := by
    intro file hfile
    rw [keys_sorted, List.mem_mergeSort] at hfile
    rw [h.cwd]
    exact houtside file hfile
  obtain ⟨hspares, hv, hend⟩ := restore_cases (h.cwd ▸ hhere) h.tree hunder hcomplete.directory
    hcomplete.saved hfiles hrestore
  refine ⟨v, hspares, hv, ?_⟩
  rcases hend with ⟨e, rfl⟩ | rfl
  · cases (Action.runIn_bind_of_error hrestore).symm.trans hundo
    exact Or.inl ⟨e, rfl, rfl⟩
  · have hstill := hcomplete.of_below hv fun at_ hat => hspares.get? (hunder.trans hat)
    have hfits := h.fits_restored hpast hroom (hstack ▸ List.mem_cons_self)
    replace hundo := (Action.runIn_bind_of_ok hrestore).symm.trans hundo
    cases (Action.runIn_bind_of_ok (hstill.runIn_setAside hfits)).symm.trans hundo
    exact Or.inr ⟨rfl, rfl⟩

/-- A backup other than the one that is set aside is still there. -/
theorem isKept_of_setAside {name : String} {disk : Disk} {b : Kept}
    (htree : ((setAside (storeAt project ++ [name])).apply disk).IsTree)
    (hne : b.session.name ≠ name) (hb : IsKept project here disk b) :
    IsKept project here ((setAside (storeAt project ++ [name])).apply disk) b := by
  obtain ⟨hsession, hcomplete, houtside⟩ := hb
  refine ⟨hsession, hcomplete.of_below htree fun at_ hat => ?_, houtside⟩
  have hoff : ∀ last, at_ ≠ storeAt project ++ [name] ++ [last] := by
    rintro last rfl
    rw [List.append_assoc, List.prefix_append_right_inj, List.singleton_append,
      List.cons_prefix_cons] at hat
    exact hne hat.1
  exact spares_setAside (hoff _) (hoff _) disk

/-- The backup whose manifest is set aside comes off the stack. -/
theorem of_setAside {v : Host} {top : Kept} {rest : List Kept}
    (h : Stacked project here past ⟨v, top :: rest⟩) :
    Stacked project here past ⟨v.after [setAside top.session.parts], rest⟩ := by
  obtain ⟨hsession, hcomplete, -⟩ := h.kept top List.mem_cons_self
  have hdisk : (v.after [setAside top.session.parts]).disk =
      (setAside (storeAt project ++ [top.session.name])).apply v.disk := by
    rw [hsession, name_session]
    rfl
  have htree := hcomplete.isTree_setAside h.tree
  have hlists : Lists project (top.session.name :: rest.map (·.session.name)) v.disk := h.lists
  refine ⟨h.cwd, ?_, ?_, fun _ => ?_, fun name hname => ?_, fun now k hnow hk hname j hj => ?_,
    ?_, fun b hb => ?_⟩ <;> rw [hdisk] at *
  · exact htree
  · exact Mutation.distinct_apply h.distinct _
  · exact hcomplete.keepsDirectories_setAside _ (hcomplete.directory _ (List.prefix_append _ _))
  · rw [has_setAside] at hname
    exact h.names name hname
  · rw [has_setAside] at hname ⊢
    exact h.closed now k hnow hk hname j hj
  · exact hlists.setAside hcomplete
  · have hbefore := (List.pairwise_cons.mp hlists.falling).1 _ (List.mem_map_of_mem hb)
    refine isKept_of_setAside htree ?_ (h.kept b (List.mem_cons_of_mem _ hb))
    exact fun heq => String.lt_irrefl _ (heq ▸ hbefore)

/-- Undoing does nothing where there is no backup. -/
theorem undo_of_empty (h : Stacked project here past s) (hpast : Orderly project here past)
    (hroom : HasRoom project) (hstack : s.stack = []) :
    (undo ⟨.root, project⟩).runIn s.host = (.ok [], s.host) := by
  have hsessions := h.sessions hpast hroom
  rw [hstack] at hsessions
  exact Action.runIn_bind_of_ok hsessions

/-- Undoing takes the backup on top off the stack, or leaves the stack where it fails. -/
theorem next_undo (h : Stacked project here past s) (hpast : Orderly project here past)
    (hroom : HasRoom project) (hhere : Path.Descends here) :
    Stacked project here (past ++ [.undo]) (s.next ⟨.root, project⟩ .undo) := by
  rcases hstack : s.stack with _ | ⟨top, rest⟩
  · have hsame := h.of_spares ((Host.Quiet.refl s.host).spares _) h.tree [.undo]
    rw [History.next_undo_of_ok (h.undo_of_empty hpast hroom hstack)]
    rw [hstack] at hsame ⊢
    exact hsame
  · rcases hundo : (undo ⟨.root, project⟩).runIn s.host with ⟨result, w'⟩
    obtain ⟨v, hspares, hv, hend⟩ := h.undo_cases hpast hroom hhere hstack hundo
    have hstill := h.of_spares hspares hv [.undo]
    rcases hend with ⟨e, rfl, rfl⟩ | ⟨rfl, rfl⟩
    · rw [History.next_undo_of_error hundo]
      exact hstill
    · rw [History.next_undo_of_ok hundo]
      rw [hstack] at hstill ⊢
      exact hstill.of_setAside

/-- Undoing writes back what the backup on top holds, if all its files can be written. -/
theorem runIn_undo_top (h : Stacked project here past s) (hpast : Orderly project here past)
    (hroom : HasRoom project) (hhere : Path.Descends here) {top : Kept} {rest : List Kept}
    (hstack : s.stack = top :: rest) {target : String → Location}
    (hfiles : ∀ file ∈ top.files.keys,
      s.host.CanWrite (Path.ofString file).render (target file)) :
    (undo ⟨.root, project⟩).runIn s.host =
      (.ok (entriesFrom top.session top.stamp 0 (sorted top.files)),
        (s.host.afterWrites target (sorted top.files)).after
          [setAside top.session.parts]) := by
  have hsessions := h.sessions hpast hroom
  rw [hstack, List.map_cons] at hsessions
  have htop : top ∈ s.stack := hstack ▸ List.mem_cons_self
  obtain ⟨hsession, hcomplete, houtside⟩ := h.kept top htop
  have hfits := h.fits_restored hpast hroom htop
  rw [hsession] at hsessions ⊢
  generalize hplace : storeAt project ++ [top.session.name] = place
    at hsessions hcomplete hfits ⊢
  have hunder : homeAt project <+: place :=
    hplace ▸ (List.prefix_append _ _).trans (List.prefix_append _ _)
  have hkeys : ∀ file, file ∈ (sorted top.files).keys ↔ file ∈ top.files.keys := fun file => by
    rw [keys_sorted, List.mem_mergeSort]
  have hoff : ∀ file ∈ (sorted top.files).keys, ¬Near place (target file) := by
    intro file hfile
    have hwrite := hfiles file ((hkeys file).mp hfile)
    rintro (habove | hbelow)
    · exact hwrite.notDirectory (hcomplete.directory _ habove)
    · refine houtside file ((hkeys file).mp hfile) ?_
      have hat := Disk.locate_resolve (h.cwd ▸ hhere) hwrite.located
      rw [Path.ofString_render (Path.isRead_ofString file), h.cwd] at hat
      exact hat ▸ hunder.trans hbelow
  have hrestore : (restore (entriesFrom ⟨.root, place⟩ top.stamp 0 (sorted top.files))).runIn
      s.host = (.ok (entriesFrom ⟨.root, place⟩ top.stamp 0 (sorted top.files)),
        s.host.afterWrites target (sorted top.files)) :=
    runIn_restore hcomplete.directory hcomplete.saved
      (fun file hfile => hfiles file ((hkeys file).mp hfile)) hoff
  have hstill := hcomplete.mono fun at_ hat => (Host.spares_afterWrites hoff).get? hat
  refine (Action.runIn_bind_of_ok hsessions).trans ?_
  refine (Action.runIn_bind_of_ok (runIn_entries hcomplete)).trans ?_
  refine (Action.runIn_bind_of_ok hrestore).trans ?_
  exact Action.runIn_bind_of_ok (hstill.runIn_setAside hfits)

theorem of_empty {w : Host} (htree : w.disk.IsTree) (hdistinct : w.disk.Distinct)
    (hempty : IsEmpty project w.disk) : Stacked project w.cwd [] ⟨w, []⟩ where
  cwd := rfl
  tree := htree
  distinct := hdistinct
  directory := hempty.directory
  names name hhas := by cases (hempty.empty name).symm.trans hhas
  closed now k _ _ hhas := by cases (hempty.empty _).symm.trans hhas
  lists := by
    refine ⟨.nil, fun name => iff_of_false List.not_mem_nil fun hlisted => ?_⟩
    have hhas := Disk.has_of_get? (Listed.has_session hlisted htree)
    cases (hempty.empty name).symm.trans hhas
  kept b hb := nomatch hb

/-- After all calls, by induction from the last one. -/
theorem run {w : Host} (htree : w.disk.IsTree) (hdistinct : w.disk.Distinct)
    (hhere : Path.Descends w.cwd) (hroom : HasRoom project) (hempty : IsEmpty project w.disk)
    (calls : List Call) (hcalls : Orderly project w.cwd calls) :
    Stacked project w.cwd calls (History.run ⟨.root, project⟩ w calls) := by
  have hproject : Path.Descends project := hroom.descends.of_isPrefix
    (((List.prefix_append _ _).trans (List.prefix_append _ _)).trans
      ((List.prefix_append _ _).trans (List.prefix_append _ _)))
  induction calls using List.reverseRecOn with
  | nil => exact of_empty htree hdistinct hempty
  | append_singleton past call ih =>
    have hpast := ih hcalls.of_append
    rw [History.run, List.foldl_append]
    cases call with
    | save now files => exact hpast.next_save hproject hcalls
    | undo => exact hpast.next_undo hcalls.of_append hroom hhere

end Stacked

/-! ## 4. Main statement -/

/-- Save and undo in any order, on a project without backups. Then the list is the stack: it gives
the backups that were saved and not undone, the last one first. Undoing does nothing without
backups. Otherwise it writes back what the backup on top holds: all that it gives are the entries of
that backup, and it succeeds if the files of that backup can be written. -/
theorem sessions_form_stack {project : Location} {w : Host} {calls : List Call}
    (htree : w.disk.IsTree) (hdistinct : w.disk.Distinct) (hhere : Path.Descends w.cwd)
    (hroom : HasRoom project) (hempty : IsEmpty project w.disk)
    (hcalls : Orderly project w.cwd calls) :
    let s := History.run ⟨.root, project⟩ w calls
    (sessions ⟨.root, project⟩).runIn s.host = (.ok (s.stack.map Kept.session), s.host) ∧
    (s.stack = [] → (undo ⟨.root, project⟩).runIn s.host = (.ok [], s.host)) ∧
    ∀ top rest, s.stack = top :: rest →
      let entries := entriesFrom top.session top.stamp 0 (sorted top.files)
      (∀ given w', (undo ⟨.root, project⟩).runIn s.host = (.ok given, w') → given = entries) ∧
      ∀ target : String → Location,
        (∀ file ∈ top.files.keys, s.host.CanWrite (Path.ofString file).render (target file)) →
        (undo ⟨.root, project⟩).runIn s.host =
          (.ok entries, (s.host.afterWrites target (sorted top.files)).after
            [setAside top.session.parts]) := by
  intro s
  have hs : Stacked project w.cwd calls s :=
    Stacked.run htree hdistinct hhere hroom hempty calls hcalls
  refine ⟨hs.sessions hcalls hroom, fun hstack => hs.undo_of_empty hcalls hroom hstack,
    fun top rest hstack => ⟨fun given w' hundo => ?_, fun target hfiles => ?_⟩⟩
  · obtain ⟨v, -, -, ⟨e, hfailed, -⟩ | ⟨hgiven, -⟩⟩ :=
      hs.undo_cases hcalls hroom hhere hstack hundo
    · cases hfailed
    · cases hgiven
      rfl
  · exact hs.runIn_undo_top hcalls hroom hhere hstack hfiles

def loneHost : Host where
  disk := [(["p"], .directory), (["p", "m.ts"], .file [])]
  cwd := []
  temporary := "/tmp"
  clock := ⟨2024, 1, 1, 0, 0, 0⟩
  parser _ _ _ := .node ⟨.other "program", 0, 0, true, none⟩ []

def saveText (text : String) : Call :=
  .save ⟨2024, 1, 1, 0, 0, 0⟩ [("/p/m.ts", text.toList)]

theorem orderly_twoSaves : Orderly ["p"] [] [saveText "a", saveText "b"] where
  regular now hnow := by
    have hall : now = ⟨2024, 1, 1, 0, 0, 0⟩ := by
      simpa [clocks, saveText] using hnow
    subst hall
    exact ⟨by decide, by decide, by decide, by decide, by decide, by decide, by decide⟩
  rising := by decide
  few now := Nat.le_trans List.count_le_length (by decide)
  outside now files hcall file hfile := by
    have hfiles : files.keys = ["/p/m.ts"] := by
      simp only [saveText, List.mem_cons, Call.save.injEq, List.not_mem_nil, or_false] at hcall
      rcases hcall with ⟨-, rfl⟩ | ⟨-, rfl⟩ <;> rfl
    rw [hfiles] at hfile
    cases List.mem_singleton.mp hfile
    show ¬_
    decide +kernel

theorem isEmpty_loneHost : IsEmpty ["p"] loneHost.disk where
  directory hhas := by
    have hnone : loneHost.disk.has (storeAt ["p"]) = false := by decide
    cases hnone.symm.trans hhas
  empty name := by
    rw [Bool.eq_false_iff]
    intro hhas
    have hmem := Disk.mem_places_of_has hhas (List.append_ne_nil_of_right_ne_nil _ (by simp))
    simp [loneHost, storeAt, homeAt] at hmem

theorem stack_twoSaves :
    (History.run ⟨.root, ["p"]⟩ loneHost [saveText "a", saveText "b"]).stack.map Kept.session =
      [⟨.root, storeAt ["p"] ++ ["2024-01-01T00-00-00.1"]⟩,
        ⟨.root, storeAt ["p"] ++ ["2024-01-01T00-00-00"]⟩] := by
  decide +kernel

/-- Of two backups of one time, the later one is listed first. -/
theorem two_saves_form_stack :
    loneHost.disk.IsTree ∧ loneHost.disk.Distinct ∧ Path.Descends loneHost.cwd ∧ HasRoom ["p"] ∧
    IsEmpty ["p"] loneHost.disk ∧ Orderly ["p"] loneHost.cwd [saveText "a", saveText "b"] ∧
    let w := (History.run ⟨.root, ["p"]⟩ loneHost [saveText "a", saveText "b"]).host
    (sessions ⟨.root, ["p"]⟩).runIn w =
      (.ok [⟨.root, storeAt ["p"] ++ ["2024-01-01T00-00-00.1"]⟩,
        ⟨.root, storeAt ["p"] ++ ["2024-01-01T00-00-00"]⟩], w) := by
  have htree : loneHost.disk.IsTree := by decide
  have hdistinct : loneHost.disk.Distinct := by decide
  have hhere : Path.Descends loneHost.cwd := fun _ h => nomatch h
  have hroom : HasRoom ["p"] := ⟨by decide +kernel, by decide +kernel⟩
  refine ⟨htree, hdistinct, hhere, hroom, isEmpty_loneHost, orderly_twoSaves, ?_⟩
  have hlist := (sessions_form_stack htree hdistinct hhere hroom isEmpty_loneHost
    orderly_twoSaves).1
  rwa [stack_twoSaves] at hlist

end Backup

end ChainGuard
