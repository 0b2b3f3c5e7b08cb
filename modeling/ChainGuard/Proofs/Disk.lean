import ChainGuard.Proofs.Path
import Mathlib.Data.List.Induction
import Mathlib.Data.List.Nodup

/-!
# Looking and changing

What a change of a disk does to the entries elsewhere, and which entries a name was followed
through.

1. `get?_set`, `removeTree_set`: entries after a change.
2. `IsTree`: whatever lies somewhere lies in a directory. So nothing lies below a place with nothing
   at it. `mem_children`: what lies in a directory.
3. `walk_eq_ok`, `locate_mono`: the directories on the way. `walk_of_opensTo`: where they are there,
   names that are not too long are found.
4. `Mutation.Spares`, `Mutation.get?_applyAll`: what several changes leave alone.
-/

namespace ChainGuard

namespace Disk

/-! ## 1. Entries -/

theorem get?_of_ne_nil {disk : Disk} {at_ : Location} (h : at_ ≠ []) :
    disk.get? at_ = disk.lookup at_ := by
  rw [get?, if_neg h]

theorem lookup_cons (place : Location) (entry : Entry) (rest : Disk) (at_ : Location) :
    List.lookup at_ ((place, entry) :: rest) =
      if at_ = place then some entry else rest.lookup at_ := by
  rw [List.lookup_cons]
  by_cases h : at_ = place
  · rw [if_pos h, beq_iff_eq.mpr h]
  · rw [if_neg h, beq_eq_false_iff_ne.mpr h]

theorem lookup_set (disk : Disk) (at_ : Location) (entry : Entry) (other : Location) :
    (disk.set at_ entry).lookup other = if other = at_ then some entry else disk.lookup other := by
  induction disk with
  | nil => rw [set, lookup_cons]
  | cons first rest ih =>
    obtain ⟨place, old⟩ := first
    rw [set]
    split
    · next hplace =>
      subst hplace
      rw [lookup_cons, lookup_cons]
      split <;> rfl
    · next hplace =>
      rw [lookup_cons, lookup_cons, ih]
      by_cases h : other = place
      · rw [if_pos h, if_pos h, if_neg fun hat => hplace (h.symm.trans hat)]
      · rw [if_neg h, if_neg h]

theorem get?_set_self {disk : Disk} {at_ : Location} (entry : Entry) (h : at_ ≠ []) :
    (disk.set at_ entry).get? at_ = some entry := by
  rw [get?_of_ne_nil h, lookup_set, if_pos rfl]

theorem get?_set_of_ne {disk : Disk} {at_ other : Location} (entry : Entry) (h : other ≠ at_) :
    (disk.set at_ entry).get? other = disk.get? other := by
  unfold get?
  rw [lookup_set, if_neg h]

/-- Entries are looked up the same where none of the wanted place is left out. -/
theorem lookup_filter (p : Location → Bool) {at_ : Location} (h : p at_ = true) (disk : Disk) :
    List.lookup at_ (disk.filter fun entry => p entry.1) = disk.lookup at_ := by
  induction disk with
  | nil => rfl
  | cons first rest ih =>
    obtain ⟨place, entry⟩ := first
    rw [List.filter_cons]
    split
    · rw [lookup_cons, lookup_cons, ih]
    · next hplace =>
      have hne : at_ ≠ place := by
        rintro rfl
        exact hplace h
      rw [lookup_cons, if_neg hne, ih]

theorem get?_removeEntry_of_ne {disk : Disk} {at_ place : Location} (h : at_ ≠ place) :
    (disk.removeEntry place).get? at_ = disk.get? at_ := by
  unfold get? removeEntry
  rw [lookup_filter (· != place) (bne_iff_ne.mpr h)]

theorem get?_removeEntry_self {disk : Disk} {at_ : Location} (h : at_ ≠ []) :
    (disk.removeEntry at_).get? at_ = none := by
  rw [get?_of_ne_nil h, List.lookup_eq_none_iff]
  intro entry hentry
  obtain ⟨-, hne⟩ := List.mem_filter.mp hentry
  rw [bne_iff_ne] at hne
  simpa using hne.symm

theorem get?_removeTree {disk : Disk} {at_ place : Location} (h : ¬place <+: at_) :
    (disk.removeTree place).get? at_ = disk.get? at_ := by
  have hkeep : (!place.isPrefixOf at_) = true := by
    rw [Bool.not_eq_true', Bool.eq_false_iff]
    exact fun hprefix => h (List.isPrefixOf_iff_prefix.mp hprefix)
  unfold get? removeTree
  rw [lookup_filter (fun other => !place.isPrefixOf other) hkeep]

/-- Of two entries set at a place the later one counts. -/
theorem set_set (disk : Disk) (at_ : Location) (first second : Entry) :
    (disk.set at_ first).set at_ second = disk.set at_ second := by
  induction disk with
  | nil => exact if_pos rfl
  | cons entry rest ih =>
    obtain ⟨place, old⟩ := entry
    by_cases h : place = at_
    · rw [set, if_pos h, set, if_pos h, set, if_pos h]
    · rw [set, if_neg h, set, if_neg h, ih, set, if_neg h]

/-- A change at or below a place is gone when the place is removed. -/
theorem removeTree_set {disk : Disk} {place at_ : Location} (entry : Entry) (h : place <+: at_) :
    (disk.set at_ entry).removeTree place = disk.removeTree place := by
  have hdrop : (!place.isPrefixOf at_) = false := by
    rw [List.isPrefixOf_iff_prefix.mpr h]
    rfl
  induction disk with
  | nil => simp [set, removeTree, h]
  | cons first rest ih =>
    obtain ⟨other, old⟩ := first
    unfold removeTree at ih ⊢
    rw [set]
    split
    · next hother =>
      subst hother
      rw [List.filter_cons_of_neg (by simp [hdrop]), List.filter_cons_of_neg (by simp [hdrop])]
    · rw [List.filter_cons, List.filter_cons, ih]

theorem find?_eq_ok {disk : Disk} {cwd at_ : Location} {name : String} {entry : Entry}
    (h : disk.find? cwd name = .ok (at_, entry)) :
    disk.locate cwd name = .ok at_ ∧ disk.get? at_ = some entry := by
  unfold find? at h
  cases hlocate : disk.locate cwd name with
  | error fault => rw [hlocate] at h; cases h
  | ok place =>
    rw [hlocate] at h
    cases hget : disk.get? place with
    | none => simp [bind, Except.bind, hget] at h
    | some found =>
      cases found with
      | directory =>
        simp [bind, Except.bind, hget, pure, Except.pure] at h
        rw [← h.1, ← h.2, hget]
        exact ⟨rfl, rfl⟩
      | file bytes =>
        cases hslash : wantsDirectory name <;>
          simp [bind, Except.bind, hget, hslash, pure, Except.pure] at h
        rw [← h.1, ← h.2, hget]
        exact ⟨rfl, rfl⟩

/-- What is read lies in a file, whose name does not ask for a directory. -/
theorem read_eq_ok {disk : Disk} {cwd : Location} {name : String} {content : Bytes}
    (h : disk.read cwd name = .ok content) :
    ∃ at_, disk.locate cwd name = .ok at_ ∧ disk.get? at_ = some (.file content) ∧
      wantsDirectory name = false := by
  unfold read find? at h
  cases hlocate : disk.locate cwd name with
  | error fault => rw [hlocate] at h; cases h
  | ok at_ =>
    rw [hlocate] at h
    cases hget : disk.get? at_ with
    | none => simp [bind, Except.bind, hget] at h
    | some entry =>
      cases entry with
      | directory => simp [bind, Except.bind, hget, pure, Except.pure] at h
      | file bytes =>
        refine ⟨at_, rfl, ?_⟩
        cases hslash : wantsDirectory name with
        | true => simp [bind, Except.bind, hget, hslash] at h
        | false =>
          simp [bind, Except.bind, hget, hslash, pure, Except.pure] at h
          rw [hget, h]
          exact ⟨rfl, rfl⟩

theorem writable_eq_ok {disk : Disk} {cwd at_ : Location} {name : String}
    (h : disk.writable cwd name = .ok at_) :
    disk.locate cwd name = .ok at_ ∧ disk.get? at_ ≠ some .directory := by
  unfold writable at h
  split at h
  · cases hsteps : disk.locateSteps cwd name ((steps name).dropLast ++ ["."]) with
    | error => rw [hsteps] at h; cases h
    | ok => rw [hsteps] at h; cases h
  · cases hlocate : disk.locate cwd name with
    | error => rw [hlocate] at h; cases h
    | ok place =>
      rw [hlocate] at h
      change (if disk.isDirectory place then _ else _) = _ at h
      split at h
      · cases h
      · next hdir =>
        cases h
        exact ⟨rfl, fun hget => hdir (decide_eq_true hget)⟩

theorem makeDirectory_eq_ok {disk : Disk} {cwd : Location} {name : String} {m : Mutation}
    (h : disk.makeDirectory cwd name = .ok m) :
    ∃ at_, m = .makeDirectory at_ ∧ disk.locate cwd name = .ok at_ ∧ disk.has at_ = false := by
  unfold makeDirectory at h
  cases hlocate : disk.locate cwd name with
  | error => rw [hlocate] at h; cases h
  | ok place =>
    rw [hlocate] at h
    change (if disk.has place then _ else _) = _ at h
    split at h
    · cases h
    · next hhas =>
      cases h
      exact ⟨place, rfl, rfl, Bool.eq_false_iff.mpr hhas⟩

/-! ## 2. Trees -/

/-- Whatever lies somewhere lies in a directory. -/
def IsTree (disk : Disk) : Prop :=
  ∀ at_, disk.has at_ = true → disk.get? at_.dropLast = some .directory

theorem has_of_get? {disk : Disk} {at_ : Location} {entry : Entry}
    (h : disk.get? at_ = some entry) : disk.has at_ = true := by
  rw [has, h]
  rfl

theorem get?_eq_none {disk : Disk} {at_ : Location} (h : disk.has at_ = false) :
    disk.get? at_ = none := by
  rwa [has, Option.isSome_eq_false_iff, Option.isNone_iff_eq_none] at h

/-- Above whatever lies somewhere there are directories. -/
theorem IsTree.get?_isPrefix {disk : Disk} (hdisk : disk.IsTree) {at_ above : Location}
    (hhas : disk.has at_ = true) (h : above <+: at_) (hne : above ≠ at_) :
    disk.get? above = some .directory := by
  induction at_ using List.reverseRecOn with
  | nil => exact absurd (List.prefix_nil.mp h) hne
  | append_singleton front last ih =>
    have hfront := hdisk _ hhas
    rw [List.dropLast_concat] at hfront
    rcases List.prefix_concat_iff.mp h with rfl | h
    · exact absurd rfl hne
    · by_cases heq : above = front
      · rw [heq, hfront]
      · exact ih (has_of_get? hfront) h heq

theorem has_of_mem {disk : Disk} {entry : Location × Entry} (h : entry ∈ disk) :
    disk.has entry.1 = true := by
  unfold has get?
  split
  · rfl
  · rw [List.lookup_isSome_iff]
    exact ⟨entry, h, beq_self_eq_true _⟩

theorem mem_places_of_has {disk : Disk} {at_ : Location} (h : disk.has at_ = true)
    (hroot : at_ ≠ []) : at_ ∈ disk.map Prod.fst := by
  rw [has, get?_of_ne_nil hroot, List.lookup_isSome_iff] at h
  obtain ⟨entry, hentry, heq⟩ := h
  rw [beq_iff_eq.mp heq]
  exact List.mem_map_of_mem hentry

/-- In a tree nothing lies below a place with nothing at it. -/
theorem IsTree.has_below {disk : Disk} (hdisk : disk.IsTree) {place at_ : Location}
    (h : disk.has place = false) (hunder : place <+: at_) : disk.has at_ = false := by
  rw [Bool.eq_false_iff]
  intro hhas
  by_cases heq : place = at_
  · rw [heq, hhas] at h
    cases h
  · rw [has_of_get? (hdisk.get?_isPrefix hhas hunder heq)] at h
    cases h

/-- It is enough to look at the entries. -/
theorem isTree_iff {disk : Disk} :
    disk.IsTree ↔ ∀ entry ∈ disk, disk.get? entry.1.dropLast = some .directory := by
  constructor
  · exact fun hdisk entry hentry => hdisk _ (has_of_mem hentry)
  · intro hentries at_ hhas
    by_cases hroot : at_ = []
    · rw [hroot]
      rfl
    · obtain ⟨entry, hentry, rfl⟩ := List.mem_map.mp (mem_places_of_has hhas hroot)
      exact hentries entry hentry

instance (disk : Disk) : Decidable disk.IsTree :=
  decidable_of_iff _ isTree_iff.symm

theorem IsTree.removeTree_eq_self {disk : Disk} (hdisk : disk.IsTree) {place : Location}
    (h : disk.has place = false) : disk.removeTree place = disk := by
  unfold removeTree
  rw [List.filter_eq_self]
  intro entry hentry
  rw [Bool.not_eq_true', Bool.eq_false_iff]
  intro hprefix
  have hnone := hdisk.has_below h (List.isPrefixOf_iff_prefix.mp hprefix)
  rw [has_of_mem hentry] at hnone
  cases hnone

theorem mem_children {disk : Disk} {at_ : Location} {name : String} :
    name ∈ disk.children at_ ↔ disk.has (at_ ++ [name]) = true := by
  have hroot : at_ ++ [name] ≠ [] := List.append_ne_nil_of_right_ne_nil _ (List.cons_ne_nil _ _)
  rw [has, get?_of_ne_nil hroot, List.lookup_isSome_iff, children, List.mem_filterMap]
  refine exists_congr fun entry => and_congr_right fun _ => ?_
  rw [beq_iff_eq, Option.ite_none_right_eq_some]
  constructor
  · rintro ⟨hfront, hlast⟩
    rw [← List.dropLast_append_getLast? _ hlast, hfront]
  · rintro heq
    rw [← heq, List.dropLast_concat, List.getLast?_concat]
    exact ⟨rfl, rfl⟩

/-- No place has two entries. -/
def Distinct (disk : Disk) : Prop :=
  (disk.map Prod.fst).Nodup

instance (disk : Disk) : Decidable disk.Distinct :=
  inferInstanceAs (Decidable (List.Nodup _))

theorem mem_places_set {disk : Disk} {at_ other : Location} {entry : Entry}
    (h : other ∈ (disk.set at_ entry).map Prod.fst) : other = at_ ∨ other ∈ disk.map Prod.fst := by
  induction disk with
  | nil => exact Or.inl (List.mem_singleton.mp h)
  | cons first rest ih =>
    obtain ⟨place, old⟩ := first
    rw [set] at h
    split at h
    · exact Or.inr h
    · rcases List.mem_cons.mp h with heq | h
      · exact Or.inr (heq ▸ List.mem_cons_self)
      · exact (ih h).imp_right (List.mem_cons_of_mem _)

theorem Distinct.set {disk : Disk} (h : disk.Distinct) (at_ : Location) (entry : Entry) :
    (disk.set at_ entry).Distinct := by
  induction disk with
  | nil => exact List.nodup_singleton _
  | cons first rest ih =>
    obtain ⟨place, old⟩ := first
    rw [Disk.set]
    split
    · exact h
    · next hne =>
      obtain ⟨hplace, hrest⟩ := List.nodup_cons.mp h
      refine List.nodup_cons.mpr ⟨fun hmem => ?_, ih hrest⟩
      exact (mem_places_set hmem).elim hne hplace

theorem Distinct.filter {disk : Disk} (h : disk.Distinct) (p : Location × Entry → Bool) :
    Distinct (List.filter p disk) :=
  h.sublist (List.filter_sublist.map _)

/-- No directory of a disk with distinct places has two entries of one name. -/
theorem Distinct.nodup_children {disk : Disk} (h : disk.Distinct) (at_ : Location) :
    (disk.children at_).Nodup := by
  have hmap : disk.children at_ = (disk.map Prod.fst).filterMap fun place =>
      if place.dropLast = at_ then place.getLast? else none := by
    rw [List.filterMap_map]
    rfl
  rw [hmap]
  refine List.Nodup.filterMap (fun a b name ha hb => ?_) h
  rw [Option.mem_def, Option.ite_none_right_eq_some] at ha hb
  rw [← List.dropLast_append_getLast? _ ha.2, ← List.dropLast_append_getLast? _ hb.2, ha.1, hb.1]

/-! ## 3. Ways -/

/-- The directories above a place are there. -/
def OpensTo (disk : Disk) (place : Location) : Prop :=
  ∀ above, above <+: place → above ≠ place → disk.get? above = some .directory

/-- The place and everything above it are directories. -/
def Holds (disk : Disk) (place : Location) : Prop :=
  ∀ above, above <+: place → disk.get? above = some .directory

theorem Holds.opensTo {disk : Disk} {place : Location} (h : disk.Holds place) (name : String) :
    disk.OpensTo (place ++ [name]) := by
  intro above habove hne
  rcases List.prefix_concat_iff.mp habove with heq | habove
  · exact absurd heq hne
  · exact h above habove

theorem OpensTo.holds_set {disk : Disk} {place : Location} (h : disk.OpensTo place)
    (hne : place ≠ []) : (disk.set place .directory).Holds place := by
  intro above habove
  by_cases heq : above = place
  · rw [heq, get?_set_self _ hne]
  · rw [get?_set_of_ne _ heq]
    exact h above habove heq

/-- Parts that lead down and can be followed lead where they say, through directories. -/
theorem walk_eq_ok {disk : Disk} {here at_ : Location} {parts : List String}
    (hparts : Path.Descends parts) (hhere : disk.OpensTo here)
    (h : disk.walk here parts = .ok at_) : at_ = here ++ parts ∧ disk.OpensTo at_ := by
  induction parts generalizing here with
  | nil =>
    cases h
    exact ⟨(List.append_nil _).symm, hhere⟩
  | cons part rest ih =>
    obtain ⟨hpart, hup⟩ := hparts part List.mem_cons_self
    unfold walk at h
    split at h
    · cases h
    · cases h
    · next hdir =>
      rw [if_neg hpart.ne_dot, if_neg hup] at h
      split at h
      · cases h
      · have hnext : disk.OpensTo (here ++ [part]) := by
          intro above habove hne
          rcases List.prefix_concat_iff.mp habove with heq | habove
          · exact absurd heq hne
          · by_cases heq : above = here
            · rw [heq, hdir]
            · exact hhere above habove heq
        have hrest := ih (fun s hs => hparts s (List.mem_cons_of_mem part hs)) hnext h
        rwa [List.append_assoc, List.singleton_append] at hrest

/-- The directories of one disk are directories of the other. -/
def KeepsDirectories (disk after : Disk) : Prop :=
  ∀ at_, disk.get? at_ = some .directory → after.get? at_ = some .directory

theorem walk_mono {disk after : Disk} (hkeeps : disk.KeepsDirectories after)
    {here at_ : Location} {parts : List String} (h : disk.walk here parts = .ok at_) :
    after.walk here parts = .ok at_ := by
  induction parts generalizing here with
  | nil => exact h
  | cons part rest ih =>
    unfold walk at h ⊢
    split at h
    · cases h
    · cases h
    · next hdir =>
      rw [hkeeps here hdir]
      show (if _ then _ else _) = _
      split at h
      · next hdot => rw [if_pos hdot]; exact ih h
      · next hdot =>
        split at h
        · next hup => rw [if_neg hdot, if_pos hup]; exact ih h
        · next hup =>
          split at h
          · cases h
          · next hlong => rw [if_neg hdot, if_neg hup, if_neg hlong]; exact ih h

/-- A name keeps its place as long as the directories are kept. -/
theorem locate_mono {disk after : Disk} (hkeeps : disk.KeepsDirectories after)
    {cwd at_ : Location} {name : String} (h : disk.locate cwd name = .ok at_) :
    after.locate cwd name = .ok at_ := by
  unfold locate locateSteps at h ⊢
  split at h
  · cases h
  · next hname =>
    split at h
    · cases h
    · next hlong =>
      rw [if_neg hname, if_neg hlong]
      exact walk_mono hkeeps h

/-- Parts that can be followed lead where the text says. -/
theorem walk_follow {disk : Disk} {here at_ : Location} {parts : List String}
    (h : disk.walk here parts = .ok at_) :
    at_ = (parts.filter (· != ".")).foldl Path.follow here := by
  induction parts generalizing here with
  | nil =>
    cases h
    rfl
  | cons part rest ih =>
    unfold walk at h
    split at h
    · cases h
    · cases h
    · split at h
      · next hdot =>
        rw [hdot, List.filter_cons_of_neg (by decide)]
        exact ih h
      · next hdot =>
        have hfilter : (part :: rest).filter (· != ".") = part :: rest.filter (· != ".") :=
          List.filter_cons_of_pos (bne_iff_ne.mpr hdot)
        rw [hfilter, List.foldl_cons, Path.follow]
        split at h
        · next hup =>
          rw [if_pos hup]
          exact ih h
        · next hup =>
          split at h
          · cases h
          · rw [if_neg hup]
            exact ih h

/-- A name that can be followed stands for the place that its path denotes. -/
theorem locate_resolve {disk : Disk} {cwd at_ : Location} {name : String}
    (hcwd : Path.Descends cwd) (h : disk.locate cwd name = .ok at_) :
    at_ = (Path.resolve ⟨.root, cwd⟩ (Path.ofString name)).parts := by
  have hparts : (steps name).filter (· != ".") = (Path.ofString name).parts := by
    show List.filter _ (List.filter _ _) = List.filter _ _
    rw [List.filter_filter]
    refine List.filter_congr fun s _ => ?_
    rw [Bool.and_comm]
  unfold locate locateSteps at h
  split at h
  · cases h
  · split at h
    · cases h
    · have hat := walk_follow h
      rw [hat, hparts, Path.parts_resolve hcwd]
      rfl

/-- An absolute path leads from the root, wherever one works. -/
theorem locate_of_isAbsolute (disk : Disk) (cwd : Location) {name : String}
    (h : (Path.ofString name).isAbsolute = true) : disk.locate cwd name = disk.locate [] name := by
  have hanchor : Path.anchorOf name.toList ≠ .relative := bne_iff_ne.mp h
  unfold locate locateSteps start
  rw [if_neg hanchor, if_neg hanchor]

theorem get?_dropLast_of_walk {disk : Disk} (hdisk : disk.IsTree) {here at_ : Location}
    {parts : List String} (h : disk.walk here parts = .ok at_) :
    parts = [] ∧ at_ = here ∨ disk.get? at_.dropLast = some .directory := by
  induction parts generalizing here with
  | nil =>
    cases h
    exact Or.inl ⟨rfl, rfl⟩
  | cons part rest ih =>
    right
    have hnext : ∀ next, disk.get? next.dropLast = some .directory →
        disk.walk next rest = .ok at_ → disk.get? at_.dropLast = some .directory := by
      intro next hparent hwalk
      rcases ih hwalk with ⟨-, rfl⟩ | hdir
      · exact hparent
      · exact hdir
    unfold walk at h
    split at h
    · cases h
    · cases h
    · next hdir =>
      have hparent := hdisk here (has_of_get? hdir)
      split at h
      · exact hnext here hparent h
      · split at h
        · exact hnext here.dropLast (hdisk _ (has_of_get? hparent)) h
        · split at h
          · cases h
          · exact hnext (here ++ [part]) (by rw [List.dropLast_concat, hdir]) h

theorem get?_dropLast_of_locate {disk : Disk} (hdisk : disk.IsTree) {cwd at_ : Location}
    {name : String} (h : disk.locate cwd name = .ok at_) :
    disk.get? at_.dropLast = some .directory := by
  unfold locate locateSteps at h
  split at h
  · cases h
  · next hname =>
    split at h
    · cases h
    · rcases get?_dropLast_of_walk hdisk h with ⟨hsteps, hat⟩ | hdir
      · have hroot : start cwd name = [] :=
          if_neg fun hrelative => steps_ne_nil hname hrelative hsteps
        rw [hat, hroot]
        rfl
      · exact hdir

/-- An absolute path that can be followed lies where it says. -/
theorem locate_render_eq_ok {disk : Disk} {cwd at_ : Location} {parts : List String}
    (hparts : Path.Descends parts) (h : disk.locate cwd (Path.render ⟨.root, parts⟩) = .ok at_) :
    at_ = parts ∧ disk.OpensTo parts := by
  rw [locate_render disk cwd hparts] at h
  split at h
  · cases h
  · obtain ⟨rfl, hopens⟩ :=
      walk_eq_ok hparts (fun above habove hne => absurd (List.prefix_nil.mp habove) hne) h
    exact ⟨rfl, hopens⟩

/-- Along directories that are there, parts that are not too long can be followed. -/
theorem walk_of_opensTo {disk : Disk} {here : Location} {parts : List String}
    (hparts : Path.Descends parts) (hlong : ∀ part ∈ parts, part.utf8ByteSize ≤ maxPartBytes)
    (h : disk.OpensTo (here ++ parts)) : disk.walk here parts = .ok (here ++ parts) := by
  induction parts generalizing here with
  | nil => rw [List.append_nil]; rfl
  | cons part rest ih =>
    obtain ⟨hpart, hup⟩ := hparts part List.mem_cons_self
    have hne : here ≠ here ++ part :: rest := by
      intro heq
      exact absurd (List.self_eq_append_right.mp heq) (List.cons_ne_nil _ _)
    have hdir : disk.get? here = some .directory := h here (List.prefix_append _ _) hne
    have hsplit : here ++ part :: rest = (here ++ [part]) ++ rest := by
      rw [List.append_assoc, List.singleton_append]
    rw [walk, hdir]
    dsimp only
    rw [if_neg hpart.ne_dot, if_neg hup, if_neg (Nat.not_lt.mpr (hlong part List.mem_cons_self)),
      hsplit]
    rw [hsplit] at h
    exact ih (fun s hs => hparts s (List.mem_cons_of_mem part hs))
      (fun s hs => hlong s (List.mem_cons_of_mem part hs)) h

end Disk

/-! ## 4. Changes -/

namespace Mutation

/-- The change leaves what lies at the place. -/
def Spares (m : Mutation) (at_ : Location) : Prop :=
  ∀ disk : Disk, (m.apply disk).get? at_ = disk.get? at_

theorem spares_makeDirectory {place at_ : Location} (h : at_ ≠ place) :
    (makeDirectory place).Spares at_ :=
  fun _ => Disk.get?_set_of_ne _ h

theorem spares_truncate {place at_ : Location} (h : at_ ≠ place) : (truncate place).Spares at_ :=
  fun _ => Disk.get?_set_of_ne _ h

theorem spares_write {place at_ : Location} (h : at_ ≠ place) (content : Bytes) :
    (write place content).Spares at_ :=
  fun _ => Disk.get?_set_of_ne _ h

theorem apply_rename_of_none {disk : Disk} {source : Location} (h : disk.get? source = none)
    (target : Location) : (rename source target).apply disk = disk := by
  simp only [apply, h]

theorem apply_rename_of_some {disk : Disk} {source : Location} {entry : Entry}
    (h : disk.get? source = some entry) (target : Location) :
    (rename source target).apply disk = (disk.removeEntry source).set target entry := by
  simp only [apply, h]

theorem spares_rename {source target at_ : Location} (hsource : at_ ≠ source)
    (htarget : at_ ≠ target) : (rename source target).Spares at_ := by
  intro disk
  cases hentry : disk.get? source with
  | none => rw [apply_rename_of_none hentry]
  | some entry =>
    rw [apply_rename_of_some hentry, Disk.get?_set_of_ne _ htarget,
      Disk.get?_removeEntry_of_ne hsource]

theorem spares_removeTree {place at_ : Location} (h : ¬place <+: at_) :
    (removeTree place).Spares at_ :=
  fun _ => Disk.get?_removeTree h

theorem applyAll_append (disk : Disk) (first second : List Mutation) :
    applyAll disk (first ++ second) = applyAll (applyAll disk first) second :=
  List.foldl_append

/-- Changes never give a place a second entry. -/
theorem distinct_apply {disk : Disk} (h : disk.Distinct) (m : Mutation) :
    (m.apply disk).Distinct := by
  cases m with
  | makeDirectory at_ => exact h.set at_ _
  | truncate at_ => exact h.set at_ _
  | write at_ content => exact h.set at_ _
  | rename source target =>
    cases hentry : disk.get? source with
    | none => rwa [apply_rename_of_none hentry]
    | some entry =>
      rw [apply_rename_of_some hentry]
      exact (h.filter _).set target entry
  | removeTree at_ => exact h.filter _

theorem distinct_applyAll {disk : Disk} (h : disk.Distinct) (changes : List Mutation) :
    (applyAll disk changes).Distinct :=
  List.foldlRecOn changes apply h fun _ hdisk m _ => distinct_apply hdisk m

/-- What every one of several changes leaves alone, all of them leave alone. -/
theorem get?_applyAll {changes : List Mutation} {at_ : Location}
    (h : ∀ m ∈ changes, m.Spares at_) (disk : Disk) :
    (applyAll disk changes).get? at_ = disk.get? at_ := by
  induction changes generalizing disk with
  | nil => rfl
  | cons m rest ih =>
    exact (ih (fun other hother => h other (List.mem_cons_of_mem m hother)) _).trans
      (h m List.mem_cons_self disk)

def rewrites (files : List (Location × Bytes)) : List Mutation :=
  files.flatMap fun file => [.truncate file.1, .write file.1 file.2]

theorem spares_rewrites {files : List (Location × Bytes)} {at_ : Location}
    (h : ∀ file ∈ files, at_ ≠ file.1) : ∀ m ∈ rewrites files, m.Spares at_ := by
  intro m hm
  obtain ⟨file, hfile, hm⟩ := List.mem_flatMap.mp hm
  rcases List.mem_cons.mp hm with rfl | hm
  · exact spares_truncate (h file hfile)
  · cases List.mem_singleton.mp hm
    exact spares_write (h file hfile) _

/-- A file that is filled with one content only has this content in the end. -/
theorem get?_rewrites {files : List (Location × Bytes)} {at_ : Location} {content : Bytes}
    (hroot : at_ ≠ []) (hmem : (at_, content) ∈ files)
    (h : ∀ file ∈ files, file.1 = at_ → file.2 = content) (disk : Disk) :
    (applyAll disk (rewrites files)).get? at_ = some (.file content) := by
  induction files using List.reverseRecOn with
  | nil => cases hmem
  | append_singleton front last ih =>
    have hsplit : rewrites (front ++ [last]) =
        rewrites front ++ [.truncate last.1, .write last.1 last.2] := by
      unfold rewrites
      rw [List.flatMap_append, List.flatMap_singleton]
    rw [hsplit, applyAll_append]
    by_cases hlast : last.1 = at_
    · rw [← h last (by simp) hlast, ← hlast]
      exact Disk.get?_set_self _ (hlast ▸ hroot)
    · have hfront : (at_, content) ∈ front := by
        rcases List.mem_append.mp hmem with hmem | hmem
        · exact hmem
        · cases List.mem_singleton.mp hmem
          exact absurd rfl hlast
      have hspares : ∀ m ∈ rewrites [last], m.Spares at_ := spares_rewrites fun file hfile heq => by
        cases List.mem_singleton.mp hfile
        exact hlast heq.symm
      exact (get?_applyAll hspares _).trans
        (ih hfront fun file hfile => h file (List.mem_append_left _ hfile))

end Mutation

end ChainGuard
