import ChainGuard.Diagnostic
import ChainGuard.Proofs.Host
import Mathlib

/-!
# Names within the limits

A name may be too long for the disk, or hold a null character. Of any other name the actions say
exactly what the disk says, and a file that can be read can also be written.

1. `Path.render_concat`: the text of a path, part by part.
2. `Path.NoNull`, `Path.Fits`: paths within the limits. `Action.runIn_exists?`: whether such a path
   exists.
3. `Host.HasFile`: a file that can be read by its name. `runIn_readText`, `runIn_writeText`: reading
   and writing it.
-/

namespace ChainGuard

/-! ## 1. Texts of paths -/

namespace Path

/-- The text of a path up to its last part. -/
def upTo (front : List String) : String :=
  if front = [] then "/" else render ⟨.root, front⟩ ++ "/"

theorem intercalate_concat {sep : Char} {front : List Text} (hfront : front ≠ []) (last : Text) :
    [sep].intercalate (front ++ [last]) = [sep].intercalate front ++ sep :: last := by
  induction front with
  | nil => exact absurd rfl hfront
  | cons first rest ih =>
    cases rest with
    | nil =>
      show [sep].intercalate [first, last] = _
      rw [List.intercalate_cons_cons, List.intercalate_singleton, List.intercalate_singleton,
        List.append_assoc, List.singleton_append]
    | cons second rest =>
      rw [List.cons_append, List.cons_append, List.intercalate_cons_cons,
        List.intercalate_cons_cons, ← List.cons_append, ih (List.cons_ne_nil _ _)]
      simp only [List.append_assoc]

theorem render_concat (front : List String) (last : String) :
    render ⟨.root, front ++ [last]⟩ = upTo front ++ last := by
  have hslash : "/".toList = ['/'] := by decide
  rw [← String.toList_inj, toList_render, upTo, List.map_append]
  split
  · next hfront =>
    rw [hfront, String.toList_append, hslash, List.map_nil, List.nil_append, List.map_singleton,
      List.intercalate_singleton]
    rfl
  · next hfront =>
    have hne : front.map String.toList ≠ [] := fun hnil => hfront (List.map_eq_nil_iff.mp hnil)
    rw [String.toList_append, String.toList_append, toList_render, hslash, List.map_singleton,
      intercalate_concat hne, List.append_assoc, List.cons_append]
    rfl

/-- The size of a path below the root: that of its parts, with a slash for each. -/
theorem size_render {parts : List String} (h : parts ≠ []) :
    (render ⟨.root, parts⟩).utf8ByteSize = (parts.map (·.utf8ByteSize + 1)).sum := by
  induction parts using List.reverseRecOn with
  | nil => exact absurd rfl h
  | append_singleton front last ih =>
    have hslash : "/".utf8ByteSize = 1 := by decide
    rw [render_concat, String.utf8ByteSize_append, upTo, List.map_append, List.sum_append,
      List.map_singleton, List.sum_singleton]
    split
    · next hfront => rw [hfront, hslash, List.map_nil, List.sum_nil]; omega
    · next hfront => rw [String.utf8ByteSize_append, ih hfront, hslash]; omega

theorem size_of_ascii (s : String) (h : ∀ c ∈ s.toList, c.val ≤ 127) :
    s.utf8ByteSize = s.toList.length := by
  induction s using String.push_induction with
  | empty => rfl
  | push s c ih =>
    rw [String.toList_push] at h
    rw [String.utf8ByteSize_push, String.toList_push, List.length_append, List.length_singleton,
      ih fun x hx => h x (List.mem_append_left _ hx),
      Char.utf8Size_eq_one_iff.mpr (h c (List.mem_append_right _ (List.mem_singleton.mpr rfl)))]

/-- A path is at most as long as one below it. -/
theorem size_render_le {a b : List String} (h : a <+: b) :
    (render ⟨.root, a⟩).utf8ByteSize ≤ (render ⟨.root, b⟩).utf8ByteSize := by
  induction b using List.reverseRecOn with
  | nil =>
    cases List.prefix_nil.mp h
    exact Nat.le_refl _
  | append_singleton front last ih =>
    rcases List.prefix_concat_iff.mp h with rfl | h
    · exact Nat.le_refl _
    · refine Nat.le_trans (ih h) ?_
      rw [render_concat, String.utf8ByteSize_append, upTo]
      split
      · next hfront => rw [hfront]; exact Nat.le_add_right _ _
      · rw [String.utf8ByteSize_append]; omega

theorem mem_toList_render {c : Char} (hc : c ≠ '/') {parts : List String} :
    c ∈ (render ⟨.root, parts⟩).toList ↔ ∃ s ∈ parts, c ∈ s.toList := by
  induction parts using List.reverseRecOn with
  | nil =>
    have hroot : (render ⟨.root, []⟩).toList = ['/'] := by decide
    rw [hroot, List.mem_singleton]
    exact ⟨fun heq => absurd heq hc, fun h => nomatch h⟩
  | append_singleton front last ih =>
    have hslash : c ∉ "/".toList := by
      rw [show "/".toList = ['/'] by decide, List.mem_singleton]
      exact hc
    have hupTo : c ∈ (upTo front).toList ↔ c ∈ (render ⟨.root, front⟩).toList := by
      unfold upTo
      split
      · next hfront => rw [hfront]; rfl
      · rw [String.toList_append, List.mem_append, or_iff_left hslash]
    rw [render_concat, String.toList_append, List.mem_append, hupTo, ih]
    simp only [List.mem_append, List.mem_singleton, or_and_right, exists_or, exists_eq_left]

/-- Besides slashes, and the dot of the empty path, the text of a path has the characters of its
parts. -/
theorem mem_of_mem_render {p : Path} {c : Char} (hslash : c ≠ '/') (hdot : c ≠ '.')
    (h : c ∈ p.render.toList) : ∃ s ∈ p.parts, c ∈ s.toList := by
  by_cases hempty : p.anchor = .relative ∧ p.parts = []
  · rw [render, if_pos hempty, show ".".toList = ['.'] by decide, List.mem_singleton] at h
    exact absurd h hdot
  · have hslashes : c ∉ p.anchor.slashes.toList := by
      cases p.anchor <;> simp [Anchor.slashes, hslash]
    rw [toList_render_of_ne hempty, List.mem_append, or_iff_right hslashes] at h
    refine (mem_toList_render hslash).mp ?_
    rw [toList_render]
    exact List.mem_cons_of_mem _ h

theorem wantsDirectory_render {parts : List String} (h : Descends parts) (hne : parts ≠ []) :
    Disk.wantsDirectory (render ⟨.root, parts⟩) = false := by
  induction parts using List.reverseRecOn with
  | nil => exact absurd rfl hne
  | append_singleton front last ih =>
    have hlast := (h last (by simp)).1
    have hchars : last.toList ≠ [] := fun hnil => hlast.ne_empty (String.toList_eq_nil_iff.mp hnil)
    rw [Disk.wantsDirectory, render_concat, String.toList_append,
      List.getLast?_append_of_ne_nil _ hchars, decide_eq_false_iff_not]
    exact fun hslash => hlast.no_slash (List.mem_of_getLast? hslash)

/-! ## 2. Limits -/

/-- No part has a null character. -/
def NoNull (parts : List String) : Prop :=
  ∀ s ∈ parts, '\x00' ∉ s.toList

namespace NoNull

variable {a b : List String}

theorem append (ha : NoNull a) (hb : NoNull b) : NoNull (a ++ b) := by
  intro s hs
  rcases List.mem_append.mp hs with hs | hs
  · exact ha s hs
  · exact hb s hs

theorem of_isPrefix (hb : NoNull b) (h : a <+: b) : NoNull a :=
  fun s hs => hb s (h.subset hs)

theorem contains_render (h : NoNull a) : (render ⟨.root, a⟩).toList.contains '\x00' = false := by
  rw [Bool.eq_false_iff]
  intro hnull
  obtain ⟨s, hs, hmem⟩ := (mem_toList_render (by decide)).mp (List.contains_iff_mem.mp hnull)
  exact h s hs hmem

end NoNull

/-- A part that can be the name of something on a disk. -/
structure IsName (s : String) : Prop where
  part : IsPart s
  ne_up : s ≠ ".."
  noNull : '\x00' ∉ s.toList
  short : s.utf8ByteSize ≤ Disk.maxPartBytes

theorem isName_iff {s : String} : IsName s ↔ (s ≠ "" ∧ s ≠ "." ∧ '/' ∉ s.toList) ∧ s ≠ ".." ∧
    '\x00' ∉ s.toList ∧ s.utf8ByteSize ≤ Disk.maxPartBytes :=
  ⟨fun ⟨⟨ne_empty, ne_dot, no_slash⟩, ne_up, noNull, short⟩ =>
      ⟨⟨ne_empty, ne_dot, no_slash⟩, ne_up, noNull, short⟩,
    fun ⟨⟨ne_empty, ne_dot, no_slash⟩, ne_up, noNull, short⟩ =>
      ⟨⟨ne_empty, ne_dot, no_slash⟩, ne_up, noNull, short⟩⟩

instance (s : String) : Decidable (IsName s) :=
  decidable_of_iff _ isName_iff.symm

theorem IsName.descends {s : String} (h : IsName s) : Descends [s] := by
  intro other hother
  cases List.mem_singleton.mp hother
  exact ⟨h.part, h.ne_up⟩

/-- The path has parts that can be names, and is within the limit for whole names. -/
structure Fits (parts : List String) : Prop where
  names : ∀ s ∈ parts, IsName s
  size : (render ⟨.root, parts⟩).utf8ByteSize ≤ Disk.maxNameBytes

namespace Fits

variable {parts : List String}

theorem descends (h : Fits parts) : Descends parts :=
  fun s hs => ⟨(h.names s hs).part, (h.names s hs).ne_up⟩

theorem short (h : Fits parts) : ∀ s ∈ parts, s.utf8ByteSize ≤ Disk.maxPartBytes :=
  fun s hs => (h.names s hs).short

theorem of_isPrefix {above : List String} (h : Fits parts) (habove : above <+: parts) :
    Fits above where
  names s hs := h.names s (habove.subset hs)
  size := Nat.le_trans (size_render_le habove) h.size

theorem noNull (h : Fits parts) : NoNull parts :=
  fun s hs => (h.names s hs).noNull

theorem locate_render (h : Fits parts) (disk : Disk) (cwd : Location) :
    disk.locate cwd (render ⟨.root, parts⟩) = disk.walk [] parts := by
  rw [Disk.locate_render disk cwd h.descends, if_neg (Nat.not_lt.mpr h.size)]

theorem locate_of_opensTo (h : Fits parts) {disk : Disk} (hopens : disk.OpensTo parts)
    (cwd : Location) : disk.locate cwd (render ⟨.root, parts⟩) = .ok parts := by
  rw [h.locate_render]
  exact Disk.walk_of_opensTo h.descends h.short hopens

end Fits

end Path

namespace Disk

/-- Parts are not followed where something on the way is missing or no directory, or where one of
them is too long. -/
theorem walk_eq_error {disk : Disk} {here : Location} {parts : List String} {fault : DiskFault}
    (h : disk.walk here parts = .error fault) :
    fault.isAbsence = true ∨ fault = .nameTooLong ∧ ∃ s ∈ parts, maxPartBytes < s.utf8ByteSize := by
  induction parts generalizing here with
  | nil => cases h
  | cons part rest ih =>
    have hrest : ∀ {next}, disk.walk next rest = .error fault → fault.isAbsence = true ∨
        fault = .nameTooLong ∧ ∃ s ∈ part :: rest, maxPartBytes < s.utf8ByteSize := by
      intro next hnext
      exact (ih hnext).imp_right fun ⟨hfault, s, hs, hlong⟩ =>
        ⟨hfault, s, List.mem_cons_of_mem part hs, hlong⟩
    unfold walk at h
    split at h
    · cases h
      exact .inl rfl
    · cases h
      exact .inl rfl
    · split at h
      · exact hrest h
      · split at h
        · exact hrest h
        · split at h
          · next hlong =>
            cases h
            exact .inr ⟨rfl, part, List.mem_cons_self, hlong⟩
          · exact hrest h

/-- Parts that were followed are not too long. -/
theorem short_of_walk_eq_ok {disk : Disk} {here at_ : Location} {parts : List String}
    (hparts : Path.Descends parts) (h : disk.walk here parts = .ok at_) :
    ∀ s ∈ parts, s.utf8ByteSize ≤ maxPartBytes := by
  induction parts generalizing here with
  | nil => exact fun s hs => nomatch hs
  | cons part rest ih =>
    obtain ⟨hpart, hup⟩ := hparts part List.mem_cons_self
    unfold walk at h
    split at h
    · cases h
    · cases h
    · rw [if_neg hpart.ne_dot, if_neg hup] at h
      split at h
      · cases h
      · next hshort =>
        intro s hs
        rcases List.mem_cons.mp hs with rfl | hs
        · exact Nat.not_lt.mp hshort
        · exact ih (fun s hs => hparts s (List.mem_cons_of_mem part hs)) h s hs

/-- A path that was found is within the limits. -/
theorem fits_of_locate {disk : Disk} {cwd at_ : Location} {parts : List String}
    (hparts : Path.Descends parts)
    (hnull : (Path.render ⟨.root, parts⟩).toList.contains '\x00' = false)
    (h : disk.locate cwd (Path.render ⟨.root, parts⟩) = .ok at_) : Path.Fits parts := by
  rw [locate_render disk cwd hparts] at h
  split at h
  · cases h
  · next hsize =>
    have hshort := short_of_walk_eq_ok hparts h
    refine ⟨fun s hs => ?_, Nat.not_lt.mp hsize⟩
    refine ⟨(hparts s hs).1, (hparts s hs).2, fun hmem => ?_, hshort s hs⟩
    have hthere := List.contains_iff_mem.mpr
      ((Path.mem_toList_render (by decide)).mpr ⟨s, hs, hmem⟩)
    cases hnull.symm.trans hthere

/-- What lies above a place where something is are directories. -/
theorem IsTree.opensTo {disk : Disk} (hdisk : disk.IsTree) {at_ : Location}
    (h : disk.has at_ = true) : disk.OpensTo at_ :=
  fun _ habove hne => hdisk.get?_isPrefix h habove hne

theorem IsTree.holds {disk : Disk} (hdisk : disk.IsTree) {at_ : Location}
    (h : disk.get? at_ = some .directory) : disk.Holds at_ := by
  intro above habove
  by_cases heq : above = at_
  · rw [heq, h]
  · exact hdisk.get?_isPrefix (has_of_get? h) habove heq

theorem find?_of_locate {disk : Disk} {cwd at_ : Location} {name : String} {entry : Entry}
    (hlocate : disk.locate cwd name = .ok at_) (hget : disk.get? at_ = some entry)
    (hname : entry = .directory ∨ wantsDirectory name = false) :
    disk.find? cwd name = .ok (at_, entry) := by
  unfold find?
  rw [hlocate]
  simp only [bind, Except.bind, hget]
  cases entry with
  | directory => rfl
  | file content =>
    have hslash : wantsDirectory name = false := hname.resolve_left (fun heq => nomatch heq)
    simp only [hslash]
    rfl

theorem read_of_locate {disk : Disk} {cwd at_ : Location} {name : String} {content : Bytes}
    (hslash : wantsDirectory name = false) (hlocate : disk.locate cwd name = .ok at_)
    (hget : disk.get? at_ = some (.file content)) : disk.read cwd name = .ok content := by
  unfold read
  rw [find?_of_locate hlocate hget (Or.inr hslash)]
  rfl

/-- A file that can be read reads the same where it and the directories stay. -/
theorem read_mono {disk after : Disk} (hkeeps : disk.KeepsDirectories after) {cwd : Location}
    {name : String} {content : Bytes} (h : disk.read cwd name = .ok content)
    (hfiles : ∀ at_, disk.get? at_ = some (.file content) →
      after.get? at_ = some (.file content)) : after.read cwd name = .ok content := by
  obtain ⟨at_, hlocate, hget, hslash⟩ := read_eq_ok h
  exact read_of_locate hslash (locate_mono hkeeps hlocate) (hfiles at_ hget)

theorem writable_of_locate {disk : Disk} {cwd at_ : Location} {name : String}
    (hslash : wantsDirectory name = false) (hlocate : disk.locate cwd name = .ok at_)
    (hfile : disk.get? at_ ≠ some .directory) : disk.writable cwd name = .ok at_ := by
  have hdirectory : disk.isDirectory at_ = false := decide_eq_false hfile
  unfold writable
  rw [hslash, if_neg Bool.false_ne_true, hlocate]
  simp only [bind, Except.bind, hdirectory]
  rfl

theorem rename_eq_ok {disk : Disk} {cwd : Location} {source target : String} {m : Mutation}
    (h : disk.rename cwd source target = .ok m) :
    ∃ old new, disk.locate cwd source = .ok old ∧ disk.locate cwd target = .ok new ∧
      m = .rename old new := by
  unfold rename at h
  cases hfind : disk.find? cwd source with
  | error fault => rw [hfind] at h; cases h
  | ok found =>
    obtain ⟨old, entry⟩ := found
    rw [hfind] at h
    cases hwritable : disk.writable cwd target with
    | error fault => simp [bind, Except.bind, hwritable] at h
    | ok new =>
      simp [bind, Except.bind, hwritable, pure, Except.pure] at h
      exact ⟨old, new, (find?_eq_ok hfind).1, (writable_eq_ok hwritable).1, h.symm⟩

/-- All parts of all places can be names. -/
def Named (disk : Disk) : Prop :=
  ∀ entry ∈ disk, ∀ s ∈ entry.1, Path.IsName s

instance (disk : Disk) : Decidable disk.Named :=
  inferInstanceAs (Decidable (∀ entry ∈ disk, ∀ s ∈ entry.1, Path.IsName s))

theorem Named.of_has {disk : Disk} (h : disk.Named) {at_ : Location} (hhas : disk.has at_ = true) :
    ∀ s ∈ at_, Path.IsName s := by
  by_cases hroot : at_ = []
  · rw [hroot]
    exact fun s hs => nomatch hs
  · obtain ⟨entry, hentry, rfl⟩ := List.mem_map.mp (mem_places_of_has hhas hroot)
    exact h entry hentry

/-- Of a name within the limits the disk says that there is nothing, if there is nothing. -/
theorem find?_of_get?_eq_none {disk : Disk} {parts : List String} (h : Path.Fits parts)
    (hget : disk.get? parts = none) (cwd : Location) :
    ∃ fault, disk.find? cwd (Path.render ⟨.root, parts⟩) = .error fault ∧
      fault.isAbsence = true := by
  unfold find?
  rw [h.locate_render]
  cases hwalk : disk.walk [] parts with
  | error fault =>
    refine ⟨fault, rfl, (walk_eq_error hwalk).resolve_right ?_⟩
    rintro ⟨-, s, hs, hlong⟩
    exact absurd hlong (Nat.not_lt.mpr (h.short s hs))
  | ok at_ =>
    obtain ⟨rfl, -⟩ :=
      walk_eq_ok h.descends (fun above habove hne => absurd (List.prefix_nil.mp habove) hne) hwalk
    refine ⟨.noSuchFile, ?_, rfl⟩
    simp only [bind, Except.bind, hget]

end Disk

namespace Action

/-- At a path within the limits there is what the disk says, if it can be reached. -/
theorem runIn_lookup_of_fits {parts : List String} (h : Path.Fits parts) {w : Host}
    (hopens : w.disk.has parts = true → w.disk.OpensTo parts) :
    (lookup ⟨.root, parts⟩).runIn w = (.ok (w.disk.get? parts), w) := by
  unfold lookup
  rw [runIn_bind, runIn_get]
  dsimp only
  rw [h.noNull.contains_render, if_neg Bool.false_ne_true]
  cases hget : w.disk.get? parts with
  | none =>
    obtain ⟨fault, hfind, habsence⟩ := Disk.find?_of_get?_eq_none h hget w.cwd
    rw [hfind]
    dsimp only
    rw [habsence, if_pos rfl]
    rfl
  | some entry =>
    have hname : entry = .directory ∨ Disk.wantsDirectory (Path.render ⟨.root, parts⟩) = false := by
      by_cases hroot : parts = []
      · rw [hroot] at hget
        exact Or.inl (Option.some.inj hget).symm
      · exact Or.inr (Path.wantsDirectory_render h.descends hroot)
    have hlocate := h.locate_of_opensTo (hopens (Disk.has_of_get? hget)) w.cwd
    rw [Disk.find?_of_locate hlocate hget hname]
    rfl

theorem runIn_isDirectory {parts : List String} (h : Path.Fits parts) {w : Host}
    (hopens : w.disk.has parts = true → w.disk.OpensTo parts) :
    (isDirectory ⟨.root, parts⟩).runIn w = (.ok (w.disk.isDirectory parts), w) := by
  refine (runIn_bind_of_ok (runIn_lookup_of_fits h hopens)).trans ?_
  unfold Disk.isDirectory
  cases w.disk.get? parts with
  | none => rfl
  | some entry => cases entry <;> rfl

theorem runIn_isFile {parts : List String} (h : Path.Fits parts) {w : Host}
    (hopens : w.disk.has parts = true → w.disk.OpensTo parts) :
    (isFile ⟨.root, parts⟩).runIn w = (.ok (w.disk.isFile parts), w) := by
  refine (runIn_bind_of_ok (runIn_lookup_of_fits h hopens)).trans ?_
  unfold Disk.isFile
  cases w.disk.get? parts with
  | none => rfl
  | some entry => cases entry <;> rfl

theorem runIn_resolve {parts : List String} (h : Path.Fits parts) (w : Host) :
    (resolve ⟨.root, parts⟩).runIn w = (.ok ⟨.root, parts⟩, w) := by
  have hnull : parts.any (·.toList.contains '\x00') = false := by
    rw [List.any_eq_false]
    exact fun s hs hcontains => (h.names s hs).noNull (List.contains_iff_mem.mp hcontains)
  unfold resolve
  rw [hnull, if_neg Bool.false_ne_true]
  refine (runIn_bind_of_ok (runIn_workingDirectory w)).trans ?_
  rw [Path.resolve_of_descends _ h.descends]
  rfl

/-- A path within the limits exists if something lies there. -/
theorem runIn_exists? {parts : List String} (h : Path.Fits parts) {w : Host}
    (hopens : w.disk.has parts = true → w.disk.OpensTo parts) :
    (exists? ⟨.root, parts⟩).runIn w = (.ok (w.disk.has parts), w) :=
  runIn_bind_of_ok (runIn_lookup_of_fits h hopens)

end Action

/-! ## 3. Files -/

namespace Host

/-- The host with further changes of its disk. -/
def after (w : Host) (changes : List Mutation) : Host :=
  { w with disk := Mutation.applyAll w.disk changes, trace := w.trace ++ changes }

theorem performs_after (w : Host) (changes : List Mutation) :
    w.Performs changes (w.after changes) :=
  ⟨rfl, rfl, rfl, rfl⟩

theorem after_nil (w : Host) : w.after [] = w := by
  unfold after
  rw [List.append_nil]
  rfl

theorem after_after (w : Host) (first second : List Mutation) :
    (w.after first).after second = w.after (first ++ second) := by
  unfold after
  rw [Mutation.applyAll_append, List.append_assoc]

/-- By its name a file can be written at the place. -/
structure CanWrite (w : Host) (name : String) (at_ : Location) : Prop where
  noNull : name.toList.contains '\x00' = false
  noSlash : Disk.wantsDirectory name = false
  located : w.disk.locate w.cwd name = .ok at_
  notDirectory : w.disk.get? at_ ≠ some .directory

namespace CanWrite

variable {w : Host} {name : String} {at_ : Location}

theorem ne_nil (h : w.CanWrite name at_) : at_ ≠ [] := by
  rintro rfl
  exact h.notDirectory rfl

theorem keepsDirectories (h : w.CanWrite name at_) (now : Bytes) :
    w.disk.KeepsDirectories (w.after [.truncate at_, .write at_ now]).disk := by
  intro other hother
  have hne : other ≠ at_ := by
    rintro rfl
    exact h.notDirectory hother
  show ((w.disk.set at_ _).set at_ _).get? other = _
  rw [Disk.get?_set_of_ne _ hne, Disk.get?_set_of_ne _ hne, hother]

/-- What can be written can still be written after another file was. -/
theorem after_write (h : w.CanWrite name at_) {other : String} {place : Location}
    (hother : w.CanWrite other place) (now : Bytes) :
    (w.after [.truncate at_, .write at_ now]).CanWrite other place where
  noNull := hother.noNull
  noSlash := hother.noSlash
  located := Disk.locate_mono (h.keepsDirectories now) hother.located
  notDirectory := by
    show ((w.disk.set at_ _).set at_ _).get? place ≠ _
    by_cases heq : place = at_
    · rw [heq, Disk.get?_set_self _ h.ne_nil]
      exact fun hdir => nomatch hdir
    · rw [Disk.get?_set_of_ne _ heq, Disk.get?_set_of_ne _ heq]
      exact hother.notDirectory

end CanWrite

/-- By its name the file at the place can be read and written, and this is its content. -/
structure HasFile (w : Host) (name : String) (at_ : Location) (content : Bytes) : Prop where
  noNull : name.toList.contains '\x00' = false
  noSlash : Disk.wantsDirectory name = false
  located : w.disk.locate w.cwd name = .ok at_
  get? : w.disk.get? at_ = some (.file content)

namespace HasFile

variable {w w' : Host} {name : String} {at_ : Location} {content : Bytes}

theorem read_eq (h : w.HasFile name at_ content) : w.disk.read w.cwd name = .ok content :=
  Disk.read_of_locate h.noSlash h.located h.get?

theorem mono (h : w.HasFile name at_ content) (hcwd : w'.cwd = w.cwd)
    (hkeeps : w.disk.KeepsDirectories w'.disk) {now : Bytes}
    (hget : w'.disk.get? at_ = some (.file now)) : w'.HasFile name at_ now where
  noNull := h.noNull
  noSlash := h.noSlash
  located := by rw [hcwd]; exact Disk.locate_mono hkeeps h.located
  get? := hget

theorem of_sameDisk (h : w.HasFile name at_ content) (hsame : w.SameDisk w') :
    w'.HasFile name at_ content where
  noNull := h.noNull
  noSlash := h.noSlash
  located := by rw [hsame.disk, hsame.cwd]; exact h.located
  get? := by rw [hsame.disk]; exact h.get?

theorem canWrite (h : w.HasFile name at_ content) : w.CanWrite name at_ where
  noNull := h.noNull
  noSlash := h.noSlash
  located := h.located
  notDirectory := by
    rw [h.get?]
    exact fun heq => nomatch heq

theorem ne_nil (h : w.HasFile name at_ content) : at_ ≠ [] :=
  h.canWrite.ne_nil

/-- Writing to one file leaves every other file, and its own name. -/
theorem after_write {other : String} {place : Location} {old : Bytes}
    (h : w.HasFile name at_ content) (hother : w.HasFile other place old) (now : Bytes) :
    ∃ still, (w.after [.truncate at_, .write at_ now]).HasFile other place still := by
  have hkeeps := h.canWrite.keepsDirectories now
  have hcwd : (w.after [.truncate at_, .write at_ now]).cwd = w.cwd := rfl
  by_cases heq : place = at_
  · subst heq
    exact ⟨now, hother.mono hcwd hkeeps (Disk.get?_set_self _ h.ne_nil)⟩
  · refine ⟨old, hother.mono hcwd hkeeps ?_⟩
    show ((w.disk.set at_ _).set at_ _).get? place = _
    rw [Disk.get?_set_of_ne _ heq, Disk.get?_set_of_ne _ heq, hother.get?]

end HasFile

theorem CanWrite.hasFile {w : Host} {name : String} {at_ : Location}
    (h : w.CanWrite name at_) (now : Bytes) :
    (w.after [.truncate at_, .write at_ now]).HasFile name at_ now where
  noNull := h.noNull
  noSlash := h.noSlash
  located := Disk.locate_mono (h.keepsDirectories now) h.located
  get? := Disk.get?_set_self _ h.ne_nil

/-- Every one of the names stands for a file at its place. -/
def Targets (w : Host) (target : String → Location) (names : List String) : Prop :=
  ∀ name ∈ names, ∃ content, w.HasFile name (target name) content

theorem Targets.after_write {w : Host} {target : String → Location} {names : List String}
    (h : w.Targets target names) {name : String} {at_ : Location} {content : Bytes}
    (hfile : w.HasFile name at_ content) (now : Bytes) :
    (w.after [.truncate at_, .write at_ now]).Targets target names := by
  intro other hother
  obtain ⟨old, hold⟩ := h other hother
  exact hfile.after_write hold now

/-- The host after the texts of files were written, each to its place. -/
def afterWrites (w : Host) (target : String → Location) (files : Files) : Host :=
  w.after (Mutation.rewrites (files.map fun file => (target file.1, Utf8.encode file.2)))

theorem afterWrites_nil (w : Host) (target : String → Location) : w.afterWrites target [] = w :=
  w.after_nil

theorem afterWrites_cons (w : Host) (target : String → Location) (name : String) (text : Text)
    (rest : Files) :
    w.afterWrites target ((name, text) :: rest) =
      (w.after [.truncate (target name), .write (target name) (Utf8.encode text)]).afterWrites
        target rest :=
  (w.after_after _ _).symm

section

variable {w : Host} {target : String → Location} {files : Files}

/-- Files that are written stay files at their places. -/
theorem Targets.afterWrites {names : List String} (h : w.Targets target names)
    (hfiles : w.Targets target files.keys) : (w.afterWrites target files).Targets target names := by
  induction files generalizing w with
  | nil =>
    rw [afterWrites_nil]
    exact h
  | cons first rest ih =>
    obtain ⟨name, text⟩ := first
    obtain ⟨content, hfile⟩ := hfiles name List.mem_cons_self
    rw [afterWrites_cons]
    have hrest : w.Targets target (Dict.keys rest) :=
      fun other hother => hfiles other (List.mem_cons_of_mem _ hother)
    exact ih (h.after_write hfile _) (hrest.after_write hfile _)

/-- Nothing is touched but the files that are written. -/
theorem spares_afterWrites {keep : Location → Prop} (h : ∀ name ∈ files.keys, ¬keep (target name)) :
    w.Spares keep (w.afterWrites target files) := by
  refine ⟨_, w.performs_after _, fun m hm at_ hat => ?_⟩
  refine Mutation.spares_rewrites (fun file hfile heq => ?_) m hm
  obtain ⟨entry, hentry, rfl⟩ := List.mem_map.mp hfile
  subst heq
  exact h entry.1 (List.mem_map_of_mem hentry) hat

/-- While files are written the disk is at every instant one on which some of them were written,
with some texts. A file that was emptied counts as one with the empty text. -/
theorem always_afterWrites {P : Disk → Prop}
    (h : ∀ texts : Files, texts.keys ⊆ files.keys → P (w.afterWrites target texts).disk) :
    w.Always P (w.afterWrites target files) := by
  refine ⟨_, w.performs_after _, fun before hbefore => ?_⟩
  suffices hwritten : ∃ texts : Files, texts.keys ⊆ files.keys ∧
      Mutation.applyAll w.disk before = (w.afterWrites target texts).disk by
    obtain ⟨texts, hkeys, hdisk⟩ := hwritten
    exact hdisk ▸ h texts hkeys
  clear h
  induction files generalizing w before with
  | nil => exact ⟨[], List.Subset.refl _, by rw [List.prefix_nil.mp hbefore]; rfl⟩
  | cons first rest ih =>
    obtain ⟨name, text⟩ := first
    rcases List.prefix_cons_iff.mp hbefore with rfl | ⟨more, rfl, hmore⟩
    · exact ⟨[], List.nil_subset _, rfl⟩
    rcases List.prefix_cons_iff.mp hmore with rfl | ⟨later, rfl, hlater⟩
    · refine ⟨[(name, [])], List.cons_subset_cons _ (List.nil_subset _), ?_⟩
      exact (Disk.set_set w.disk (target name) (.file []) (.file [])).symm
    · let next := w.after [.truncate (target name), .write (target name) (Utf8.encode text)]
      obtain ⟨texts, hkeys, hdisk⟩ := ih (w := next) later hlater
      refine ⟨(name, text) :: texts, List.cons_subset_cons _ hkeys, ?_⟩
      rw [afterWrites_cons, ← hdisk]
      rfl

theorem get?_afterWrites_of_ne {at_ : Location} (h : ∀ name ∈ files.keys, target name ≠ at_) :
    (w.afterWrites target files).disk.get? at_ = w.disk.get? at_ := by
  have hspares : w.Spares (· = at_) (w.afterWrites target files) := spares_afterWrites h
  exact hspares.get? rfl

/-- A file holds the text that was written, if no other text is written to its place. -/
theorem get?_afterWrites {name : String} {text : Text} (hroot : target name ≠ [])
    (hfile : (name, text) ∈ files)
    (h : ∀ other now, (other, now) ∈ files → target other = target name →
      Utf8.encode now = Utf8.encode text) :
    (w.afterWrites target files).disk.get? (target name) = some (.file (Utf8.encode text)) := by
  refine Mutation.get?_rewrites hroot (List.mem_map.mpr ⟨_, hfile, rfl⟩) (fun file hmem heq => ?_) _
  obtain ⟨⟨other, now⟩, hother, rfl⟩ := List.mem_map.mp hmem
  exact h other now hother heq

/-- Where files are written, something was, and no directory. -/
theorem Targets.get?_afterWrites_cases (h : w.Targets target files.keys) (at_ : Location) :
    (w.afterWrites target files).disk.get? at_ = w.disk.get? at_ ∨
      ∃ old now, w.disk.get? at_ = some (.file old) ∧
        (w.afterWrites target files).disk.get? at_ = some (.file now) := by
  by_cases hat : ∃ name ∈ files.keys, target name = at_
  · obtain ⟨name, hname, rfl⟩ := hat
    obtain ⟨old, hold⟩ := h name hname
    obtain ⟨now, hnow⟩ := (h.afterWrites h) name hname
    exact Or.inr ⟨old, now, hold.get?, hnow.get?⟩
  · exact Or.inl (get?_afterWrites_of_ne fun name hname heq => hat ⟨name, hname, heq⟩)

theorem Targets.has_afterWrites (h : w.Targets target files.keys) (at_ : Location) :
    (w.afterWrites target files).disk.has at_ = w.disk.has at_ := by
  rcases h.get?_afterWrites_cases at_ with heq | ⟨old, now, hold, hnow⟩
  · rw [Disk.has, heq, Disk.has]
  · rw [Disk.has_of_get? hold, Disk.has_of_get? hnow]

theorem Targets.keepsDirectories_afterWrites (h : w.Targets target files.keys) :
    w.disk.KeepsDirectories (w.afterWrites target files).disk := by
  intro at_ hdir
  rcases h.get?_afterWrites_cases at_ with heq | ⟨old, now, hold, -⟩
  · rw [heq, hdir]
  · rw [hold] at hdir
    cases hdir

theorem Targets.isTree_afterWrites (h : w.Targets target files.keys) (hw : w.disk.IsTree) :
    (w.afterWrites target files).disk.IsTree := by
  intro at_ hhas
  rw [h.has_afterWrites] at hhas
  exact h.keepsDirectories_afterWrites _ (hw at_ hhas)

end

theorem hasFile_render {parts : List String} (h : Path.Fits parts) {w : Host}
    (hopens : w.disk.OpensTo parts) {content : Bytes}
    (hget : w.disk.get? parts = some (.file content)) :
    w.HasFile (Path.render ⟨.root, parts⟩) parts content where
  noNull := h.noNull.contains_render
  noSlash := by
    refine Path.wantsDirectory_render h.descends ?_
    rintro rfl
    cases hget
  located := h.locate_of_opensTo hopens w.cwd
  get? := hget

end Host

namespace Action

variable {w : Host} {name : String} {at_ : Location} {content : Bytes}

theorem runIn_perform (m : Mutation) (w : Host) : (perform m).runIn w = (.ok (), w.after [m]) :=
  rfl

theorem runIn_ask_of_ok {α : Type} {question : Disk → Location → Except DiskFault α} {a : α}
    (hnull : name.toList.contains '\x00' = false) (h : question w.disk w.cwd = .ok a) :
    (ask name question).runIn w = (.ok a, w) := by
  rw [runIn_ask, hnull, if_neg Bool.false_ne_true, h]
  rfl

theorem runIn_readText (h : w.HasFile name at_ content) {t : Text}
    (ht : Utf8.decode content = .ok t) : (readText name).runIn w = (.ok t, w) := by
  have hbytes : (readBytes name).runIn w = (.ok content, w) :=
    runIn_ask_of_ok h.noNull h.read_eq
  unfold readText
  rw [runIn_bind_of_ok hbytes, ht]
  rfl

theorem runIn_writeText (h : w.CanWrite name at_) (t : Text) :
    (writeText name t).runIn w =
      (.ok (), w.after [.truncate at_, .write at_ (Utf8.encode t)]) := by
  have hwritable := Disk.writable_of_locate h.noSlash h.located h.notDirectory
  unfold writeText
  rw [runIn_bind_of_ok (runIn_ask_of_ok h.noNull hwritable),
    runIn_bind_of_ok (runIn_perform _ w), runIn_perform, Host.after_after]
  rfl

/-- A text that was written has a name that can be written, and is the only change. -/
theorem writeText_eq_ok {name : String} {t : Text} {w w' : Host}
    (h : (writeText name t).runIn w = (.ok (), w')) : ∃ at_, w.CanWrite name at_ ∧
      w' = w.after [.truncate at_, .write at_ (Utf8.encode t)] := by
  have hask := runIn_ask name (fun disk cwd => disk.writable cwd name) w
  unfold writeText at h
  obtain ⟨at_, v, hwritable, hend⟩ := runIn_bind_eq_ok h
  rw [hask] at hwritable
  split at hwritable
  · cases hwritable
  · next hnull =>
    cases hresult : w.disk.writable w.cwd name with
    | error fault =>
      rw [hresult] at hwritable
      cases hwritable
    | ok place =>
      rw [hresult] at hwritable
      cases hwritable
      obtain ⟨hlocate, hfile⟩ := Disk.writable_eq_ok hresult
      have hslash : Disk.wantsDirectory name = false := by
        rw [Bool.eq_false_iff]
        intro hslash
        unfold Disk.writable at hresult
        rw [if_pos hslash] at hresult
        cases hsteps : w.disk.locateSteps w.cwd name ((Disk.steps name).dropLast ++ ["."]) <;>
          rw [hsteps] at hresult <;> cases hresult
      refine ⟨at_, ⟨Bool.eq_false_iff.mpr hnull, hslash, hlocate, hfile⟩, ?_⟩
      rw [runIn_bind_of_ok (runIn_perform _ w), runIn_perform, Host.after_after] at hend
      exact (congrArg Prod.snd hend).symm

/-- A text that was written at a path says that the path is within the limits and can be reached. -/
theorem writeText_render_eq_ok {parts : List String} (hparts : Path.Descends parts) {t : Text}
    {w w' : Host} (h : (writeText (Path.render ⟨.root, parts⟩) t).runIn w = (.ok (), w')) :
    Path.Fits parts ∧ w.disk.OpensTo parts ∧
      w.Performs [.truncate parts, .write parts (Utf8.encode t)] w' := by
  obtain ⟨at_, hwrite, rfl⟩ := writeText_eq_ok h
  obtain ⟨rfl, hopens⟩ := Disk.locate_render_eq_ok hparts hwrite.located
  exact ⟨Disk.fits_of_locate hparts hwrite.noNull hwrite.located, hopens, w.performs_after _⟩

/-- A text can be written at a path that can be reached, where no directory is. -/
theorem runIn_writeText_render {parts : List String} (h : Path.Fits parts) (hne : parts ≠ [])
    {w : Host} (hopens : w.disk.OpensTo parts) (hfile : w.disk.get? parts ≠ some .directory)
    (t : Text) : (writeText (Path.render ⟨.root, parts⟩) t).runIn w =
      (.ok (), w.after [.truncate parts, .write parts (Utf8.encode t)]) := by
  have hwrite : w.CanWrite (Path.render ⟨.root, parts⟩) parts :=
    ⟨h.noNull.contains_render, Path.wantsDirectory_render h.descends hne,
      h.locate_of_opensTo hopens w.cwd, hfile⟩
  exact runIn_writeText hwrite t

/-- A directory can be made at a path that can be reached, where nothing is. -/
theorem runIn_makeDirectory {parts : List String} (h : Path.Fits parts) {w : Host}
    (hopens : w.disk.OpensTo parts) (hhas : w.disk.has parts = false) :
    (makeDirectory ⟨.root, parts⟩).runIn w = (.ok (), w.after [.makeDirectory parts]) := by
  have hmake : w.disk.makeDirectory w.cwd (Path.render ⟨.root, parts⟩) =
      .ok (.makeDirectory parts) := by
    unfold Disk.makeDirectory
    rw [h.locate_of_opensTo hopens w.cwd]
    simp only [bind, Except.bind, hhas]
    rfl
  unfold makeDirectory
  rw [runIn_bind_of_ok (runIn_ask_of_ok h.noNull.contains_render hmake), runIn_perform]

theorem runIn_list {parts : List String} (h : Path.Fits parts) {w : Host}
    (hopens : w.disk.OpensTo parts) (hget : w.disk.get? parts = some .directory) :
    (list ⟨.root, parts⟩).runIn w = (.ok (w.disk.children parts), w) := by
  have hfind := Disk.find?_of_locate (h.locate_of_opensTo hopens w.cwd) hget (Or.inl rfl)
  refine runIn_ask_of_ok h.noNull.contains_render ?_
  rw [Disk.list, hfind]
  rfl

theorem list_eq_ok {parts : List String} (hparts : Path.Descends parts) {names : List String}
    {w w' : Host} (h : (list ⟨.root, parts⟩).runIn w = (.ok names, w')) :
    w' = w ∧ names = w.disk.children parts := by
  rcases runIn_ask_cases (Path.render ⟨.root, parts⟩)
    (fun disk cwd => disk.list cwd (Path.render ⟨.root, parts⟩)) w with
    ⟨e, hask⟩ | ⟨found, hlist, hask⟩
  · cases hask.symm.trans h
  · cases hask.symm.trans h
    refine ⟨rfl, ?_⟩
    unfold Disk.list at hlist
    cases hfind : w.disk.find? w.cwd (Path.render ⟨.root, parts⟩) with
    | error fault => rw [hfind] at hlist; cases hlist
    | ok entry =>
      obtain ⟨at_, entry⟩ := entry
      rw [hfind] at hlist
      cases entry with
      | file content => cases hlist
      | directory =>
        cases hlist
        obtain ⟨rfl, -⟩ := Disk.locate_render_eq_ok hparts (Disk.find?_eq_ok hfind).1
        rfl

/-- Moving a file either fails and changes nothing, or gives it its other path. -/
theorem rename_cases {source target : List String} (hsource : Path.Descends source)
    (htarget : Path.Descends target) (w : Host) :
    (∃ e, (rename ⟨.root, source⟩ ⟨.root, target⟩).runIn w = (.error e, w)) ∨
    (rename ⟨.root, source⟩ ⟨.root, target⟩).runIn w =
      (.ok (), w.after [.rename source target]) := by
  unfold rename
  rw [runIn_bind_of_ok (runIn_get w)]
  cases hrename : w.disk.rename w.cwd (Path.render ⟨.root, source⟩)
      (Path.render ⟨.root, target⟩) with
  | error fault => exact Or.inl ⟨_, rfl⟩
  | ok m =>
    obtain ⟨old, new, hold, hnew, rfl⟩ := Disk.rename_eq_ok hrename
    obtain ⟨rfl, -⟩ := Disk.locate_render_eq_ok hsource hold
    obtain ⟨rfl, -⟩ := Disk.locate_render_eq_ok htarget hnew
    exact Or.inr rfl

/-- A file cannot be moved to a path that is too long. -/
theorem runIn_rename_of_long {source target : List String} (hsource : Path.Fits source)
    (htarget : Path.Descends target) (htargetNe : target ≠ [])
    (hlong : Disk.maxNameBytes < (Path.render ⟨.root, target⟩).utf8ByteSize) {w : Host}
    {content : Bytes} (hold : w.disk.get? source = some (.file content))
    (hopensOld : w.disk.OpensTo source) :
    (rename ⟨.root, source⟩ ⟨.root, target⟩).runIn w =
      (.error (.disk ⟨.nameTooLong, Path.render ⟨.root, source⟩,
        some (Path.render ⟨.root, target⟩)⟩), w) := by
  have hfile := Host.hasFile_render hsource hopensOld hold
  have hfind := Disk.find?_of_locate hfile.located hfile.get? (Or.inr hfile.noSlash)
  have hwritable : w.disk.writable w.cwd (Path.render ⟨.root, target⟩) = .error .nameTooLong := by
    unfold Disk.writable
    rw [Path.wantsDirectory_render htarget htargetNe, if_neg Bool.false_ne_true,
      Disk.locate_render _ _ htarget, if_pos hlong]
    rfl
  have hrename : w.disk.rename w.cwd (Path.render ⟨.root, source⟩) (Path.render ⟨.root, target⟩) =
      .error .nameTooLong := by
    unfold Disk.rename
    rw [hfind]
    simp only [bind, Except.bind, hwritable]
  unfold rename
  rw [runIn_bind_of_ok (runIn_get w), hrename]
  rfl

/-- Moving a file to a path that can be reached and where no directory is. -/
theorem runIn_rename {source target : List String} (hsource : Path.Fits source)
    (htarget : Path.Fits target) (htargetNe : target ≠ []) {w : Host} {content : Bytes}
    (hold : w.disk.get? source = some (.file content)) (hopensOld : w.disk.OpensTo source)
    (hnew : w.disk.get? target ≠ some .directory) (hopensNew : w.disk.OpensTo target) :
    (rename ⟨.root, source⟩ ⟨.root, target⟩).runIn w =
      (.ok (), w.after [.rename source target]) := by
  have hfile := Host.hasFile_render hsource hopensOld hold
  have hfind := Disk.find?_of_locate hfile.located hfile.get? (Or.inr hfile.noSlash)
  have hwritable := Disk.writable_of_locate
    (Path.wantsDirectory_render htarget.descends htargetNe)
    (htarget.locate_of_opensTo hopensNew w.cwd) hnew
  have hrename : w.disk.rename w.cwd (Path.render ⟨.root, source⟩) (Path.render ⟨.root, target⟩) =
      .ok (.rename source target) := by
    unfold Disk.rename
    rw [hfind]
    simp only [bind, Except.bind, hwritable]
    rfl
  unfold rename
  rw [runIn_bind_of_ok (runIn_get w), hrename]
  rfl

end Action

end ChainGuard
