import ChainGuard.Path
import ChainGuard.Disk

/-!
# Parts of paths

A path that was read has parts without a slash, none of them empty or a dot. Made absolute, it has
no `..` either. Such a path and its text form say the same, and below a common directory the way to
it leads straight down.

1. Pieces between slashes.
2. `Path.IsRead`, `Path.Descends`: the parts of paths as read, and as made absolute.
3. `Path.ofString_render`: reading what was written. `Disk.steps_render`: the names on the way that
   the text of a path stands for.
4. `Path.relativeTo_commonBase`: the way from a common directory.
-/

namespace ChainGuard

/-! ## 1. Pieces -/

namespace Text

theorem splitOnChar_ne_nil (sep : Char) (t : Text) : splitOnChar sep t ≠ [] := by
  cases t with
  | nil => exact List.cons_ne_nil _ _
  | cons c rest =>
    unfold splitOnChar
    split
    · exact List.cons_ne_nil _ _
    · cases splitOnChar sep rest <;> exact List.cons_ne_nil _ _

theorem splitOnChar_cons_of_ne {sep c : Char} (h : c ≠ sep) (t : Text) :
    ∃ first others, splitOnChar sep (c :: t) = (c :: first) :: others := by
  rw [splitOnChar, if_neg h]
  cases hrest : splitOnChar sep t with
  | nil => exact absurd hrest (splitOnChar_ne_nil sep t)
  | cons first others => exact ⟨first, others, rfl⟩

theorem splitOnChar_of_not_mem {sep : Char} {t : Text} (h : sep ∉ t) :
    splitOnChar sep t = [t] := by
  induction t with
  | nil => rfl
  | cons c rest ih =>
    rw [List.mem_cons, not_or] at h
    rw [splitOnChar, if_neg (Ne.symm h.1), ih h.2]
    rfl

theorem splitOnChar_append {sep : Char} {t : Text} (h : sep ∉ t) (rest : Text) :
    splitOnChar sep (t ++ sep :: rest) = t :: splitOnChar sep rest := by
  induction t with
  | nil => rw [List.nil_append, splitOnChar, if_pos rfl]
  | cons c cs ih =>
    rw [List.mem_cons, not_or] at h
    rw [List.cons_append, splitOnChar, if_neg (Ne.symm h.1), ih h.2]
    rfl

/-- No piece holds the character that separates the pieces. -/
theorem not_mem_of_mem_splitOnChar {sep : Char} {t piece : Text}
    (h : piece ∈ splitOnChar sep t) : sep ∉ piece := by
  induction t generalizing piece with
  | nil =>
    cases List.mem_singleton.mp h
    exact List.not_mem_nil
  | cons c rest ih =>
    unfold splitOnChar at h
    split at h
    · rcases List.mem_cons.mp h with rfl | h
      · exact List.not_mem_nil
      · exact ih h
    · next hne =>
      cases hrest : splitOnChar sep rest with
      | nil => exact absurd hrest (splitOnChar_ne_nil sep rest)
      | cons line others =>
        rw [hrest] at h ih
        rcases List.mem_cons.mp h with rfl | h
        · rw [List.mem_cons, not_or]
          exact ⟨Ne.symm hne, ih List.mem_cons_self⟩
        · exact ih (List.mem_cons_of_mem _ h)

theorem mem_of_mem_splitOnChar {sep c : Char} {t piece : Text} (h : piece ∈ splitOnChar sep t)
    (hc : c ∈ piece) : c ∈ t := by
  induction t generalizing piece with
  | nil =>
    rw [List.mem_singleton.mp h] at hc
    exact hc
  | cons d rest ih =>
    unfold splitOnChar at h
    split at h
    · rcases List.mem_cons.mp h with rfl | h
      · cases hc
      · exact List.mem_cons_of_mem d (ih h hc)
    · cases hrest : splitOnChar sep rest with
      | nil => exact absurd hrest (splitOnChar_ne_nil sep rest)
      | cons line others =>
        rw [hrest] at h ih
        rcases List.mem_cons.mp h with rfl | h
        · rcases List.mem_cons.mp hc with rfl | hc
          · exact List.mem_cons_self
          · exact List.mem_cons_of_mem d (ih List.mem_cons_self hc)
        · exact List.mem_cons_of_mem d (ih (List.mem_cons_of_mem _ h) hc)

/-- Pieces joined and split again are the same pieces. -/
theorem splitOnChar_intercalate {sep : Char} {ts : List Text} (hne : ts ≠ [])
    (h : ∀ t ∈ ts, sep ∉ t) : splitOnChar sep ([sep].intercalate ts) = ts := by
  induction ts with
  | nil => exact absurd rfl hne
  | cons t rest ih =>
    have ht := h t List.mem_cons_self
    cases rest with
    | nil =>
      rw [List.intercalate_singleton]
      exact splitOnChar_of_not_mem ht
    | cons u rest =>
      have hrest := ih (List.cons_ne_nil u rest) fun x hx => h x (List.mem_cons_of_mem t hx)
      rw [List.intercalate_cons_cons, List.append_assoc, List.singleton_append,
        splitOnChar_append ht, hrest]

end Text

/-! ## 2. Parts -/

namespace Path

/-- A part as it is read: not empty, no dot, and without a slash. -/
structure IsPart (s : String) : Prop where
  ne_empty : s ≠ ""
  ne_dot : s ≠ "."
  no_slash : '/' ∉ s.toList

/-- The path has parts as they are read. -/
def IsRead (p : Path) : Prop :=
  ∀ s ∈ p.parts, IsPart s

/-- The parts lead down, never up. -/
def Descends (parts : List String) : Prop :=
  ∀ s ∈ parts, IsPart s ∧ s ≠ ".."

theorem isRead_ofString (s : String) : (ofString s).IsRead := by
  intro part hpart
  obtain ⟨hpiece, hkeep⟩ := List.mem_filter.mp hpart
  obtain ⟨t, ht, rfl⟩ := List.mem_map.mp hpiece
  rw [Bool.and_eq_true, bne_iff_ne, bne_iff_ne] at hkeep
  refine ⟨hkeep.1, hkeep.2, ?_⟩
  rw [String.toList_ofList]
  exact Text.not_mem_of_mem_splitOnChar ht

theorem mem_of_mem_ofString {s part : String} {c : Char} (hpart : part ∈ (ofString s).parts)
    (hc : c ∈ part.toList) : c ∈ s.toList := by
  obtain ⟨t, ht, rfl⟩ := List.mem_map.mp (List.mem_filter.mp hpart).1
  rw [String.toList_ofList] at hc
  exact Text.mem_of_mem_splitOnChar ht hc

/-- A name of three or more characters is no dots, so it is a part if it has no slash. -/
theorem descends_singleton {s : String} (hlength : 2 < s.toList.length) (hslash : '/' ∉ s.toList) :
    Descends [s] := by
  have hne : ∀ t : String, t.toList.length ≤ 2 → s ≠ t := by
    rintro t ht rfl
    omega
  intro t ht
  cases List.mem_singleton.mp ht
  exact ⟨⟨hne "" (by decide), hne "." (by decide), hslash⟩, hne ".." (by decide)⟩

theorem slash_not_mem_toString (n : Nat) : '/' ∉ (toString n).toList := by
  intro h
  have hdigit := Nat.isDigit_of_mem_toDigits (by decide) (by decide) (Nat.toList_repr ▸ h)
  exact absurd hdigit (by decide)

theorem slash_not_mem_append {s t : String} (hs : '/' ∉ s.toList) (ht : '/' ∉ t.toList) :
    '/' ∉ (s ++ t).toList := by
  rw [String.toList_append, List.mem_append, not_or]
  exact ⟨hs, ht⟩

theorem slash_not_mem_zeros (n : Nat) : '/' ∉ (String.ofList (List.replicate n '0')).toList := by
  rw [String.toList_ofList]
  intro h
  exact absurd (List.eq_of_mem_replicate h) (by decide)

theorem Descends.append {a b : List String} (ha : Descends a) (hb : Descends b) :
    Descends (a ++ b) := by
  intro s hs
  rcases List.mem_append.mp hs with hs | hs
  · exact ha s hs
  · exact hb s hs

theorem Descends.of_isPrefix {a b : List String} (hb : Descends b) (h : a <+: b) : Descends a :=
  fun s hs => hb s (h.subset hs)

theorem descends_follow {at_ : List String} {part : String} (hat : Descends at_)
    (hpart : IsPart part) : Descends (follow at_ part) := by
  unfold follow
  split
  · exact hat.of_isPrefix (List.dropLast_prefix at_)
  · next hup => exact hat.append fun s hs => by cases List.mem_singleton.mp hs; exact ⟨hpart, hup⟩

theorem descends_collapse {parts : List String} (h : ∀ s ∈ parts, IsPart s) :
    Descends (collapse parts) := by
  unfold collapse
  refine List.foldlRecOn parts follow (fun _ hs => nomatch hs) ?_
  intro at_ hat part hpart
  exact descends_follow hat (h part hpart)

theorem mem_of_mem_collapse {parts : List String} {s : String} (h : s ∈ collapse parts) :
    s ∈ parts := by
  have hsubset : collapse parts ⊆ parts := by
    unfold collapse
    refine List.foldlRecOn (motive := (· ⊆ parts)) parts follow (List.nil_subset _) ?_
    intro at_ hat part hpart
    unfold follow
    split
    · exact List.Subset.trans (List.dropLast_subset at_) hat
    · exact List.append_subset.mpr ⟨hat, List.cons_subset.mpr ⟨hpart, List.nil_subset _⟩⟩
  exact hsubset h

theorem foldl_follow {at_ parts : List String} (h : Descends parts) :
    parts.foldl follow at_ = at_ ++ parts := by
  induction parts generalizing at_ with
  | nil => exact (List.append_nil at_).symm
  | cons part rest ih =>
    have hup := (h part List.mem_cons_self).2
    rw [List.foldl_cons, ih fun s hs => h s (List.mem_cons_of_mem part hs), follow, if_neg hup,
      List.append_assoc, List.singleton_append]

theorem collapse_of_descends {parts : List String} (h : Descends parts) :
    collapse parts = parts :=
  foldl_follow h

/-- An absolute path that leads down denotes its own place. -/
theorem resolve_of_descends (cwd : Path) {parts : List String} (h : Descends parts) :
    resolve cwd ⟨.root, parts⟩ = ⟨.root, parts⟩ :=
  congrArg (Path.mk .root) (collapse_of_descends h)

/-- The place that a path denotes is found by following its parts. -/
theorem parts_resolve {cwd : List String} (hcwd : Descends cwd) (p : Path) :
    (resolve ⟨.root, cwd⟩ p).parts =
      p.parts.foldl follow (if p.anchor = .relative then cwd else []) := by
  unfold resolve absolute join isAbsolute
  by_cases hrelative : p.anchor = .relative
  · rw [if_neg (by simp [hrelative]), if_pos hrelative]
    show collapse (cwd ++ p.parts) = _
    rw [collapse, List.foldl_append]
    exact congrArg (p.parts.foldl follow) (collapse_of_descends hcwd)
  · rw [if_pos (bne_iff_ne.mpr hrelative), if_neg hrelative]
    rfl

theorem descends_absolute {cwd p : Path} (hcwd : cwd.IsRead) (hp : p.IsRead) :
    Descends (absolute cwd p).parts := by
  refine descends_collapse ?_
  unfold join
  split
  · exact hp
  · intro s hs
    rcases List.mem_append.mp hs with hs | hs
    · exact hcwd s hs
    · exact hp s hs

end Path

/-! ## 3. Names -/

namespace Path

theorem toList_render_of_ne {p : Path} (h : ¬(p.anchor = .relative ∧ p.parts = [])) :
    p.render.toList = p.anchor.slashes.toList ++ ['/'].intercalate (p.parts.map String.toList) := by
  have hslash : "/".toList = ['/'] := by decide
  rw [render, if_neg h, String.toList_append, String.toList_intercalate, hslash]

theorem toList_render (parts : List String) :
    (render ⟨.root, parts⟩).toList = '/' :: ['/'].intercalate (parts.map String.toList) := by
  have habsolute : ¬(Anchor.root = .relative ∧ parts = []) := fun h => nomatch h.1
  have hslash : "/".toList = ['/'] := by decide
  rw [toList_render_of_ne habsolute]
  show "/".toList ++ _ = _
  rw [hslash]
  rfl

theorem anchorOf_slash (t : Text) : anchorOf ('/' :: t) ≠ .relative := by
  unfold anchorOf
  split <;> simp_all

theorem pieces_intercalate {parts : List String} (hne : parts ≠ [])
    (h : ∀ s ∈ parts, '/' ∉ s.toList) :
    pieces (['/'].intercalate (parts.map String.toList)) = parts := by
  have hpieces : ∀ t ∈ parts.map String.toList, '/' ∉ t := by
    intro t ht
    obtain ⟨s, hs, rfl⟩ := List.mem_map.mp ht
    exact h s hs
  rw [pieces, Text.splitOnChar_intercalate (fun hnil => hne (List.map_eq_nil_iff.mp hnil)) hpieces,
    List.map_map]
  exact (List.map_congr_left fun s _ => String.ofList_toList).trans (List.map_id _)

theorem pieces_slash (t : Text) : pieces ('/' :: t) = "" :: pieces t := by
  rw [pieces, Text.splitOnChar, if_pos rfl]
  rfl

/-- The parts that a path was written with are read again. -/
theorem filter_pieces_intercalate {parts : List String} (h : ∀ s ∈ parts, IsPart s) :
    (pieces (['/'].intercalate (parts.map String.toList))).filter
      (fun s => s != "" && s != ".") = parts := by
  by_cases hne : parts = []
  · rw [hne]
    rfl
  · rw [pieces_intercalate hne fun s hs => (h s hs).no_slash, List.filter_eq_self]
    intro s hs
    rw [Bool.and_eq_true, bne_iff_ne, bne_iff_ne]
    exact ⟨(h s hs).ne_empty, (h s hs).ne_dot⟩

/-- Joined parts do not start with a slash. -/
theorem intercalate_ne_slash {parts : List String} (h : ∀ s ∈ parts, IsPart s) (t : Text) :
    ['/'].intercalate (parts.map String.toList) ≠ '/' :: t := by
  intro heq
  cases parts with
  | nil => cases heq
  | cons part rest =>
    have hpart := h part List.mem_cons_self
    cases hchars : part.toList with
    | nil => exact hpart.ne_empty (String.toList_eq_nil_iff.mp hchars)
    | cons c chars =>
      have hhead : c = '/' := by
        have hfirst := congrArg List.head? heq
        rw [List.map_cons, hchars] at hfirst
        cases rest <;> simpa using hfirst
      exact hpart.no_slash (by rw [hchars, hhead]; exact List.mem_cons_self)

theorem ofString_render {p : Path} (h : p.IsRead) : ofString p.render = p := by
  by_cases hempty : p.anchor = .relative ∧ p.parts = []
  · obtain ⟨anchor, parts⟩ := p
    obtain ⟨rfl, rfl⟩ : anchor = .relative ∧ parts = [] := hempty
    decide
  obtain ⟨anchor, parts⟩ := p
  have hkeep := filter_pieces_intercalate h
  have hne := intercalate_ne_slash h
  unfold ofString
  rw [toList_render_of_ne hempty]
  dsimp only at hkeep hne ⊢
  generalize ['/'].intercalate (parts.map String.toList) = t at hkeep hne ⊢
  cases anchor with
  | relative =>
    have hanchor : anchorOf t = .relative := by
      cases t with
      | nil => rfl
      | cons c rest =>
        have hc : c ≠ '/' := fun hc => hne rest (hc ▸ rfl)
        simp [anchorOf, hc]
    show Path.mk (anchorOf t) ((pieces t).filter _) = _
    rw [hanchor, hkeep]
  | root =>
    have hanchor : anchorOf ('/' :: t) = .root := by
      cases t with
      | nil => rfl
      | cons c rest =>
        have hc : c ≠ '/' := fun hc => hne rest (hc ▸ rfl)
        simp [anchorOf, hc]
    show Path.mk (anchorOf ('/' :: t)) ((pieces ('/' :: t)).filter _) = _
    rw [hanchor, pieces_slash, List.filter_cons_of_neg (by decide), hkeep]
  | doubleRoot =>
    have hanchor : anchorOf ('/' :: '/' :: t) = .doubleRoot := by
      rw [anchorOf]
      exact hne
    show Path.mk (anchorOf ('/' :: '/' :: t)) ((pieces ('/' :: '/' :: t)).filter _) = _
    rw [hanchor, pieces_slash, pieces_slash, List.filter_cons_of_neg (by decide),
      List.filter_cons_of_neg (by decide), hkeep]

end Path

namespace Disk

/-- The names on the way that the text of an absolute path stands for are its parts. -/
theorem steps_render {parts : List String} (h : Path.Descends parts) :
    steps (Path.render ⟨.root, parts⟩) = parts := by
  unfold steps
  rw [Path.toList_render, Path.pieces_slash, List.filter_cons_of_neg (by decide)]
  by_cases hne : parts = []
  · rw [hne]
    rfl
  · rw [Path.pieces_intercalate hne fun s hs => (h s hs).1.no_slash, List.filter_eq_self]
    exact fun s hs => bne_iff_ne.mpr (h s hs).1.ne_empty

/-- The text of an absolute path is followed from the root along the parts of the path, unless it is
too long. -/
theorem locate_render (disk : Disk) (cwd : Location) {parts : List String}
    (h : Path.Descends parts) :
    disk.locate cwd (Path.render ⟨.root, parts⟩) =
      if maxNameBytes < (Path.render ⟨.root, parts⟩).utf8ByteSize then .error .nameTooLong
      else disk.walk [] parts := by
  have hname : Path.render ⟨.root, parts⟩ ≠ "" := by
    intro hempty
    have hlist := congrArg String.toList hempty
    rw [Path.toList_render] at hlist
    cases hlist
  have hstart : start cwd (Path.render ⟨.root, parts⟩) = [] := by
    rw [start, Path.toList_render, if_neg (Path.anchorOf_slash _)]
  rw [locate, locateSteps, if_neg hname, steps_render h, hstart]

/-- A relative name that is not empty has parts to follow. -/
theorem steps_ne_nil {name : String} (hname : name ≠ "")
    (hrelative : Path.anchorOf name.toList = .relative) : steps name ≠ [] := by
  cases hchars : name.toList with
  | nil => exact absurd (String.toList_eq_nil_iff.mp hchars) hname
  | cons c rest =>
    have hc : c ≠ '/' := by
      rintro rfl
      rw [hchars] at hrelative
      exact Path.anchorOf_slash rest hrelative
    obtain ⟨first, others, hsplit⟩ := Text.splitOnChar_cons_of_ne hc rest
    unfold steps Path.pieces
    rw [hchars, hsplit, List.map_cons, List.filter_cons_of_pos]
    · exact List.cons_ne_nil _ _
    · exact bne_iff_ne.mpr fun hempty => by
        have hlist := congrArg String.toList hempty
        rw [String.toList_ofList] at hlist
        cases hlist

end Disk

/-! ## 4. Common directories -/

namespace Path

theorem commonStart_prefix_left (a b : List String) : commonStart a b <+: a := by
  induction a generalizing b with
  | nil => exact List.nil_prefix
  | cons x xs ih =>
    cases b with
    | nil => exact List.nil_prefix
    | cons y ys =>
      unfold commonStart
      split
      · exact (List.cons_prefix_cons.mpr ⟨rfl, ih ys⟩)
      · exact List.nil_prefix

theorem commonStart_prefix_right (a b : List String) : commonStart a b <+: b := by
  induction a generalizing b with
  | nil => exact List.nil_prefix
  | cons x xs ih =>
    cases b with
    | nil => exact List.nil_prefix
    | cons y ys =>
      unfold commonStart
      split
      · next hxy => exact (List.cons_prefix_cons.mpr ⟨hxy, ih ys⟩)
      · exact List.nil_prefix

theorem commonStart_of_isPrefix {a b : List String} (h : a <+: b) : commonStart a b = a := by
  induction a generalizing b with
  | nil => rfl
  | cons x xs ih =>
    obtain ⟨rest, rfl⟩ := h
    rw [List.cons_append, commonStart, if_pos rfl, ih (List.prefix_append xs rest)]

theorem commonStartAll_isPrefix {lists : List (List String)} {ps : List String} (h : ps ∈ lists) :
    commonStartAll lists <+: ps := by
  induction lists with
  | nil => cases h
  | cons first rest ih =>
    cases rest with
    | nil =>
      rw [List.mem_singleton.mp h]
      exact List.prefix_rfl
    | cons second rest =>
      rcases List.mem_cons.mp h with rfl | h
      · exact commonStart_prefix_left ..
      · exact (commonStart_prefix_right ..).trans (ih h)

/-- A common beginning is the longest one. -/
theorem isPrefix_commonStart_iff {dir a b : List String} :
    dir <+: commonStart a b ↔ dir <+: a ∧ dir <+: b := by
  constructor
  · intro h
    exact ⟨h.trans (commonStart_prefix_left a b), h.trans (commonStart_prefix_right a b)⟩
  · rintro ⟨ha, hb⟩
    induction dir generalizing a b with
    | nil => exact List.nil_prefix
    | cons part rest ih =>
      obtain ⟨restA, rfl⟩ := ha
      obtain ⟨restB, rfl⟩ := hb
      rw [List.cons_append, List.cons_append, commonStart, if_pos rfl]
      exact List.cons_prefix_cons.mpr
        ⟨rfl, ih (List.prefix_append rest restA) (List.prefix_append rest restB)⟩

theorem isPrefix_commonStartAll_iff {dir : List String} {lists : List (List String)}
    (hne : lists ≠ []) : dir <+: commonStartAll lists ↔ ∀ ps ∈ lists, dir <+: ps := by
  induction lists with
  | nil => exact absurd rfl hne
  | cons first rest ih =>
    cases rest with
    | nil => rw [commonStartAll, List.forall_mem_singleton]
    | cons second rest =>
      rw [commonStartAll, isPrefix_commonStart_iff, ih (List.cons_ne_nil _ _),
        List.forall_mem_cons (a := first)]
      nofun

/-- A directory holds all of the paths exactly if it is the common directory or lies above it. -/
theorem isPrefix_commonBase_iff {cwd : Path} {paths : List Path} (hne : paths ≠ [])
    {dir : List String} : dir <+: (commonBase cwd paths).parts ↔
      ∀ p ∈ paths, dir <+: (absolute cwd p).parent.parts := by
  cases paths with
  | nil => exact absurd rfl hne
  | cons first rest =>
    rw [commonBase, isPrefix_commonStartAll_iff (by simp), List.forall_mem_map]
    nofun

theorem anchor_commonBase {cwd : Path} {paths : List Path} (hne : paths ≠ []) :
    (commonBase cwd paths).anchor = .root := by
  cases paths with
  | nil => exact absurd rfl hne
  | cons first rest => rfl

theorem isAbsolute_absolute {cwd : Path} (hcwd : cwd.isAbsolute = true) (p : Path) :
    (absolute cwd p).isAbsolute = true := by
  unfold absolute join
  split
  · next hp => exact hp
  · exact hcwd

theorem commonText?_of_isAbsolute {p q : Path} (hp : p.isAbsolute = true)
    (hq : q.isAbsolute = true) :
    commonText? p q = some (render ⟨.root, commonStart p.parts q.parts⟩) := by
  rw [commonText?, if_pos (hp.trans hq.symm), if_pos hp, render, if_neg nofun]
  rfl

theorem commonBase_isPrefix {cwd p : Path} {paths : List Path} (h : p ∈ paths) :
    (commonBase cwd paths).parts <+: (absolute cwd p).parts.dropLast := by
  cases paths with
  | nil => cases h
  | cons first rest =>
    exact commonStartAll_isPrefix (List.mem_map_of_mem h)

/-- From a common directory of several paths, the way to each of them leads down. -/
theorem relativeTo_commonBase {cwd p : Path} {paths : List Path} (hcwd : cwd.IsRead)
    (hp : p.IsRead) (h : p ∈ paths) :
    relativeTo cwd p (commonBase cwd paths) =
      ⟨.relative, (absolute cwd p).parts.drop (commonBase cwd paths).parts.length⟩ := by
  have hdown := descends_absolute hcwd hp
  have hbase : (commonBase cwd paths).parts <+: (absolute cwd p).parts :=
    (commonBase_isPrefix h).trans (List.dropLast_prefix _)
  have hanchor : (commonBase cwd paths).anchor = .root := by
    cases paths with
    | nil => cases h
    | cons => rfl
  have habsolute : (absolute cwd (commonBase cwd paths)).parts = (commonBase cwd paths).parts := by
    unfold absolute join isAbsolute
    rw [hanchor]
    exact collapse_of_descends (hdown.of_isPrefix hbase)
  unfold relativeTo
  dsimp only
  rw [habsolute, commonStart_of_isPrefix hbase, Nat.sub_self]
  rfl

end Path

end ChainGuard
