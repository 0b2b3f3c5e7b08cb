import ChainGuard.Proofs.Pass
import Mathlib

/-!
# What a pass amounts to

A pass goes through the sites one after the other, collects the edits by file and edits file by
file. What comes out can be said without this order: the edits that the sites ask for, for every
file the edits asked for it, and every such file with its edits applied.

1. `Pass.asked`: the edits that sites ask for, with their files.
   `Pass.batches_eq`: the batches hold them by file.
2. `Pass.editFiles_eq`: every batch changes its file, and counts.
3. `Pass.files_run`, `Pass.filesChanged_run`: a pass in terms of the edits asked for.
   `Pass.skipped_run`: every site is skipped or asks for an edit.
4. `Pass.editsApplied_eq_card`: the number of edits is that of different edits with their files.
   `Pass.mem_filesChanged`: the files that changed are those whose text did.
-/

namespace ChainGuard.Pass

/-! ## 1. The edits asked for -/

/-- The edit that a site asks for, if its file is known and parsed. -/
def edit? (files : Files) (trees : Dict Tree) (site : Site) : Option Edit :=
  (files.get? site.file).bind fun text => (trees.get? site.file).bind fun tree =>
    (Source.mk text tree).fix? site.code site.offset

/-- The edits that sites ask for, with their files, in the order of the sites. -/
def asked (files : Files) (trees : Dict Tree) (sites : List Site) : List (String × Edit) :=
  sites.filterMap fun site => (edit? files trees site).map (Prod.mk site.file)

def editsOf (name : String) (pairs : List (String × Edit)) : List Edit :=
  (pairs.filter fun pair => pair.1 = name).map Prod.snd

/-- The edits by file, the files in the order of their first edits. -/
def grouped (pairs : List (String × Edit)) : Dict (List Edit) :=
  pairs.foldl (fun acc pair => acc.set pair.1 ((acc.get? pair.1).getD [] ++ [pair.2])) []

theorem judge_eq_fix_iff {files : Files} {trees : Dict Tree} {site : Site} {e : Edit} :
    judge files trees site = .fix e ↔ edit? files trees site = some e := by
  constructor
  · intro h
    obtain ⟨text, tree, htext, htree, hfix⟩ := judge_eq_fix h
    rw [edit?, htext, Option.bind_some, htree, Option.bind_some, hfix]
  · intro h
    obtain ⟨text, htext, h⟩ := Option.bind_eq_some_iff.mp h
    obtain ⟨tree, htree, hfix⟩ := Option.bind_eq_some_iff.mp h
    simp only [judge, htext, htree, hfix]

theorem judge_ne_fix {files : Files} {trees : Dict Tree} {site : Site}
    (h : edit? files trees site = none) (e : Edit) : judge files trees site ≠ .fix e := by
  intro hfix
  cases h.symm.trans (judge_eq_fix_iff.mp hfix)

theorem batches_eq (files : Files) (trees : Dict Tree) (sites : List Site) :
    batches (sites.map fun site => (site, judge files trees site)) =
      grouped (asked files trees sites) := by
  unfold batches grouped asked
  rw [List.foldl_map, List.foldl_filterMap]
  congr 1
  funext acc site
  cases hedit : edit? files trees site with
  | some e => rw [judge_eq_fix_iff.mpr hedit]; rfl
  | none =>
    have hother := judge_ne_fix hedit
    split
    · next e hfix => exact absurd hfix (hother e)
    · rfl

/-! ### Groups -/

theorem grouped_concat (pairs : List (String × Edit)) (pair : String × Edit) :
    grouped (pairs ++ [pair]) = (grouped pairs).set pair.1
      (((grouped pairs).get? pair.1).getD [] ++ [pair.2]) :=
  List.foldl_concat _ _ _ _

theorem editsOf_concat (name : String) (pairs : List (String × Edit)) (pair : String × Edit) :
    editsOf name (pairs ++ [pair]) =
      editsOf name pairs ++ if pair.1 = name then [pair.2] else [] := by
  unfold editsOf
  rw [List.filter_append, List.map_append]
  by_cases h : pair.1 = name
  · simp [h]
  · simp [h]

theorem getD_grouped (pairs : List (String × Edit)) (name : String) :
    ((grouped pairs).get? name).getD [] = editsOf name pairs := by
  induction pairs using List.reverseRecOn with
  | nil => rfl
  | append_singleton pairs pair ih =>
    rw [grouped_concat, editsOf_concat]
    by_cases h : pair.1 = name
    · subst h
      rw [Dict.get?_set_self, if_pos rfl, ih]
      rfl
    · rw [Dict.get?_set_of_ne (Ne.symm h), if_neg h, List.append_nil, ih]

theorem nodup_keys_grouped (pairs : List (String × Edit)) : (grouped pairs).keys.Nodup := by
  induction pairs using List.reverseRecOn with
  | nil => exact List.nodup_nil
  | append_singleton pairs pair ih =>
    rw [grouped_concat]
    exact Dict.nodup_keys_set ih

theorem mem_keys_grouped {pairs : List (String × Edit)} {name : String} :
    name ∈ (grouped pairs).keys ↔ name ∈ pairs.map Prod.fst := by
  induction pairs using List.reverseRecOn with
  | nil => exact Iff.rfl
  | append_singleton pairs pair ih =>
    rw [grouped_concat, Dict.mem_keys_set, ih, List.map_append, List.mem_append,
      List.map_singleton, List.mem_singleton]

theorem mem_editsOf {name : String} {pairs : List (String × Edit)} {e : Edit} :
    e ∈ editsOf name pairs ↔ (name, e) ∈ pairs := by
  unfold editsOf
  rw [List.mem_map]
  constructor
  · rintro ⟨⟨file, edit⟩, hpair, rfl⟩
    obtain ⟨hmem, hfile⟩ := List.mem_filter.mp hpair
    cases of_decide_eq_true hfile
    exact hmem
  · intro hmem
    exact ⟨(name, e), List.mem_filter.mpr ⟨hmem, decide_eq_true rfl⟩, rfl⟩

/-- A batch holds the edits for its file. -/
theorem grouped_entry {pairs : List (String × Edit)} {name : String} {edits : List Edit}
    (h : (name, edits) ∈ grouped pairs) : edits = editsOf name pairs := by
  rw [← getD_grouped, Dict.get?_of_mem (nodup_keys_grouped pairs) h]
  rfl

/-! ## 2. Editing -/

/-- The text of a file with its edits, each of them once. -/
def edited (files : Files) (name : String) (edits : List Edit) : Text :=
  Edit.applyAll ((files.get? name).getD []) (Edit.distinct edits)

/-- The batch is one of guards for the text of a known file, and not empty. -/
def IsBatch (files : Files) (name : String) (edits : List Edit) : Prop :=
  edits ≠ [] ∧ ∃ text, files.get? name = some text ∧ ∀ e ∈ edits, e.IsGuard text

theorem distinct_ne_nil {edits : List Edit} (h : edits ≠ []) : Edit.distinct edits ≠ [] := by
  obtain ⟨e, he⟩ := List.exists_mem_of_ne_nil edits h
  exact List.ne_nil_of_mem (Edit.mem_distinct.mpr he)

theorem IsBatch.edited_ne {files : Files} {name : String} {edits : List Edit}
    (h : IsBatch files name edits) : files.get? name ≠ some (edited files name edits) := by
  obtain ⟨hne, text, htext, hguards⟩ := h
  have hgrows : Text.GrowsBy (Edit.distinct edits).length text (edited files name edits) := by
    rw [edited, htext]
    exact Edit.growsBy_applyAll fun e he => hguards e (Edit.mem_distinct.mp he)
  have hpos := List.length_pos_of_ne_nil (distinct_ne_nil hne)
  have hlonger := hgrows.length_lower
  intro heq
  rw [htext, Option.some.injEq] at heq
  rw [← heq] at hlonger
  omega

theorem editFile_eq {files : Files} {acc : Edited} {name : String} {edits : List Edit}
    (h : IsBatch files name edits) (hsame : acc.files.get? name = files.get? name) :
    editFile acc name edits = ⟨acc.files.replace name (edited files name edits),
      acc.edits + (Edit.distinct edits).length, acc.changed ++ [name]⟩ := by
  have hchanged := h.edited_ne
  obtain ⟨-, text, htext, -⟩ := h
  have hacc := hsame.trans htext
  have hedited : Edit.applyAll text (Edit.distinct edits) = edited files name edits := by
    rw [edited, htext]
    rfl
  simp only [editFile, hacc, hedited]
  rw [if_neg, Dict.set_eq_replace (Dict.mem_keys_of_get? hacc)]
  rintro rfl
  exact hchanged htext

/-- All batches, one after the other. Each is for a file that no other batch touches. So each still
meets the text that its edits were made for. -/
theorem foldl_editFile (files : Files) (acc : Edited) {names : List String}
    {edits : String → List Edit} (nodup : names.Nodup)
    (hbatches : ∀ name ∈ names, IsBatch files name (edits name))
    (hsame : ∀ name ∈ names, acc.files.get? name = files.get? name) :
    names.foldl (fun acc name => editFile acc name (edits name)) acc =
      ⟨names.foldl (fun out name => out.replace name (edited files name (edits name))) acc.files,
        acc.edits + (names.map fun name => (Edit.distinct (edits name)).length).sum,
        acc.changed ++ names⟩ := by
  induction names generalizing acc with
  | nil => rw [List.append_nil]; rfl
  | cons name rest ih =>
    rw [List.nodup_cons] at nodup
    rw [List.foldl_cons, editFile_eq (hbatches name List.mem_cons_self)
      (hsame name List.mem_cons_self), ih _ nodup.2
      fun other hother => hbatches other (List.mem_cons_of_mem _ hother)]
    · simp only [List.foldl_cons, List.map_cons, List.sum_cons, Nat.add_assoc, List.append_assoc,
        List.singleton_append]
    · intro other hother
      have hne : other ≠ name := fun heq => nodup.1 (heq ▸ hother)
      rw [Dict.get?_replace, if_neg hne]
      exact hsame other (List.mem_cons_of_mem _ hother)

/-! ## 3. A pass in terms of the edits asked for -/

theorem mem_asked {files : Files} {trees : Dict Tree} {sites : List Site} {name : String}
    {e : Edit} : (name, e) ∈ asked files trees sites ↔
      ∃ site ∈ sites, site.file = name ∧ edit? files trees site = some e := by
  unfold asked
  rw [List.mem_filterMap]
  refine exists_congr fun site => and_congr_right fun _ => ?_
  rw [Option.map_eq_some_iff]
  constructor
  · rintro ⟨edit, hedit, heq⟩
    cases heq
    exact ⟨rfl, hedit⟩
  · rintro ⟨rfl, hedit⟩
    exact ⟨e, hedit, rfl⟩

theorem edit?_isGuard {files : Files} {trees : Dict Tree} {site : Site} {e : Edit}
    (h : edit? files trees site = some e) :
    ∃ text, files.get? site.file = some text ∧ e.IsGuard text := by
  obtain ⟨text, htext, h⟩ := Option.bind_eq_some_iff.mp h
  obtain ⟨tree, -, hfix⟩ := Option.bind_eq_some_iff.mp h
  exact ⟨text, htext, Source.fix?_isGuard hfix⟩

section

variable (number : Nat) (files : Files) (trees : Dict Tree) (sites : List Site)

/-- The files that get edits, in the order of their first ones. -/
def editedNames : List String :=
  (grouped (asked files trees sites)).keys

def editsFor (name : String) : List Edit :=
  editsOf name (asked files trees sites)

theorem nodup_editedNames : (editedNames files trees sites).Nodup :=
  nodup_keys_grouped _

variable {files trees sites}

theorem mem_editedNames {name : String} :
    name ∈ editedNames files trees sites ↔ ∃ e, (name, e) ∈ asked files trees sites := by
  unfold editedNames
  rw [mem_keys_grouped, List.mem_map]
  constructor
  · rintro ⟨⟨_, e⟩, hpair, rfl⟩
    exact ⟨e, hpair⟩
  · rintro ⟨e, hpair⟩
    exact ⟨(name, e), hpair, rfl⟩

/-- Files that get edits get a batch of guards. -/
theorem isBatch_editsFor {name : String} (h : name ∈ editedNames files trees sites) :
    IsBatch files name (editsFor files trees sites name) := by
  obtain ⟨e, hpair⟩ := mem_editedNames.mp h
  refine ⟨List.ne_nil_of_mem (mem_editsOf.mpr hpair), ?_⟩
  obtain ⟨site, -, rfl, hedit⟩ := mem_asked.mp hpair
  obtain ⟨text, htext, -⟩ := edit?_isGuard hedit
  refine ⟨text, htext, fun e he => ?_⟩
  obtain ⟨site', -, hfile, hedit⟩ := mem_asked.mp (mem_editsOf.mp he)
  obtain ⟨text', htext', hguard⟩ := edit?_isGuard hedit
  rw [hfile, htext, Option.some.injEq] at htext'
  exact htext' ▸ hguard

theorem batches_eq_map (files : Files) (trees : Dict Tree) (sites : List Site) :
    grouped (asked files trees sites) = (editedNames files trees sites).map
      fun name => (name, editsFor files trees sites name) := by
  unfold editedNames Dict.keys
  rw [List.map_map]
  conv_lhs => rw [← List.map_id (grouped (asked files trees sites))]
  refine List.map_congr_left fun entry hentry => ?_
  obtain ⟨name, edits⟩ := entry
  exact congrArg (Prod.mk name) (grouped_entry hentry)

/-- Every file that gets edits is replaced by its text with these edits. -/
theorem editFiles_eq (files : Files) (trees : Dict Tree) (sites : List Site) :
    editFiles files (batches (sites.map fun site => (site, judge files trees site))) =
      ⟨(editedNames files trees sites).foldl (fun out name =>
          out.replace name (edited files name (editsFor files trees sites name))) files,
        ((editedNames files trees sites).map fun name =>
          (Edit.distinct (editsFor files trees sites name)).length).sum,
        editedNames files trees sites⟩ := by
  rw [editFiles, batches_eq, batches_eq_map, List.foldl_map]
  have hall := foldl_editFile files ⟨files, 0, []⟩ (nodup_editedNames files trees sites)
    (fun _ => isBatch_editsFor) fun _ _ => rfl
  rw [Nat.zero_add, List.nil_append] at hall
  exact hall

theorem files_run : (run number files trees sites).files =
    (editedNames files trees sites).foldl (fun out name =>
      out.replace name (edited files name (editsFor files trees sites name))) files :=
  congrArg Edited.files (editFiles_eq files trees sites)

theorem editsApplied_run : (run number files trees sites).report.editsApplied =
    ((editedNames files trees sites).map fun name =>
      (Edit.distinct (editsFor files trees sites name)).length).sum :=
  congrArg Edited.edits (editFiles_eq files trees sites)

theorem filesChanged_run : (run number files trees sites).report.filesChanged =
    editedNames files trees sites :=
  congrArg Edited.changed (editFiles_eq files trees sites)

theorem skipped_run (files : Files) (trees : Dict Tree) (sites : List Site) :
    (run number files trees sites).report.skipped + (asked files trees sites).length =
      sites.length := by
  unfold run asked
  dsimp only
  induction sites with
  | nil => rfl
  | cons site rest ih =>
    rw [List.map_cons, List.length_cons, ← ih]
    cases hedit : edit? files trees site with
    | some e =>
      rw [judge_eq_fix_iff.mpr hedit, List.filter_cons_of_neg (by simp),
        List.filterMap_cons_some (by rw [hedit]; rfl), List.length_cons]
      omega
    | none =>
      rw [List.filter_cons_of_pos, List.filterMap_cons_none (by rw [hedit]; rfl), List.length_cons]
      · omega
      · dsimp only
        split
        · next e hfix => exact absurd hfix (judge_ne_fix hedit e)
        · rfl

end

/-! ## 4. Counting -/

theorem length_distinct (edits : List Edit) :
    (Edit.distinct edits).length = edits.toFinset.card := by
  have hsame : (Edit.distinct edits).toFinset = edits.toFinset := by
    ext e
    rw [List.mem_toFinset, List.mem_toFinset, Edit.mem_distinct]
  rw [← hsame, List.toFinset_card_of_nodup (Edit.nodup_distinct edits)]

/-- The edits for a file are as many as the pairs with that file. -/
theorem card_editsOf (name : String) (pairs : List (String × Edit)) :
    (pairs.toFinset.filter fun pair => pair.1 = name).card =
      (editsOf name pairs).toFinset.card := by
  have himage : pairs.toFinset.filter (fun pair => pair.1 = name) =
      (editsOf name pairs).toFinset.image (Prod.mk name) := by
    ext ⟨file, e⟩
    rw [Finset.mem_filter, List.mem_toFinset, Finset.mem_image]
    constructor
    · rintro ⟨hpair, rfl⟩
      exact ⟨e, List.mem_toFinset.mpr (mem_editsOf.mpr hpair), rfl⟩
    · rintro ⟨e', he', heq⟩
      cases heq
      exact ⟨mem_editsOf.mp (List.mem_toFinset.mp he'), rfl⟩
  rw [himage, Finset.card_image_of_injective _ (Prod.mk_right_injective name)]

/-- A pass applies as many edits as there are different edits with their files. Both are counted
file by file. -/
theorem editsApplied_eq_card (number : Nat) (files : Files) (trees : Dict Tree)
    (sites : List Site) :
    (run number files trees sites).report.editsApplied =
      (asked files trees sites).toFinset.card := by
  have hnames : ∀ pair ∈ (asked files trees sites).toFinset,
      pair.1 ∈ (editedNames files trees sites).toFinset := by
    rintro ⟨name, e⟩ hpair
    exact List.mem_toFinset.mpr (mem_editedNames.mpr ⟨e, List.mem_toFinset.mp hpair⟩)
  rw [editsApplied_run, Finset.card_eq_sum_card_fiberwise hnames,
    List.sum_toFinset _ (nodup_editedNames files trees sites)]
  refine congrArg List.sum (List.map_congr_left fun name _ => ?_)
  rw [card_editsOf, length_distinct]
  rfl

theorem editsApplied_eq_zero_iff {number : Nat} {files : Files} {trees : Dict Tree}
    {sites : List Site} :
    (run number files trees sites).report.editsApplied = 0 ↔ asked files trees sites = [] := by
  rw [editsApplied_eq_card, Finset.card_eq_zero, List.toFinset_eq_empty_iff]

theorem filesChanged_eq_nil_iff {number : Nat} {files : Files} {trees : Dict Tree}
    {sites : List Site} :
    (run number files trees sites).report.filesChanged = [] ↔ asked files trees sites = [] := by
  rw [filesChanged_run, List.eq_nil_iff_forall_not_mem, List.eq_nil_iff_forall_not_mem]
  constructor
  · rintro hnames ⟨name, e⟩ hpair
    exact hnames name (mem_editedNames.mpr ⟨e, hpair⟩)
  · intro hasked name hname
    obtain ⟨e, hpair⟩ := mem_editedNames.mp hname
    exact hasked _ hpair

theorem get?_foldl_replace (texts : String → Text) (names : List String) (files : Files)
    (name : String) :
    (names.foldl (fun out other => out.replace other (texts other)) files).get? name =
      if name ∈ names then (files.get? name).map fun _ => texts name else files.get? name := by
  induction names generalizing files with
  | nil => rw [if_neg List.not_mem_nil]; rfl
  | cons first rest ih =>
    rw [List.foldl_cons, ih, Dict.get?_replace]
    by_cases hfirst : name = first
    · subst hfirst
      rw [if_pos rfl, if_pos List.mem_cons_self]
      split
      · rw [Option.map_map]
        rfl
      · rfl
    · rw [if_neg hfirst]
      simp only [List.mem_cons, hfirst, false_or]

/-- The files that changed are those whose text did. -/
theorem mem_filesChanged (number : Nat) (files : Files) (trees : Dict Tree) (sites : List Site)
    (name : String) : name ∈ (run number files trees sites).report.filesChanged ↔
      (run number files trees sites).files.get? name ≠ files.get? name := by
  rw [filesChanged_run, files_run, get?_foldl_replace]
  by_cases hname : name ∈ editedNames files trees sites
  · have hbatch := isBatch_editsFor hname
    have hchanged := hbatch.edited_ne
    obtain ⟨-, text, htext, -⟩ := hbatch
    rw [if_pos hname, htext, Option.map_some]
    rw [htext] at hchanged
    exact iff_of_true hname hchanged.symm
  · rw [if_neg hname]
    exact iff_of_false hname fun h => h rfl

end ChainGuard.Pass
