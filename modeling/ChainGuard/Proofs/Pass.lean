import ChainGuard.Pass
import ChainGuard.Proofs.Dict
import ChainGuard.Proofs.Guard
import Mathlib.Data.List.Induction

/-!
# What a pass does to the files

A pass collects the edits by file and edits every file once, so each edit meets the text it was made
for. As every edit is a guard, the files grow once for every edit that is counted, and nothing else
happens to them.

1. `Pass.judge_eq_fix`, `Pass.Batched`: where the edits of a batch come from.
2. `Files.GrowsBy`: how the texts of all files grow by a number of guards.
3. `Pass.growsBy_run`: a pass lets the files grow by its number of edits.
4. `Pass.files_run_of_one`: a pass over one file applies the edits for all its sites.
-/

namespace ChainGuard

/-! ## 1. Batches -/

namespace Pass

/-- A site is fixed by the edit that its text and its tree ask for. -/
theorem judge_eq_fix {files : Files} {trees : Dict Tree} {site : Site} {e : Edit}
    (h : judge files trees site = .fix e) :
    ∃ text tree, files.get? site.file = some text ∧ trees.get? site.file = some tree ∧
      (Source.mk text tree).fix? site.code site.offset = some e := by
  unfold judge at h
  split at h
  · cases h
  · cases h
  · next text tree htext htree =>
    split at h
    · next edit hfix =>
      cases h
      exact ⟨text, tree, htext, htree, hfix⟩
    · cases h

/-- The batches hold edits of the judged sites, each with the file of its site, no file twice. -/
structure Batched (judged : List (Site × Verdict)) (batches : Dict (List Edit)) : Prop where
  nodup : batches.keys.Nodup
  judged : ∀ name edits, batches.get? name = some edits → ∀ e ∈ edits,
    ∃ site, (site, Verdict.fix e) ∈ judged ∧ site.file = name

/-- One more edit goes to the batch of its file. -/
theorem Batched.set {judged : List (Site × Verdict)} {batches : Dict (List Edit)}
    (h : Batched judged batches) {site : Site} {edit : Edit}
    (mem : (site, Verdict.fix edit) ∈ judged) :
    Batched judged (batches.set site.file ((batches.get? site.file).getD [] ++ [edit])) where
  nodup := Dict.nodup_keys_set h.nodup
  judged := by
    intro name edits hget e he
    by_cases hname : name = site.file
    · subst hname
      rw [Dict.get?_set_self] at hget
      cases hget
      rcases List.mem_append.mp he with he | he
      · cases hold : batches.get? site.file with
        | none => simp [hold] at he
        | some old => exact h.judged _ old hold e (by simpa [hold] using he)
      · rw [List.mem_singleton] at he
        exact ⟨site, he ▸ mem, rfl⟩
    · rw [Dict.get?_set_of_ne hname] at hget
      exact h.judged name edits hget e he

theorem batched_batches (judged : List (Site × Verdict)) : Batched judged (batches judged) := by
  unfold batches
  refine List.foldlRecOn judged _ ⟨List.nodup_nil, fun _ _ h => nomatch h⟩ ?_
  rintro acc hacc ⟨site, verdict⟩ mem
  cases verdict with
  | unknownFile => exact hacc
  | leftAlone => exact hacc
  | fix edit => exact hacc.set mem

end Pass

/-! ## 2. Growing files -/

namespace Files

/-- The files `after` are the files `before`, in the same order, with texts that grew `n` times
altogether. -/
inductive GrowsBy : Nat → Files → Files → Prop
  | nil : GrowsBy 0 [] []
  | cons {m n : Nat} {name : String} {old new : Text} {before after : Files} :
      Text.GrowsBy m old new → GrowsBy n before after →
      GrowsBy (m + n) ((name, old) :: before) ((name, new) :: after)

namespace GrowsBy

theorem refl (files : Files) : GrowsBy 0 files files := by
  induction files with
  | nil => exact .nil
  | cons file rest ih => exact .cons (Text.GrowsBy.refl file.2) ih

theorem trans {m n : Nat} {a b c : Files} (hab : GrowsBy m a b) (hbc : GrowsBy n b c) :
    GrowsBy (m + n) a c := by
  induction hab generalizing n c with
  | nil =>
    cases hbc
    exact .nil
  | @cons m₁ m₂ name old new before after htext _ ih =>
    cases hbc with
    | @cons n₁ n₂ _ _ newer _ last htext' hrest' =>
      have hsum : m₁ + m₂ + (n₁ + n₂) = m₁ + n₁ + (m₂ + n₂) := by omega
      rw [hsum]
      exact .cons (htext.trans htext') (ih hrest')

theorem set {n : Nat} {files : Files} {name : String} {old new : Text}
    (h : files.get? name = some old) (hgrow : Text.GrowsBy n old new) :
    GrowsBy n files (Dict.set files name new) := by
  induction files with
  | nil => simp at h
  | cons file rest ih =>
    obtain ⟨k, v⟩ := file
    rw [Dict.get?_cons] at h
    rw [Dict.set]
    split at h
    · next hk =>
      cases h
      rw [if_pos hk.symm]
      exact .cons hgrow (refl rest)
    · next hk =>
      rw [if_neg (Ne.symm hk), ← Nat.zero_add n]
      exact .cons (Text.GrowsBy.refl v) (ih h)

theorem keys_eq {n : Nat} {before after : Files} (h : GrowsBy n before after) :
    Dict.keys after = Dict.keys before := by
  induction h with
  | nil => rfl
  | cons _ _ ih => rw [Dict.keys_cons, Dict.keys_cons, ih]

theorem get? {n : Nat} {before after : Files} (h : GrowsBy n before after) {name : String}
    {old : Text} (hold : Dict.get? before name = some old) :
    ∃ k new, Dict.get? after name = some new ∧ Text.GrowsBy k old new := by
  induction h with
  | nil => simp at hold
  | @cons k _ key _ new _ _ htext _ ih =>
    rw [Dict.get?_cons] at hold ⊢
    split at hold
    · next hk =>
      cases hold
      exact ⟨k, new, if_pos hk, htext⟩
    · next hk =>
      rw [if_neg hk]
      exact ih hold

end GrowsBy

end Files

/-! ## 3. Editing -/

namespace Pass

theorem editFile_get?_of_ne {acc : Edited} {name other : String} {edits : List Edit}
    (h : other ≠ name) : (editFile acc name edits).files.get? other = acc.files.get? other := by
  unfold editFile
  split
  · rfl
  · dsimp only
    split
    · rfl
    · exact Dict.get?_set_of_ne h

/-- Guards on one file add their number to the growth. -/
theorem growsBy_editFile {files : Files} {acc : Edited} {name : String} {edits : List Edit}
    (grown : Files.GrowsBy acc.edits files acc.files)
    (guards : ∀ text, acc.files.get? name = some text → ∀ e ∈ edits, e.IsGuard text) :
    Files.GrowsBy (editFile acc name edits).edits files (editFile acc name edits).files := by
  unfold editFile
  split
  · exact grown
  · next before hbefore =>
    dsimp only
    split
    · exact grown
    · exact grown.trans (Files.GrowsBy.set hbefore
        (Edit.growsBy_applyAll fun e he => guards before hbefore e (Edit.mem_distinct.mp he)))

/-- The files grow with every batch. The batches to come are for files that are still as they were
at first, which is what their edits were made for. -/
theorem growsBy_foldl_editFile {files : Files} {batches : Dict (List Edit)} {acc : Edited}
    (nodup : batches.keys.Nodup)
    (guards : ∀ name edits, (name, edits) ∈ batches → ∀ text, files.get? name = some text →
      ∀ e ∈ edits, e.IsGuard text)
    (untouched : ∀ name ∈ batches.keys, acc.files.get? name = files.get? name)
    (grown : Files.GrowsBy acc.edits files acc.files) :
    Files.GrowsBy (batches.foldl (fun acc entry => editFile acc entry.1 entry.2) acc).edits files
      (batches.foldl (fun acc entry => editFile acc entry.1 entry.2) acc).files := by
  induction batches generalizing acc with
  | nil => exact grown
  | cons entry rest ih =>
    obtain ⟨name, edits⟩ := entry
    rw [Dict.keys_cons, List.nodup_cons] at nodup
    rw [List.foldl_cons]
    apply ih nodup.2 (fun n es h => guards n es (List.mem_cons_of_mem _ h))
    · intro other hother
      have hne : other ≠ name := fun h => nodup.1 (h ▸ hother)
      rw [editFile_get?_of_ne hne]
      exact untouched other (List.mem_cons_of_mem _ hother)
    · apply growsBy_editFile grown
      intro text htext
      rw [untouched name List.mem_cons_self] at htext
      exact guards name edits List.mem_cons_self text htext

/-- A pass over any sites, with any trees, lets the files grow by the number of its edits. -/
theorem growsBy_run (number : Nat) (files : Files) (trees : Dict Tree) (sites : List Site) :
    Files.GrowsBy (run number files trees sites).report.editsApplied files
      (run number files trees sites).files := by
  have batched := batched_batches (sites.map fun site => (site, judge files trees site))
  refine growsBy_foldl_editFile batched.nodup ?_ (fun _ _ => rfl) (Files.GrowsBy.refl files)
  intro name edits mem text htext e he
  obtain ⟨site, hsite, rfl⟩ := batched.judged name edits (Dict.get?_of_mem batched.nodup mem) e he
  obtain ⟨site', _, heq⟩ := List.mem_map.mp hsite
  obtain ⟨rfl, hjudge⟩ := Prod.mk.inj heq
  obtain ⟨text', tree, htext', _, hfix⟩ := judge_eq_fix hjudge
  have hsame : text' = text := Option.some.inj (htext'.symm.trans htext)
  subst hsame
  exact Source.fix?_isGuard hfix

/-! ## 4. Passes over one file -/

/-- The batches when all edits are for one file. -/
def batchFor (name : String) : List Edit → Dict (List Edit)
  | [] => []
  | es => [(name, es)]

theorem batchFor_append (name : String) (es : List Edit) (e : Edit) :
    (batchFor name es).set name (((batchFor name es).get? name).getD [] ++ [e]) =
      batchFor name (es ++ [e]) := by
  cases es with
  | nil => rfl
  | cons d ds => simp [batchFor, Dict.set, Dict.get?]

theorem batches_concat_fix (judged : List (Site × Verdict)) (site : Site) (e : Edit) :
    batches (judged ++ [(site, .fix e)]) = (batches judged).set site.file
      (((batches judged).get? site.file).getD [] ++ [e]) :=
  List.foldl_append

theorem batches_concat_leftAlone (judged : List (Site × Verdict)) (site : Site) :
    batches (judged ++ [(site, .leftAlone)]) = batches judged :=
  List.foldl_append

theorem judge_of_one {name : String} {text : Text} {tree : Tree} {site : Site}
    (hfile : site.file = name) :
    judge [(name, text)] [(name, tree)] site =
      ((Source.mk text tree).fix? site.code site.offset).elim .leftAlone .fix := by
  rewrite [judge, hfile, Dict.get?_cons, Dict.get?_cons, if_pos rfl, if_pos rfl]
  cases hfix : (Source.mk text tree).fix? site.code site.offset <;> simp [hfix]

/-- The edits of a pass over one file are those for its sites, in their order. -/
theorem batches_of_one {name : String} {text : Text} {tree : Tree} {sites : List Site}
    (hsites : ∀ s ∈ sites, s.file = name) :
    batches (sites.map fun s => (s, judge [(name, text)] [(name, tree)] s)) =
      batchFor name (sites.filterMap fun s => (Source.mk text tree).fix? s.code s.offset) := by
  induction sites using List.reverseRecOn with
  | nil => rfl
  | append_singleton sites site ih =>
    have hrest := ih fun s hs => hsites s (List.mem_append_left _ hs)
    have hfile := hsites site (List.mem_append_right _ List.mem_cons_self)
    rw [List.map_append, List.map_singleton, judge_of_one hfile, List.filterMap_append]
    cases hfix : (Source.mk text tree).fix? site.code site.offset with
    | none =>
      rw [Option.elim_none, batches_concat_leftAlone, hrest]
      simp [hfix]
    | some e =>
      rw [Option.elim_some, batches_concat_fix, hrest, hfile, batchFor_append]
      simp [hfix]

/-- A pass over one file applies the edits for its sites. -/
theorem files_run_of_one {number : Nat} {name : String} {text : Text} {tree : Tree}
    {sites : List Site} (hsites : ∀ s ∈ sites, s.file = name) :
    (run number [(name, text)] [(name, tree)] sites).files =
      [(name, Edit.applyAll text (Edit.distinct
        (sites.filterMap fun s => (Source.mk text tree).fix? s.code s.offset)))] := by
  show (editFiles _ (batches _)).files = _
  rw [batches_of_one hsites]
  cases sites.filterMap fun s => (Source.mk text tree).fix? s.code s.offset with
  | nil =>
    rw [Edit.distinct, List.eraseDups_nil, Edit.applyAll, Edit.rightToLeft, List.mergeSort_nil]
    rfl
  | cons e es =>
    show (editFile ⟨[(name, text)], 0, []⟩ name (e :: es)).files = _
    unfold editFile
    rw [Dict.get?_cons, if_pos rfl]
    dsimp only
    split
    · next hsame => rw [hsame]
    · rw [Dict.set, if_pos rfl]

end Pass

end ChainGuard
