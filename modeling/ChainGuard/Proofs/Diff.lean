import ChainGuard.Diff
import ChainGuard.Proofs.Diff.Matching

/-!
# Scripts of a difference

A script goes through the old sequence and says of every element whether it is kept or removed, and
where new elements are added. The runs of two sequences are such a script from the old one to the
new one. The hunks are cut out of it: between them everything is kept.

1. `Diff.Script`: scripts, with the old and the new sequence.
2. `Diff.olds_runs`, `Diff.news_runs`: the runs lead from the old sequence to the new one.
3. `Diff.Tiles`, `Diff.tiles_hunks`: the hunks lie in the script.
4. `Diff.hunks_eq_nil_iff`: there are no hunks exactly for equal sequences.
-/

namespace ChainGuard.Diff

variable {α : Type}

/-! ## 1. Scripts -/

/-- What becomes of an element. -/
inductive Mark where
  | keep
  | remove
  | add
  deriving DecidableEq, Repr

/-- The elements of two sequences in one order, with what becomes of them. -/
abbrev Script (α : Type) := List (Mark × α)

namespace Script

/-- The old sequence: what is kept or removed. -/
def olds (s : Script α) : List α :=
  s.filterMap fun step => if step.1 = .add then none else some step.2

/-- The new sequence: what is kept or added. -/
def news (s : Script α) : List α :=
  s.filterMap fun step => if step.1 = .remove then none else some step.2

def kept (items : List α) : Script α :=
  items.map (Mark.keep, ·)

theorem olds_append (s t : Script α) : olds (s ++ t) = olds s ++ olds t :=
  List.filterMap_append

theorem news_append (s t : Script α) : news (s ++ t) = news s ++ news t :=
  List.filterMap_append

theorem kept_append (items others : List α) : kept (items ++ others) = kept items ++ kept others :=
  List.map_append

theorem olds_kept (items : List α) : olds (kept items) = items := by
  rw [olds, kept, List.filterMap_map]
  exact List.filterMap_some

theorem news_kept (items : List α) : news (kept items) = items := by
  rw [news, kept, List.filterMap_map]
  exact List.filterMap_some

end Script

open Script (olds news kept)

/-- The script of a run: what is removed comes before what is added. -/
def Run.script : Run α → Script α
  | same items => kept items
  | change old new => old.map (Mark.remove, ·) ++ new.map (Mark.add, ·)

/-- The script of several runs. -/
def scriptOf (rs : List (Run α)) : Script α :=
  rs.flatMap Run.script

theorem scriptOf_cons (r : Run α) (rs : List (Run α)) :
    scriptOf (r :: rs) = r.script ++ scriptOf rs :=
  rfl

theorem scriptOf_append (rs more : List (Run α)) :
    scriptOf (rs ++ more) = scriptOf rs ++ scriptOf more :=
  List.flatMap_append

theorem scriptOf_singleton (r : Run α) : scriptOf [r] = r.script :=
  List.flatMap_singleton _ _

theorem olds_script (r : Run α) : olds r.script = r.old := by
  cases r with
  | same items => exact Script.olds_kept items
  | change old new =>
    rw [Run.script, Script.olds_append, olds, olds, List.filterMap_map, List.filterMap_map]
    show List.filterMap some old ++ List.filterMap (fun _ => none) new = old
    rw [List.filterMap_some, List.filterMap_eq_nil_iff.mpr fun _ _ => rfl, List.append_nil]

theorem news_script (r : Run α) : news r.script = r.new := by
  cases r with
  | same items => exact Script.news_kept items
  | change old new =>
    rw [Run.script, Script.news_append, news, news, List.filterMap_map, List.filterMap_map]
    show List.filterMap (fun _ => none) old ++ List.filterMap some new = new
    rw [List.filterMap_some, List.filterMap_eq_nil_iff.mpr fun _ _ => rfl, List.nil_append]

theorem olds_scriptOf (rs : List (Run α)) : olds (scriptOf rs) = rs.flatMap Run.old := by
  induction rs with
  | nil => rfl
  | cons r rs ih => rw [scriptOf_cons, Script.olds_append, olds_script, ih, List.flatMap_cons]

theorem news_scriptOf (rs : List (Run α)) : news (scriptOf rs) = rs.flatMap Run.new := by
  induction rs with
  | nil => rfl
  | cons r rs ih => rw [scriptOf_cons, Script.news_append, news_script, ih, List.flatMap_cons]

/-! ## 2. Runs -/

theorem between_append {xs : List α} {low high : Nat} (h : low ≤ high) :
    between xs low high ++ xs.drop high = xs.drop low := by
  have hsplit := List.take_append_drop (high - low) (xs.drop low)
  rwa [List.drop_drop, Nat.add_sub_cancel' h, ← List.drop_take] at hsplit

theorem flatMap_changeOf_old (old new : List α) : (changeOf old new).flatMap Run.old = old := by
  unfold changeOf
  split
  · next hempty =>
    rw [Bool.and_eq_true, List.isEmpty_iff, List.isEmpty_iff] at hempty
    rw [hempty.1]
    rfl
  · exact List.flatMap_singleton _ _

theorem flatMap_changeOf_new (old new : List α) : (changeOf old new).flatMap Run.new = new := by
  unfold changeOf
  split
  · next hempty =>
    rw [Bool.and_eq_true, List.isEmpty_iff, List.isEmpty_iff] at hempty
    rw [hempty.2]
    rfl
  · exact List.flatMap_singleton _ _

/-- A common block holds the same elements in both sequences. -/
theorem between_eq_of_isCommon {old new : List α} {b : Block} (h : b.IsCommon old new) :
    between old b.old (b.old + b.size) = between new b.new (b.new + b.size) := by
  refine List.ext_getElem? fun k => ?_
  rw [between, between, List.getElem?_drop, List.getElem?_drop, List.getElem?_take,
    List.getElem?_take]
  by_cases hk : k < b.size
  · rw [if_pos (Nat.add_lt_add_left hk _), if_pos (Nat.add_lt_add_left hk _), h.equal k hk]
  · rw [if_neg (by omega), if_neg (by omega)]

theorem flatMap_runsFrom_old {old new : List α} {i j : Nat} {blocks : List Block}
    (h : Block.Ascend old new old.length new.length i j blocks) :
    (runsFrom old new i j blocks).flatMap Run.old = old.drop i := by
  induction h with
  | nil => exact flatMap_changeOf_old _ _
  | cons hi _ _ _ ih =>
    rw [runsFrom, List.flatMap_append, List.flatMap_cons, flatMap_changeOf_old, ih]
    show _ ++ (between old _ _ ++ _) = _
    rw [between_append (Nat.le_add_right _ _), between_append hi]

theorem flatMap_runsFrom_new {old new : List α} {i j : Nat} {blocks : List Block}
    (h : Block.Ascend old new old.length new.length i j blocks) :
    (runsFrom old new i j blocks).flatMap Run.new = new.drop j := by
  induction h with
  | nil => exact flatMap_changeOf_new _ _
  | cons _ hj hb _ ih =>
    rw [runsFrom, List.flatMap_append, List.flatMap_cons, flatMap_changeOf_new, ih,
      between_eq_of_isCommon hb]
    show _ ++ (between new _ _ ++ _) = _
    rw [between_append (Nat.le_add_right _ _), between_append hj]

section

variable [DecidableEq α]

theorem olds_runs (old new : List α) : olds (scriptOf (runs old new)) = old := by
  rw [olds_scriptOf, runs, flatMap_runsFrom_old (Matching.blocks_ascend old new), List.drop_zero]

theorem news_runs (old new : List α) : news (scriptOf (runs old new)) = new := by
  rw [news_scriptOf, runs, flatMap_runsFrom_new (Matching.blocks_ascend old new), List.drop_zero]

theorem runs_self {xs : List α} (hne : xs ≠ []) : runs xs xs = [.same xs] := by
  have hpos := List.length_pos_iff.mpr hne
  rw [runs, Matching.blocks_self hne]
  simp [runsFrom, changeOf, between]

end

/-! ## 3. Hunks -/

theorem Hunk.length_old (h : Hunk α) : h.old.length = (olds (scriptOf h.runs)).length := by
  rw [olds_scriptOf, Hunk.old]

theorem Hunk.length_new (h : Hunk α) : h.new.length = (news (scriptOf h.runs)).length := by
  rw [news_scriptOf, Hunk.new]

/-- The hunks stand in the script in order, each with its two positions, and all else is kept. A
further hunk is never all that is left. -/
inductive Tiles : (i j : Nat) → Script α → List (Hunk α) → Prop where
  | nil {i j} (gap : List α) : Tiles i j (kept gap) []
  | cons {i j rest hs} (gap : List α) (h : Hunk α) :
      h.oldStart = i + gap.length → h.newStart = j + gap.length → (hs ≠ [] → rest ≠ []) →
      Tiles (h.oldStart + h.old.length) (h.newStart + h.new.length) rest hs →
      Tiles i j (kept gap ++ scriptOf h.runs ++ rest) (h :: hs)

/-- More elements may be kept before the first hunk. -/
theorem Tiles.widen {i j : Nat} {s : Script α} {hs : List (Hunk α)} (more : List α)
    (h : Tiles (i + more.length) (j + more.length) s hs) : Tiles i j (kept more ++ s) hs := by
  cases h with
  | nil gap =>
    rw [← Script.kept_append]
    exact .nil _
  | cons gap first hi hj hrest htiles =>
    rw [List.append_assoc, ← List.append_assoc, ← Script.kept_append, ← List.append_assoc]
    refine .cons _ first ?_ ?_ hrest htiles <;> rw [List.length_append] <;> omega

theorem scriptOf_push (h : Hunk α) (r : Run α) :
    scriptOf (h.push r).runs = scriptOf h.runs ++ r.script := by
  rw [Hunk.push, scriptOf_append, scriptOf_singleton]

theorem length_old_push (h : Hunk α) (r : Run α) :
    (h.push r).old.length = h.old.length + r.old.length := by
  rw [Hunk.old, Hunk.push, List.flatMap_append, List.flatMap_singleton, List.length_append,
    Hunk.old]

theorem length_new_push (h : Hunk α) (r : Run α) :
    (h.push r).new.length = h.new.length + r.new.length := by
  rw [Hunk.new, Hunk.push, List.flatMap_append, List.flatMap_singleton, List.length_append,
    Hunk.new]

/-- The common elements that stand between two hunks. -/
def skipped (context : Nat) (items : List α) : List α :=
  (items.drop context).take (items.length - 2 * context)

section

variable {context : Nat} {items : List α}

theorem length_skipped (h : 2 * context < items.length) :
    (skipped context items).length = items.length - 2 * context := by
  rw [skipped, List.length_take, List.length_drop]
  omega

/-- A long stretch of common elements: the first of them, those between two hunks, and the last. -/
theorem split_items (h : 2 * context < items.length) :
    items = items.take context ++
      (skipped context items ++ items.drop (items.length - context)) := by
  have hlast : items.drop (items.length - context) =
      (items.drop context).drop (items.length - 2 * context) := by
    rw [List.drop_drop]
    congr 1
    omega
  rw [hlast, skipped, List.take_append_drop, List.take_append_drop]

theorem scriptOf_same_cons (h : 2 * context < items.length) (rest : List (Run α)) :
    scriptOf (.same items :: rest) = (Run.same (items.take context)).script ++
      (kept (skipped context items) ++ scriptOf [.same (items.drop (items.length - context))] ++
        scriptOf rest) := by
  rw [scriptOf_singleton, scriptOf_cons]
  show kept items ++ _ = kept _ ++ (kept _ ++ kept _ ++ _)
  rw [← Script.kept_append, ← List.append_assoc, ← Script.kept_append, ← split_items h]

end

theorem tiles_hunksFrom (context : Nat) (current : Hunk α) (rs : List (Run α)) {i j : Nat}
    (gap : List α) (hi : current.oldStart = i + gap.length)
    (hj : current.newStart = j + gap.length) :
    Tiles i j (kept gap ++ scriptOf current.runs ++ scriptOf rs)
      (hunksFrom context current rs) := by
  induction current, rs using hunksFrom.induct context generalizing i j gap with
  | case1 current => exact .cons gap current hi hj (fun h => absurd rfl h) (.nil [])
  | case2 current old new rest ih =>
    rw [hunksFrom, scriptOf_cons, ← List.append_assoc, List.append_assoc (kept gap),
      ← scriptOf_push]
    exact ih gap hi hj
  | case3 current items =>
    have hsplit : (Run.same items).script =
        (Run.same (items.take context)).script ++ kept (items.drop context) := by
      show kept items = kept _ ++ kept _
      rw [← Script.kept_append, List.take_append_drop]
    rw [hunksFrom, scriptOf_singleton, hsplit, ← List.append_assoc, List.append_assoc (kept gap),
      ← scriptOf_push]
    exact .cons gap _ hi hj (fun h => absurd rfl h) (.nil _)
  | case4 current items rest hrest hlong =>
    rename_i ih
    have hlength := length_skipped hlong
    have htake : (items.take context).length = context := by
      rw [List.length_take]
      omega
    have hpushOld := length_old_push current (.same (items.take context))
    have hpushNew := length_new_push current (.same (items.take context))
    rw [hunksFrom, if_pos hlong, scriptOf_same_cons hlong, ← List.append_assoc,
      List.append_assoc (kept gap), ← scriptOf_push]
    · refine .cons gap _ hi hj (fun _ hnil => ?_) (ih _ ?_ ?_)
      · have hkept := List.append_eq_nil_iff.mp (List.append_eq_nil_iff.mp hnil).1
        rw [List.map_eq_nil_iff.mp hkept.1, List.length_nil] at hlength
        omega
      · show current.oldStart + current.old.length + (items.length - context) = _
        rw [hpushOld]
        show _ = current.oldStart + (_ + (items.take context).length) + _
        omega
      · show current.newStart + current.new.length + (items.length - context) = _
        rw [hpushNew]
        show _ = current.newStart + (_ + (items.take context).length) + _
        omega
    · exact hrest
  | case5 current items rest hrest hshort ih =>
    rw [hunksFrom, if_neg hshort, scriptOf_cons, ← List.append_assoc, List.append_assoc (kept gap),
      ← scriptOf_push]
    · exact ih gap hi hj
    · exact hrest

/-- Runs without a change keep all. -/
theorem scriptOf_of_same {rs : List (Run α)} (h : rs.any Run.isChange = false) :
    scriptOf rs = kept (rs.flatMap Run.old) := by
  induction rs with
  | nil => rfl
  | cons r rs ih =>
    rw [List.any_cons, Bool.or_eq_false_iff] at h
    rw [scriptOf_cons, ih h.2, List.flatMap_cons, Script.kept_append]
    cases r with
    | same items => rfl
    | change old new => cases h.1

theorem Tiles.filter {i j : Nat} {s : Script α} {hs : List (Hunk α)} (h : Tiles i j s hs) :
    Tiles i j s (hs.filter Hunk.isChange) := by
  induction h with
  | nil gap => exact .nil gap
  | @cons i j rest hs gap first hi hj hrest _ ih =>
    rw [List.filter_cons]
    split
    · refine .cons gap first hi hj (fun hne => hrest ?_) ih
      rintro rfl
      exact hne rfl
    · next hsame =>
      have hscript := scriptOf_of_same (Bool.eq_false_iff.mpr hsame)
      generalize first.runs.flatMap Run.old = items at hscript
      have hold : first.old.length = items.length := by
        rw [Hunk.length_old, hscript, Script.olds_kept]
      have hnew : first.new.length = items.length := by
        rw [Hunk.length_new, hscript, Script.news_kept]
      rw [hi, hj, hold, hnew, Nat.add_assoc, Nat.add_assoc, ← List.length_append] at ih
      rw [hscript, ← Script.kept_append]
      exact ih.widen _

theorem tiles_hunks (context : Nat) (rs : List (Run α)) :
    Tiles 0 0 (scriptOf rs) (hunks context rs) := by
  refine Tiles.filter ?_
  split
  · next items rest =>
    have hscript : scriptOf (.same items :: rest) = kept (items.take (items.length - context)) ++
        scriptOf [.same (items.drop (items.length - context))] ++ scriptOf rest := by
      rw [scriptOf_singleton, scriptOf_cons]
      show kept _ ++ _ = kept _ ++ kept _ ++ _
      rw [← Script.kept_append, List.take_append_drop]
    have hgap : items.length - context = 0 + (items.take (items.length - context)).length := by
      rw [List.length_take]
      omega
    have htiles := tiles_hunksFrom context ⟨items.length - context, items.length - context,
      [.same (items.drop (items.length - context))]⟩ rest _ hgap hgap
    rwa [← hscript] at htiles
  · exact tiles_hunksFrom context ⟨0, 0, []⟩ rs (i := 0) (j := 0) [] rfl rfl

/-! ## 4. Equal sequences -/

/-- Without hunks everything is kept. -/
theorem olds_eq_news_of_tiles_nil {i j : Nat} {s : Script α} (h : Tiles i j s []) :
    olds s = news s := by
  cases h with
  | nil gap => rw [Script.olds_kept, Script.news_kept]

theorem hunks_eq_nil_iff [DecidableEq α] {context : Nat} {old new : List α} :
    hunks context (runs old new) = [] ↔ old = new := by
  constructor
  · intro hnil
    have htiles := tiles_hunks context (runs old new)
    rw [hnil] at htiles
    have hsame := olds_eq_news_of_tiles_nil htiles
    rwa [olds_runs, news_runs] at hsame
  · rintro rfl
    by_cases hne : old = []
    · rw [hne]
      rfl
    · rw [runs_self hne]
      rfl

end ChainGuard.Diff
