import ChainGuard.Proofs.Diff.Patch
import ChainGuard.Proofs.Text.Lines

/-!
# Printed differences can be applied

A difference is printed as one text, and is read line by line. Its lines carry the ends that they
had in the two texts, so they are found again as long as every line but the last has one. This fails
in one case: the last line of the old text has no end, and is removed, and lines are added behind
it. Then the removed line and the added one are printed as a single line.

1. `Diff.OnlyLast`: what can only be the last element of a list.
2. `Diff.onlyLast_runs`: in a script from one text to another, only the last line can lack its end,
   but for the one case.
3. `Diff.onlyLast_hunkLines`, `Diff.changed_sublist`: so it is in the hunks.
4. `Diff.body`: the printed lines, and how they are found again in the printed text.
5. `Diff.Glues`: the case in which two lines are printed as one.
6. `Diff.unified_applies_unless_glued`: the difference is empty exactly for equal texts, and gives
   the new text exactly where no lines are glued.
7. `Diff.unified_applies_by_feeds`: the same for readers that cut at line feeds alone, if the texts
   have no other separators.
-/

namespace ChainGuard.Diff

open Script (olds news kept)

/-! ## 1. Last elements -/

section

variable {β : Type} {P : β → Prop} {l m : List β}

/-- At most the last element has the property. -/
def OnlyLast (P : β → Prop) (l : List β) : Prop :=
  ∀ x ∈ l.dropLast, ¬P x

theorem onlyLast_append_iff (hm : m ≠ []) :
    OnlyLast P (l ++ m) ↔ (∀ x ∈ l, ¬P x) ∧ OnlyLast P m := by
  rw [OnlyLast, List.dropLast_append_of_ne_nil hm, List.forall_mem_append, OnlyLast]

theorem OnlyLast.right (h : OnlyLast P (l ++ m)) : OnlyLast P m := by
  by_cases hm : m = []
  · rw [hm]
    exact fun x hx => (List.not_mem_nil hx).elim
  · exact ((onlyLast_append_iff hm).mp h).2

theorem OnlyLast.left (h : OnlyLast P (l ++ m)) : OnlyLast P l := by
  by_cases hm : m = []
  · rwa [hm, List.append_nil] at h
  · exact fun x hx => ((onlyLast_append_iff hm).mp h).1 x (List.dropLast_subset l hx)

/-- Before other elements nothing has the property. -/
theorem OnlyLast.before (h : OnlyLast P (l ++ m)) (hm : m ≠ []) : ∀ x ∈ l, ¬P x :=
  ((onlyLast_append_iff hm).mp h).1

theorem OnlyLast.of_sublist {x y : β} (h : OnlyLast P l) (hsub : [x, y].Sublist l) : ¬P x := by
  obtain ⟨front, back, rfl, hx, hy⟩ := List.cons_sublist_iff.mp hsub
  exact h.before (List.ne_nil_of_mem (List.singleton_sublist.mp hy)) x hx

theorem OnlyLast.append (hl : ∀ x ∈ l, ¬P x) (hm : OnlyLast P m) : OnlyLast P (l ++ m) := by
  by_cases hnil : m = []
  · rw [hnil, List.append_nil]
    exact fun x hx => hl x (List.dropLast_subset l hx)
  · exact (onlyLast_append_iff hnil).mpr ⟨hl, hm⟩

theorem onlyLast_map_iff {γ : Type} (f : γ → β) {l : List γ} :
    OnlyLast P (l.map f) ↔ OnlyLast (fun x => P (f x)) l := by
  rw [OnlyLast, ← List.map_dropLast, List.forall_mem_map, OnlyLast]

/-- If it is not only the last element, there is a first one with others behind it. -/
theorem exists_first (h : ¬OnlyLast P l) : ∃ front x back, l = front ++ x :: back ∧
    (∀ y ∈ front, ¬P y) ∧ P x ∧ back ≠ [] := by
  induction l with
  | nil => exact absurd (fun x hx => (List.not_mem_nil hx).elim) h
  | cons first l ih =>
    have hl : l ≠ [] := by
      rintro rfl
      exact h fun x hx => (List.not_mem_nil hx).elim
    by_cases hfirst : P first
    · exact ⟨[], first, l, rfl, fun y hy => (List.not_mem_nil hy).elim, hfirst, hl⟩
    · have hrest : ¬OnlyLast P l := by
        intro hrest
        refine h (OnlyLast.append (l := [first]) (fun x hx => ?_) hrest)
        rwa [List.mem_singleton.mp hx]
      obtain ⟨front, x, back, rfl, hfront, hx, hback⟩ := ih hrest
      exact ⟨first :: front, x, back, rfl, List.forall_mem_cons.mpr ⟨hfirst, hfront⟩, hx, hback⟩

end

/-! ## 2. Scripts -/

section

variable {α : Type} {U : α → Prop} {Q : Mark × α → Prop}

theorem script_eq_nil_of_olds_news {s : Script α} (hold : olds s = []) (hnew : news s = []) :
    s = [] := by
  cases s with
  | nil => rfl
  | cons step s =>
    obtain ⟨mark, x⟩ := step
    cases mark with
    | keep => cases hold
    | remove => cases hold
    | add => cases hnew

theorem mem_changeOf {old new : List α} {r : Run α} :
    r ∈ changeOf old new ↔ ¬(old.isEmpty && new.isEmpty) = true ∧ r = .change old new := by
  unfold changeOf
  split
  · next hempty => exact ⟨fun h => (List.not_mem_nil h).elim, fun h => absurd hempty h.1⟩
  · next hne => exact ⟨fun h => ⟨hne, List.mem_singleton.mp h⟩, fun h => List.mem_singleton.mpr h.2⟩

theorem length_between_of_isCommon {old new : List α} {b : Block} (h : b.IsCommon old new) :
    (between old b.old (b.old + b.size)).length = b.size := by
  have hle := h.old_le
  rw [between, List.length_drop, List.length_take]
  omega

theorem scriptOf_changeOf (old new : List α) :
    scriptOf (changeOf old new) = (Run.change old new).script := by
  unfold changeOf
  split
  · next hempty =>
    rw [Bool.and_eq_true, List.isEmpty_iff, List.isEmpty_iff] at hempty
    rw [hempty.1, hempty.2]
    rfl
  · exact scriptOf_singleton _

/-- What none of the elements of a change has, none of its steps has. -/
theorem forall_mem_change {old new : List α} (hQ : ∀ step, Q step → U step.2)
    (hold : ∀ x ∈ old, ¬U x) (hnew : ∀ x ∈ new, ¬U x) :
    ∀ step ∈ (Run.change old new).script, ¬Q step := by
  refine List.forall_mem_append.mpr ⟨?_, ?_⟩
  · exact List.forall_mem_map.mpr fun x hx hbad => hold x hx (hQ _ hbad)
  · exact List.forall_mem_map.mpr fun x hx hbad => hnew x hx (hQ _ hbad)

/-- In a change, removed elements are the last ones if nothing is added. -/
theorem onlyLast_change {old new : List α} (hQ : ∀ step, Q step → U step.2)
    (hold : OnlyLast U old) (hnew : OnlyLast U new)
    (hchange : new ≠ [] → ∀ x ∈ old, ¬Q (.remove, x)) :
    OnlyLast Q (Run.change old new).script := by
  rw [Run.script]
  by_cases hadd : new = []
  · rw [hadd, List.map_nil, List.append_nil, onlyLast_map_iff]
    exact fun x hx hbad => hold x hx (hQ _ hbad)
  · refine OnlyLast.append (List.forall_mem_map.mpr (hchange hadd)) ?_
    rw [onlyLast_map_iff]
    exact fun x hx hbad => hnew x hx (hQ _ hbad)

/-- Elements with the property `U` are the last of their sequences. Then steps with the property `Q`
are the last of the script, where none of them stands in front of added elements. -/
theorem onlyLast_runsFrom {old new : List α} {i j : Nat} {blocks : List Block}
    (hblocks : Block.Ascend old new old.length new.length i j blocks)
    (hQ : ∀ step, Q step → U step.2) (hold : OnlyLast U (old.drop i))
    (hnew : OnlyLast U (new.drop j))
    (hchange : ∀ a b, .change a b ∈ runsFrom old new i j blocks → b ≠ [] →
      ∀ x ∈ a, ¬Q (.remove, x)) :
    OnlyLast Q (scriptOf (runsFrom old new i j blocks)) := by
  induction hblocks with
  | @nil i j hi hj =>
    rw [runsFrom, scriptOf_changeOf]
    refine onlyLast_change hQ hold hnew fun hadd => hchange _ _ ?_ hadd
    refine mem_changeOf.mpr ⟨fun hempty => hadd ?_, rfl⟩
    rw [Bool.and_eq_true, List.isEmpty_iff, List.isEmpty_iff] at hempty
    exact hempty.2
  | @cons i j b rest hi hj hb hrest ih =>
    have hrestOld := (olds_scriptOf _).trans (flatMap_runsFrom_old hrest)
    have hrestNew := (news_scriptOf _).trans (flatMap_runsFrom_new hrest)
    rw [← between_append hi, ← between_append (Nat.le_add_right b.old b.size)] at hold
    rw [← between_append hj, ← between_append (Nat.le_add_right b.new b.size),
      ← between_eq_of_isCommon hb] at hnew
    have hitems := length_between_of_isCommon hb
    rw [runsFrom] at hchange ⊢
    generalize between old b.old (b.old + b.size) = items at *
    have hpos : items ≠ [] := by
      rintro rfl
      exact absurd hb.pos (hitems ▸ Nat.lt_irrefl 0)
    have hmore : ∀ more : List α, items ++ more ≠ [] :=
      fun more hnil => hpos (List.append_eq_nil_iff.mp hnil).1
    rw [scriptOf_append, scriptOf_cons, scriptOf_changeOf]
    refine OnlyLast.append
      (forall_mem_change hQ (hold.before (hmore _)) (hnew.before (hmore _))) ?_
    by_cases hlast : scriptOf (runsFrom old new (b.old + b.size) (b.new + b.size) rest) = []
    · rw [hlast, List.append_nil, Run.script, kept, onlyLast_map_iff]
      exact fun x hx hbad => hold.right.left x hx (hQ _ hbad)
    · refine OnlyLast.append (List.forall_mem_map.mpr fun x hx hbad => ?_)
        (ih hold.right.right hnew.right.right
          fun a c hmem => hchange a c (List.mem_append_right _ (List.mem_cons_of_mem _ hmem)))
      have hU : ¬U x := by
        by_cases hnone : old.drop (b.old + b.size) = []
        · refine hnew.right.before (fun hnone' => hlast ?_) x hx
          exact script_eq_nil_of_olds_news (hrestOld.trans hnone) (hrestNew.trans hnone')
        · exact hold.right.before hnone x hx
      exact hU (hQ _ hbad)

theorem onlyLast_runs [DecidableEq α] {old new : List α} (hQ : ∀ step, Q step → U step.2)
    (hold : OnlyLast U old) (hnew : OnlyLast U new)
    (hchange : ∀ a b, .change a b ∈ runs old new → b ≠ [] → ∀ x ∈ a, ¬Q (.remove, x)) :
    OnlyLast Q (scriptOf (runs old new)) :=
  onlyLast_runsFrom (Matching.blocks_ascend old new) hQ hold hnew hchange

end

/-! ## 3. Lines of hunks -/

section

variable {P : Text → Prop} {i j : Nat} {s : Script Text} {hs : List (Hunk Text)}

theorem mem_hunkLines (h : Tiles i j s hs) {text : Text} (hmem : text ∈ hs.flatMap hunkLines) :
    (∃ h, text = Patch.header h) ∨ ∃ step ∈ s, text = Patch.line step := by
  induction h with
  | nil gap => exact (List.not_mem_nil hmem).elim
  | cons gap first _ _ _ _ ih =>
    rw [List.flatMap_cons, Patch.hunkLines_eq, List.cons_append, List.mem_cons, List.mem_append]
      at hmem
    rcases hmem with rfl | hmem | hmem
    · exact Or.inl ⟨first, rfl⟩
    · obtain ⟨step, hstep, rfl⟩ := List.mem_map.mp hmem
      exact Or.inr ⟨step, List.mem_append_left _ (List.mem_append_right _ hstep), rfl⟩
    · rcases ih hmem with hheader | ⟨step, hstep, rfl⟩
      · exact Or.inl hheader
      · exact Or.inr ⟨step, List.mem_append_right _ hstep, rfl⟩

/-- What is the last line of the script is the last line of the hunks. -/
theorem onlyLast_hunkLines (h : Tiles i j s hs) (hheader : ∀ h, ¬P (Patch.header h))
    (hscript : OnlyLast P (s.map Patch.line)) : OnlyLast P (hs.flatMap hunkLines) := by
  induction h with
  | nil gap => exact fun x hx => (List.not_mem_nil hx).elim
  | @cons i j rest hs gap first hi hj hrest _ ih =>
    rw [List.map_append, List.map_append, List.append_assoc] at hscript
    have hscript := hscript.right
    rw [List.flatMap_cons, Patch.hunkLines_eq]
    show OnlyLast P ([Patch.header first] ++ ((scriptOf first.runs).map Patch.line ++ _))
    refine OnlyLast.append (fun x hx => ?_) ?_
    · rw [List.mem_singleton.mp hx]
      exact hheader first
    · by_cases hlast : hs = []
      · rw [hlast, List.flatMap_nil, List.append_nil]
        exact hscript.left
      · refine OnlyLast.append (hscript.before fun hnil => ?_) (ih hscript.right)
        exact hrest hlast (List.map_eq_nil_iff.mp hnil)

/-- What is changed stands in the hunks, in the same order. -/
theorem changed_sublist (h : Tiles i j s hs) :
    ((s.filter (·.1 ≠ .keep)).map Patch.line).Sublist (hs.flatMap hunkLines) := by
  have hkept : ∀ gap : List Text, (kept gap).filter (·.1 ≠ .keep) = [] := by
    refine fun gap => List.filter_eq_nil_iff.mpr fun step hstep => ?_
    obtain ⟨x, -, rfl⟩ := List.mem_map.mp hstep
    exact Bool.false_ne_true
  induction h with
  | nil gap =>
    rw [hkept]
    exact List.nil_sublist _
  | cons gap first _ _ _ _ ih =>
    rw [List.filter_append, List.filter_append, hkept, List.nil_append, List.map_append,
      List.flatMap_cons, Patch.hunkLines_eq]
    exact ((List.filter_sublist.map _).cons _).append ih

end

/-! ## 4. The printed difference -/

/-- The lines of the difference of two texts, without those that name the files. -/
def body (before after : Text) : List Text :=
  (hunks contextLines (runs before.linesWithEnds after.linesWithEnds)).flatMap hunkLines

theorem follow_body (before after : Text) :
    Patch.follow ⟨0, 0, 0, 0⟩ (body before after) before.linesWithEnds =
      some after.linesWithEnds := by
  have hfollow := Patch.follow_tiles
    (tiles_hunks contextLines (runs before.linesWithEnds after.linesWithEnds))
  rwa [olds_runs, news_runs] at hfollow

theorem header_eq (h : Hunk Text) : ∃ t, Text.InLine t ∧ Patch.header h = t ++ ['\n'] := by
  have hrange : ∀ start length, Text.InLine (rangeText start length).toList := by
    intro start length c hc
    rcases Patch.mem_rangeText hc with hdigit | rfl
    · exact Text.isLineSeparator_of_isDigit hdigit
    · decide
  have hstart : Text.InLine "@@ -".toList := by decide
  have hmiddle : Text.InLine " +".toList := by decide
  have hend : Text.InLine " @@".toList := by decide
  refine ⟨"@@ -".toList ++ (rangeText h.oldStart h.old.length).toList ++ " +".toList ++
    (rangeText h.newStart h.new.length).toList ++ " @@".toList, ?_, ?_⟩
  · exact (((hstart.append (hrange _ _)).append hmiddle).append (hrange _ _)).append hend
  · rw [Patch.toList_header]
    simp

theorem isEnded_header (h : Hunk Text) : (Patch.header h).isEnded = true := by
  obtain ⟨t, -, ht⟩ := header_eq h
  rw [ht, Text.isEnded_append (List.cons_ne_nil _ _)]
  rfl

theorem isEnded_line (step : Mark × Text) : (Patch.line step).isEnded = step.2.isEnded := by
  obtain ⟨mark, text⟩ := step
  cases text with
  | nil => cases mark <;> decide
  | cons c text => exact Text.isEnded_append (List.cons_ne_nil c text) [Patch.sign mark]

theorem mem_olds_or_news {s : Script Text} {step : Mark × Text} (h : step ∈ s) :
    step.2 ∈ olds s ∨ step.2 ∈ news s := by
  obtain ⟨mark, text⟩ := step
  cases mark with
  | keep => exact Or.inl (List.mem_filterMap.mpr ⟨_, h, rfl⟩)
  | remove => exact Or.inl (List.mem_filterMap.mpr ⟨_, h, rfl⟩)
  | add => exact Or.inr (List.mem_filterMap.mpr ⟨_, h, rfl⟩)

/-- What is printed are single lines, and none of them goes on where the line before it ends. -/
theorem isLine_of_mem_body {before after text : Text} (h : text ∈ body before after) :
    text.IsLine ∧ text.head? ≠ some '\n' := by
  rcases mem_hunkLines (tiles_hunks _ _) h with ⟨hunk, rfl⟩ | ⟨step, hstep, rfl⟩
  · constructor
    · obtain ⟨t, ht, heq⟩ := header_eq hunk
      rw [heq, Text.IsLine, Text.linesWithEnds_append ht]
      rfl
    · rw [Patch.toList_header]
      exact fun hhead => absurd (Option.some.inj hhead) (by decide)
  · have hline : step.2.IsLine := by
      rcases mem_olds_or_news hstep with hold | hnew
      · rw [olds_runs] at hold
        exact (Text.isLine_linesWithEnds before).1 _ hold
      · rw [news_runs] at hnew
        exact (Text.isLine_linesWithEnds after).1 _ hnew
    have hsign : Text.isLineSeparator (Patch.sign step.1) = false := by
      cases step.1 <;> decide
    refine ⟨hline.cons hsign, fun hhead => ?_⟩
    rw [Option.some.inj hhead] at hsign
    cases hsign

theorem onlyLast_linesWithEnds (t : Text) :
    OnlyLast (fun line => line.isEnded = false) t.linesWithEnds := by
  intro line hline hbad
  rw [(Text.isLine_linesWithEnds t).2 line hline] at hbad
  cases hbad

/-- A printed line without its end is the last one, or it is removed and others are added behind
it. -/
theorem onlyLast_body {P : Text → Prop} (hP : ∀ text, P text → text.isEnded = false)
    {before after : Text} (hchange : ∀ old new,
      .change old new ∈ runs before.linesWithEnds after.linesWithEnds → new ≠ [] →
        ∀ text ∈ old, ¬P (Patch.line (.remove, text))) :
    OnlyLast P (body before after) := by
  refine onlyLast_hunkLines (tiles_hunks _ _) (fun h hbad => ?_) ((onlyLast_map_iff _).mpr
    (onlyLast_runs (U := fun line => line.isEnded = false) (fun step hbad => ?_)
      (onlyLast_linesWithEnds before) (onlyLast_linesWithEnds after) hchange))
  · have hend := hP _ hbad
    rw [isEnded_header] at hend
    cases hend
  · rw [← isEnded_line]
    exact hP _ hbad

/-- Lines that were printed are found again, if all but the last have their ends. -/
theorem linesWithEnds_flatten {ls : List Text}
    (hls : ∀ line ∈ ls, line.IsLine ∧ line.head? ≠ some '\n')
    (hends : OnlyLast (fun line => line.isEnded = false) ls) :
    Text.linesWithEnds ls.flatten = ls := by
  by_cases hne : ls = []
  · rw [hne]
    rfl
  · have hlast := hls _ (List.getLast_mem hne)
    have hfront := fun line hline => hls line (List.dropLast_subset ls hline)
    have hlines := Text.linesWithEnds_flatten_append (fun line hline => (hfront line hline).1)
      (fun line hline => Bool.of_not_eq_false (hends line hline))
      (fun line hline => (hfront line hline).2) hlast.2
    rw [hlast.1, List.dropLast_concat_getLast] at hlines
    rwa [← List.flatten_concat, List.dropLast_concat_getLast] at hlines

/-- A line without its end is found together with the first line behind it. -/
theorem linesWithEnds_flatten_glued {front back : List Text} {line : Text}
    (hls : ∀ text ∈ front ++ line :: back, text.IsLine ∧ text.head? ≠ some '\n')
    (hfront : ∀ text ∈ front, text.isEnded = true) (hend : line.isEnded = false)
    (hback : back ≠ []) : ∃ first others, first ≠ [] ∧
      Text.linesWithEnds (front ++ line :: back).flatten = front ++ (line ++ first) :: others := by
  obtain ⟨hls, hlines⟩ := List.forall_mem_append.mp hls
  obtain ⟨⟨hline, hstart⟩, hrest⟩ := List.forall_mem_cons.mp hlines
  have hbehind : back.flatten ≠ [] := by
    intro hnil
    obtain ⟨second, rest, rfl⟩ := List.exists_cons_of_ne_nil hback
    have hsecond := (hrest second List.mem_cons_self).1
    exact hsecond.ne_nil (List.flatten_eq_nil_iff.mp hnil second List.mem_cons_self)
  obtain ⟨first, others, hsplit⟩ :=
    List.exists_cons_of_ne_nil (mt Text.linesWithEnds_eq_nil hbehind)
  have hfirst := (Text.isLine_linesWithEnds back.flatten).1 first (hsplit ▸ List.mem_cons_self)
  have hstart : (line ++ back.flatten).head? ≠ some '\n' := by
    rwa [List.head?_append, List.head?_eq_some_head hline.ne_nil, Option.some_or,
      ← List.head?_eq_some_head hline.ne_nil]
  refine ⟨first, others, hfirst.ne_nil, ?_⟩
  rw [List.flatten_append, List.flatten_cons,
    Text.linesWithEnds_flatten_append (fun line hmem => (hls line hmem).1) hfront
      (fun line hmem => (hls line hmem).2) hstart,
    Text.linesWithEnds_append_of_inLine (hline.inLine hend) hsplit]

/-! ## 5. Glued lines -/

/-- A line without its end is removed, and others are added behind it. It is printed in front of the
first of them, as one line. -/
def Glues (before after : Text) : Prop :=
  ∃ r ∈ runs before.linesWithEnds after.linesWithEnds, r.isChange = true ∧ r.new ≠ [] ∧
    ∃ text ∈ r.old, text.isEnded = false

instance (before after : Text) : Decidable (Glues before after) :=
  inferInstanceAs (Decidable (∃ r ∈ runs before.linesWithEnds after.linesWithEnds, _))

/-- Equal texts have no glued lines. -/
theorem Glues.ne {before after : Text} (h : Glues before after) : before ≠ after := by
  rintro rfl
  obtain ⟨r, hr, hchange, -⟩ := h
  by_cases hne : before.linesWithEnds = []
  · rw [hne] at hr
    cases hr
  · rw [runs_self hne, List.mem_singleton] at hr
    rw [hr] at hchange
    cases hchange

/-- Lines are glued only if the last line of the old text has no end. -/
theorem Glues.isEnded_eq_false {before after : Text} (h : Glues before after) :
    before.isEnded = false := by
  obtain ⟨r, hr, -, -, text, htext, hend⟩ := h
  have hmem : text ∈ before.linesWithEnds := by
    rw [← olds_runs before.linesWithEnds after.linesWithEnds, olds_scriptOf]
    exact List.mem_flatMap.mpr ⟨r, hr, htext⟩
  have hne := List.ne_nil_of_mem hmem
  have hsplit := List.dropLast_concat_getLast hne
  have hlast : text = before.linesWithEnds.getLast hne := by
    rw [← hsplit, List.mem_append, List.mem_singleton] at hmem
    rcases hmem with hmem | hmem
    · exact absurd hend (onlyLast_linesWithEnds before text hmem)
    · exact hmem
  have htextNe := ((Text.isLine_linesWithEnds before).1 text hmem).ne_nil
  rw [← hlast] at hsplit
  rw [← Text.flatten_linesWithEnds before, ← hsplit, List.flatten_concat,
    Text.isEnded_append htextNe, hend]

/-- Without glued lines, a printed line without its end is the last one. -/
theorem onlyLast_body_of_not_glues {before after : Text} (h : ¬Glues before after) :
    OnlyLast (fun text => text.isEnded = false) (body before after) := by
  refine onlyLast_body (fun _ hend => hend) fun old new hmem hnew text htext hend => ?_
  rw [isEnded_line] at hend
  exact h ⟨_, hmem, rfl, hnew, text, htext, hend⟩

/-- What is glued is a removed line, and the first line without its end. -/
theorem Glues.exists_removed {before after : Text} (h : Glues before after) :
    ∃ front text back, body before after = front ++ Patch.line (.remove, text) :: back ∧
      (∀ line ∈ front, line.isEnded = true) ∧ text.isEnded = false ∧ back ≠ [] := by
  obtain ⟨r, hr, hchange, hnew, text, htext, hend⟩ := h
  cases r with
  | same items => cases hchange
  | change old new =>
    obtain ⟨added, others, rfl⟩ := List.exists_cons_of_ne_nil hnew
    have hrun : [(Mark.remove, text), (Mark.add, added)].Sublist
        (Run.change old (added :: others)).script :=
      (List.singleton_sublist.mpr (List.mem_map.mpr ⟨text, htext, rfl⟩)).append
        (List.singleton_sublist.mpr List.mem_cons_self)
    have hscript := hrun.trans (List.sublist_flatten_of_mem (List.mem_map_of_mem hr))
    have hchanged := (hscript.filter (fun step => decide (step.1 ≠ .keep))).map Patch.line
    have hbody : [Patch.line (.remove, text), Patch.line (.add, added)].Sublist
        (body before after) :=
      hchanged.trans (changed_sublist (tiles_hunks _ _))
    have hnot : ¬OnlyLast (fun line => line.isEnded = false) (body before after) := by
      intro hlast
      refine hlast.of_sublist hbody ?_
      rw [isEnded_line, hend]
    have hremoved : OnlyLast (fun line => line.isEnded = false ∧ line.head? ≠ some '-')
        (body before after) :=
      onlyLast_body (fun _ hbad => hbad.1) fun _ _ _ _ _ _ hbad => hbad.2 rfl
    obtain ⟨front, line, back, heq, hfront, hline, hback⟩ := exists_first hnot
    have hsplit : front ++ line :: back = (front ++ [line]) ++ back := by
      rw [List.append_assoc, List.singleton_append]
    rw [heq, hsplit] at hremoved
    have hhead := hremoved.before hback line (List.mem_append_right _ List.mem_cons_self)
    obtain ⟨removed, rfl⟩ := List.head?_eq_some_iff.mp
      (Decidable.not_not.mp fun hne => hhead ⟨hline, hne⟩)
    refine ⟨front, removed, back, heq, fun line hmem => Bool.of_not_eq_false (hfront line hmem),
      ?_, hback⟩
    rw [← isEnded_line (.remove, removed)]
    exact hline

/-! ## 6. Applying the difference -/

theorem hunks_linesWithEnds_eq_nil_iff {before after : Text} :
    hunks contextLines (runs before.linesWithEnds after.linesWithEnds) = [] ↔ before = after := by
  rw [hunks_eq_nil_iff]
  refine ⟨fun h => ?_, congrArg _⟩
  rw [← Text.flatten_linesWithEnds before, h, Text.flatten_linesWithEnds]

def nameLine (mark name : String) : Text :=
  s!"{mark}{name}\n".toList

theorem toList_nameLine (mark name : String) :
    nameLine mark name = mark.toList ++ name.toList ++ ['\n'] := by
  unfold nameLine
  rw [String.toList_append, String.toList_append]
  rfl

theorem linesWithEnds_nameLine {mark name : String} (hmark : Text.InLine mark.toList)
    (hname : Text.InLine name.toList) (rest : Text) :
    Text.linesWithEnds (nameLine mark name ++ rest) =
      nameLine mark name :: Text.linesWithEnds rest := by
  rw [toList_nameLine, List.append_assoc, List.singleton_append,
    Text.linesWithEnds_append (hmark.append hname)]

theorem unified_self (path : String) (t : Text) : unified path t t = [] := by
  rw [unified, unifiedLines, hunks_linesWithEnds_eq_nil_iff.mpr rfl]
  rfl

theorem unified_of_ne (path : String) {before after : Text} (h : before ≠ after) :
    unified path before after = nameLine "--- a/" (Path.ofString path).name ++
      (nameLine "+++ b/" (Path.ofString path).name ++ (body before after).flatten) := by
  have hfound := List.isEmpty_eq_false_iff.mpr (mt hunks_linesWithEnds_eq_nil_iff.mp h)
  rw [unified, unifiedLines, hfound]
  rfl

/-- Behind the names of the files the difference is followed through the lines of the old text. -/
theorem applied?_unified {path : String} (hname : Text.InLine (Path.ofString path).name.toList)
    {before after : Text} (h : before ≠ after) :
    Patch.applied? (unified path before after) before =
      (Patch.follow ⟨0, 0, 0, 0⟩ (Text.linesWithEnds (body before after).flatten)
        before.linesWithEnds).map List.flatten := by
  rw [unified_of_ne path h, Patch.applied?, Patch.appliedBy?,
    linesWithEnds_nameLine (by decide) hname, linesWithEnds_nameLine (by decide) hname]
  refine if_pos ⟨?_, ?_⟩
  all_goals
    rw [toList_nameLine, List.append_assoc]
    exact List.IsPrefix.trans (by decide) (List.prefix_append _ _)

/-- Where no lines are glued, the printed lines are read, and lead to the new text. -/
theorem applied?_of_not_glues {path : String}
    (hname : Text.InLine (Path.ofString path).name.toList) {before after : Text}
    (h : ¬Glues before after) : Patch.applied? (unified path before after) before = some after := by
  by_cases hne : before = after
  · rw [hne, unified_self]
    rfl
  · rw [applied?_unified hname hne, linesWithEnds_flatten (fun line => isLine_of_mem_body)
      (onlyLast_body_of_not_glues h), follow_body, Option.map_some, Text.flatten_linesWithEnds]

/-- Where lines are glued, the removed line that is read does not stand in the old text. -/
theorem Glues.applied?_eq_none {path : String}
    (hname : Text.InLine (Path.ofString path).name.toList) {before after : Text}
    (h : Glues before after) : Patch.applied? (unified path before after) before = none := by
  obtain ⟨front, text, back, hbody, hfront, hend, hback⟩ := h.exists_removed
  have hlines : ∀ line ∈ front ++ Patch.line (.remove, text) :: back,
      line.IsLine ∧ line.head? ≠ some '\n' := hbody ▸ fun line => isLine_of_mem_body
  obtain ⟨first, others, hfirst, hread⟩ :=
    linesWithEnds_flatten_glued hlines hfront ((isEnded_line (.remove, text)).trans hend) hback
  rw [applied?_unified hname h.ne, hbody, hread, Option.map_eq_none_iff]
  by_contra hfollow
  obtain ⟨out, hout⟩ := Option.ne_none_iff_exists'.mp hfollow
  have hreal := follow_body before after
  rw [hbody] at hreal
  have hsame := Patch.removed_unique (y := text ++ first) hreal hout
  exact hfirst (List.self_eq_append_right.mp hsame)

theorem applied?_unified_eq {path : String} (hname : Text.InLine (Path.ofString path).name.toList)
    (before after : Text) : Patch.applied? (unified path before after) before =
      if Glues before after then none else some after := by
  split
  · next hglues => exact hglues.applied?_eq_none hname
  · next hglues => exact applied?_of_not_glues hname hglues

/-- The printed difference is empty exactly for equal texts. Applied to the old text it gives the
new one, unless lines are glued. Then it cannot be applied. -/
theorem unified_applies_unless_glued {path : String}
    (hname : Text.InLine (Path.ofString path).name.toList) (before after : Text) :
    (unified path before after = [] ↔ before = after) ∧
      Patch.applied? (unified path before after) before =
        if Glues before after then none else some after := by
  constructor
  · constructor
    · intro hnil
      by_contra hne
      rw [unified_of_ne path hne, toList_nameLine] at hnil
      simp at hnil
    · rintro rfl
      exact unified_self path before
  · exact applied?_unified_eq hname before after

/-- A guarded access in a text whose last line has its end. -/
theorem guarded_line_applies :
    Text.InLine (Path.ofString "/p/m.ts").name.toList ∧
      Patch.applied? (unified "/p/m.ts" "a.b\n".toList "a?.b\n".toList) "a.b\n".toList =
        some "a?.b\n".toList := by
  have hname : Text.InLine (Path.ofString "/p/m.ts").name.toList := by decide
  have hglues : ¬Glues "a.b\n".toList "a?.b\n".toList :=
    fun h => absurd h.isEnded_eq_false (by decide)
  refine ⟨hname, ?_⟩
  rw [(unified_applies_unless_glued hname _ _).2, if_neg hglues]

/-- The same access without the end of its line. -/
example : unified "/p/m.ts" "a.b".toList "a?.b".toList =
    "--- a/m.ts\n+++ b/m.ts\n@@ -1 +1 @@\n-a.b+a?.b".toList := by
  decide

/-! ## 7. Line feeds -/

theorem hasOnlyFeeds_body {before after text : Text} (hbefore : before.HasOnlyFeeds)
    (hafter : after.HasOnlyFeeds) (h : text ∈ body before after) : text.HasOnlyFeeds := by
  rcases mem_hunkLines (tiles_hunks _ _) h with ⟨hunk, rfl⟩ | ⟨step, hstep, rfl⟩
  · obtain ⟨t, ht, heq⟩ := header_eq hunk
    rw [heq]
    exact Text.hasOnlyFeeds_append.mpr ⟨ht.hasOnlyFeeds, Text.hasOnlyFeeds_feed⟩
  · have hsign : Text.InLine [Patch.sign step.1] := by
      cases step.1 <;> decide
    refine Text.hasOnlyFeeds_append.mpr ⟨hsign.hasOnlyFeeds, ?_⟩
    rcases mem_olds_or_news hstep with hold | hnew
    · rw [olds_runs] at hold
      exact hbefore.of_mem_linesWithEnds hold
    · rw [news_runs] at hnew
      exact hafter.of_mem_linesWithEnds hnew

theorem hasOnlyFeeds_nameLine {mark name : String} (hmark : Text.InLine mark.toList)
    (hname : Text.InLine name.toList) : Text.HasOnlyFeeds (nameLine mark name) := by
  rw [toList_nameLine]
  exact Text.hasOnlyFeeds_append.mpr
    ⟨(hmark.append hname).hasOnlyFeeds, Text.hasOnlyFeeds_feed⟩

/-- Of two texts with line feeds alone, the printed difference has no other separators either. -/
theorem hasOnlyFeeds_unified {path : String} (hname : Text.InLine (Path.ofString path).name.toList)
    {before after : Text} (hbefore : before.HasOnlyFeeds) (hafter : after.HasOnlyFeeds) :
    Text.HasOnlyFeeds (unified path before after) := by
  by_cases hne : before = after
  · rw [hne, unified_self]
    exact nofun
  · rw [unified_of_ne path hne]
    refine Text.hasOnlyFeeds_append.mpr ⟨hasOnlyFeeds_nameLine (by decide) hname,
      Text.hasOnlyFeeds_append.mpr ⟨hasOnlyFeeds_nameLine (by decide) hname, fun c hc => ?_⟩⟩
    obtain ⟨text, htext, hc⟩ := List.mem_flatten.mp hc
    exact hasOnlyFeeds_body hbefore hafter htext c hc

/-- A reader that cuts at line feeds alone reads the difference of two texts in the same way, if
they have no other separators. -/
theorem unified_applies_by_feeds {path : String}
    (hname : Text.InLine (Path.ofString path).name.toList) {before after : Text}
    (hbefore : before.HasOnlyFeeds) (hafter : after.HasOnlyFeeds) :
    Patch.appliedBy? Text.feedLines (unified path before after) before =
      if Glues before after then none else some after := by
  have hsame : Patch.applied? (unified path before after) before =
      Patch.appliedBy? Text.feedLines (unified path before after) before :=
    Patch.appliedBy?_congr (hasOnlyFeeds_unified hname hbefore hafter).linesWithEnds_eq
      hbefore.linesWithEnds_eq
  rw [← hsame, applied?_unified_eq hname]

end ChainGuard.Diff
