import ChainGuard.Proofs.Diff
import ChainGuard.Proofs.Path
import ChainGuard.Proofs.Text.Integer

/-!
# Reading a unified diff

A reader that goes through the lines of a unified diff and through an old text, and gives the new
text. It is strict: every hunk has to start where its header says, in both texts, and to have as
many lines as the header says, and every line that is kept or removed has to stand in the old text.

1. `Patch.Cursor.step?`: what one line says. `Patch.follow`, `Patch.appliedBy?`, `Patch.applied?`:
   the reader.
2. `Patch.head?_header`: the header of a hunk is read.
3. `Patch.follow_tiles`: hunks are read line by line. They lead to the new sequence of the script
   they lie in.
4. `Patch.removed_unique`: a line that is removed is the one that stands in the old text.
-/

namespace ChainGuard

/-! ## 1. The reader -/

namespace Patch

open Diff (Mark)

def sign : Mark → Char
  | .keep => ' '
  | .remove => '-'
  | .add => '+'

def mark? (c : Char) : Option Mark :=
  if c = ' ' then some .keep
  else if c = '-' then some .remove
  else if c = '+' then some .add
  else none

theorem mark?_sign (m : Mark) : mark? (sign m) = some m := by
  cases m <;> rfl

/-- Where a reader stands: the number of lines passed in either text, and the number of lines of the
hunk that are still to come. -/
structure Cursor where
  old : Nat
  new : Nat
  oldLeft : Nat
  newLeft : Nat
  deriving DecidableEq

/-- The hunk is at its end, or there is none yet. -/
def Cursor.IsBetween (c : Cursor) : Prop :=
  c.oldLeft = 0 ∧ c.newLeft = 0

instance (c : Cursor) : Decidable c.IsBetween :=
  inferInstanceAs (Decidable (_ ∧ _))

def Cursor.next (c : Cursor) : Mark → Cursor
  | .keep => ⟨c.old + 1, c.new + 1, c.oldLeft - 1, c.newLeft - 1⟩
  | .remove => ⟨c.old + 1, c.new, c.oldLeft - 1, c.newLeft⟩
  | .add => ⟨c.old, c.new + 1, c.oldLeft, c.newLeft - 1⟩

def number? (t : Text) : Option Nat :=
  if t.IsNumeral then some t.decimal else none

/-- Read a range: the number of lines before it, and its length. A range without length has one
line. An empty range names the line before it, any other range its first line. -/
def range? (t : Text) : Option (Nat × Nat) :=
  match t.splitOnChar ',' with
  | [first] =>
    match number? first with
    | some (start + 1) => some (start, 1)
    | _ => none
  | [first, length] =>
    match number? first, number? length with
    | some start, some 0 => some (start, 0)
    | some (start + 1), some (length + 1) => some (start, length + 1)
    | _, _ => none
  | _ => none

def head? (line : Text) : Option Cursor :=
  match line.splitOnChar ' ' with
  | [['@', '@'], '-' :: old, '+' :: new, ['@', '@', '\n']] =>
    match range? old, range? new with
    | some (i, oldLength), some (j, newLength) => some ⟨i, j, oldLength, newLength⟩
    | _, _ => none
  | _ => none

/-- What one line of a difference says: where the reader stands behind it, the lines of the new text
up to there, and the lines of the old text from there on. -/
structure Progress where
  cursor : Cursor
  new : List Text
  old : List Text

/-- Go to the start of a hunk. The lines before it are the same in both texts. -/
def Cursor.enter? (c next : Cursor) (old : List Text) : Option Progress :=
  let skipped := next.old - c.old
  if c.old ≤ next.old ∧ next.new = c.new + skipped ∧ skipped ≤ old.length then
    some ⟨next, old.take skipped, old.drop skipped⟩
  else none

def Cursor.read? (c : Cursor) (text : Text) : Mark → (old : List Text) → Option Progress
  | .keep, first :: old =>
    if 0 < c.oldLeft ∧ 0 < c.newLeft ∧ text = first then some ⟨c.next .keep, [text], old⟩ else none
  | .remove, first :: old =>
    if 0 < c.oldLeft ∧ text = first then some ⟨c.next .remove, [], old⟩ else none
  | .add, old => if 0 < c.newLeft then some ⟨c.next .add, [text], old⟩ else none
  | _, [] => none

/-- Read a line: a header between hunks, or a line with a sign within one. -/
def Cursor.step? (c : Cursor) (line : Text) (old : List Text) : Option Progress :=
  if c.IsBetween then (head? line).bind fun next => c.enter? next old
  else
    match line with
    | [] => none
    | mark :: text => (mark? mark).bind fun m => c.read? text m old

theorem Cursor.step?_between {c : Cursor} (h : c.IsBetween) (line : Text) (old : List Text) :
    c.step? line old = (head? line).bind fun next => c.enter? next old :=
  if_pos h

theorem Cursor.step?_within {c : Cursor} (h : ¬c.IsBetween) (mark : Char) (text : Text)
    (old : List Text) :
    c.step? (mark :: text) old = (mark? mark).bind fun m => c.read? text m old :=
  if_neg h

/-- Follow the lines of a difference through the lines of the old text. The result are the lines of
the new text. -/
def follow : Cursor → (diff old : List Text) → Option (List Text)
  | c, [], old => if c.IsBetween then some old else none
  | c, line :: diff, old =>
    (c.step? line old).bind fun p => (follow p.cursor diff p.old).map (p.new ++ ·)

theorem follow_nil {c : Cursor} (h : c.IsBetween) (old : List Text) : follow c [] old = some old :=
  if_pos h

theorem follow_cons {c : Cursor} {text : Text} {old : List Text} {p : Progress}
    (h : c.step? text old = some p) (diff : List Text) :
    follow c (text :: diff) old = (follow p.cursor diff p.old).map (p.new ++ ·) := by
  rw [follow, h, Option.bind_some]

theorem follow_cons_eq_some {c : Cursor} {text : Text} {diff old out : List Text}
    (h : follow c (text :: diff) old = some out) :
    ∃ p rest, c.step? text old = some p ∧ follow p.cursor diff p.old = some rest := by
  rw [follow, Option.bind_eq_some_iff] at h
  obtain ⟨p, hstep, h⟩ := h
  obtain ⟨rest, hrest, -⟩ := Option.map_eq_some_iff.mp h
  exact ⟨p, rest, hstep, hrest⟩

/-- Apply a unified diff to a text, both cut into lines in the given way. An empty diff changes
nothing, any other one names the two files first. The line `\ No newline at end of file` is
unknown. -/
def appliedBy? (cut : Text → List Text) (diff before : Text) : Option Text :=
  match cut diff with
  | [] => some before
  | source :: target :: hunks =>
    if "--- ".toList <+: source ∧ "+++ ".toList <+: target then
      (follow ⟨0, 0, 0, 0⟩ hunks (cut before)).map List.flatten
    else none
  | _ => none

/-- Apply a unified diff to a text. Both are cut at every line end that `linesWithEnds` knows, not
at line feeds alone. -/
def applied? (diff before : Text) : Option Text :=
  appliedBy? Text.linesWithEnds diff before

theorem appliedBy?_congr {cut cut' : Text → List Text} {diff before : Text}
    (hdiff : cut diff = cut' diff) (hbefore : cut before = cut' before) :
    appliedBy? cut diff before = appliedBy? cut' diff before := by
  unfold appliedBy?
  rw [hdiff, hbefore]

/-! ## 2. Headers -/

theorem not_mem_of_isNumeral {t : Text} (h : t.IsNumeral) {c : Char}
    (hc : Text.isDigit c = false) : c ∉ t := by
  intro hmem
  rw [h.digits c hmem] at hc
  cases hc

theorem number?_toString (n : Nat) : number? (toString n).toList = some n := by
  rw [number?, if_pos (Text.isNumeral_toString n), Text.decimal_toString]

theorem toList_rangeText (start length : Nat) : (Diff.rangeText start length).toList =
    if length = 1 then (toString (start + 1)).toList
    else (toString (if length = 0 then start else start + 1)).toList ++
      ',' :: (toString length).toList := by
  have hcomma : (toString ",").toList = [','] := by decide
  have hempty : (toString ",0").toList = ',' :: (toString 0).toList := by decide
  unfold Diff.rangeText
  split
  · rfl
  · split
    · next hzero => rw [String.toList_append, hempty, hzero]
    · rw [String.toList_append, String.toList_append, hcomma, List.append_assoc,
        List.singleton_append]

theorem mem_rangeText {c : Char} {start length : Nat}
    (h : c ∈ (Diff.rangeText start length).toList) : Text.isDigit c = true ∨ c = ',' := by
  have hdigits : ∀ n : Nat, c ∈ (toString n).toList → Text.isDigit c = true ∨ c = ',' :=
    fun n hc => Or.inl ((Text.isNumeral_toString n).digits c hc)
  rw [toList_rangeText] at h
  split at h
  · exact hdigits _ h
  · rcases List.mem_append.mp h with h | h
    · exact hdigits _ h
    · rcases List.mem_cons.mp h with h | h
      · exact Or.inr h
      · exact hdigits _ h

theorem range?_rangeText (start length : Nat) :
    range? (Diff.rangeText start length).toList = some (start, length) := by
  have hcomma : ∀ n : Nat, ',' ∉ (toString n).toList :=
    fun n => not_mem_of_isNumeral (Text.isNumeral_toString n) (by decide)
  unfold range?
  rw [toList_rangeText]
  by_cases hone : length = 1
  · rw [if_pos hone, Text.splitOnChar_of_not_mem (hcomma _), hone]
    dsimp only
    rw [number?_toString]
  · rw [if_neg hone, Text.splitOnChar_append (hcomma _), Text.splitOnChar_of_not_mem (hcomma _)]
    dsimp only
    rw [number?_toString, number?_toString]
    cases length with
    | zero => rfl
    | succ length => rfl

def header (h : Diff.Hunk Text) : Text :=
  s!"@@ -{Diff.rangeText h.oldStart h.old.length} +{Diff.rangeText h.newStart h.new.length} @@\n".toList

theorem toList_header (h : Diff.Hunk Text) : header h =
    ['@', '@'] ++ ' ' :: (('-' :: (Diff.rangeText h.oldStart h.old.length).toList) ++
      ' ' :: (('+' :: (Diff.rangeText h.newStart h.new.length).toList) ++
        ' ' :: ['@', '@', '\n'])) := by
  have hstart : (toString "@@ -").toList = ['@', '@', ' ', '-'] := by decide
  have hmiddle : (toString " +").toList = [' ', '+'] := by decide
  have hend : (toString " @@\n").toList = [' ', '@', '@', '\n'] := by decide
  unfold header
  simp only [String.toList_append, hstart, hmiddle, hend]
  simp only [toString, List.cons_append, List.nil_append, List.append_assoc]

theorem head?_header (h : Diff.Hunk Text) :
    head? (header h) = some ⟨h.oldStart, h.newStart, h.old.length, h.new.length⟩ := by
  have hblank : ∀ (sign : Char) (start length : Nat), sign ≠ ' ' →
      ' ' ∉ sign :: (Diff.rangeText start length).toList := by
    intro sign start length hsign hmem
    rcases List.mem_cons.mp hmem with heq | hmem
    · exact hsign heq.symm
    · rcases mem_rangeText hmem with hdigit | hcomma
      · exact absurd hdigit (by decide)
      · cases hcomma
  unfold head?
  rw [toList_header, Text.splitOnChar_append (by decide),
    Text.splitOnChar_append (hblank '-' _ _ (by decide)),
    Text.splitOnChar_append (hblank '+' _ _ (by decide)),
    Text.splitOnChar_of_not_mem (by decide)]
  show (match range? _, range? _ with
    | some (i, oldLength), some (j, newLength) => some (Cursor.mk i j oldLength newLength)
    | _, _ => none) = _
  rw [range?_rangeText, range?_rangeText]

/-- A line that starts like a line of a hunk is no header. -/
theorem head?_of_ne {c : Char} (hblank : c ≠ ' ') (hat : c ≠ '@') (text : Text) :
    head? (c :: text) = none := by
  obtain ⟨first, others, hsplit⟩ := Text.splitOnChar_cons_of_ne hblank text
  unfold head?
  rw [hsplit]
  split
  · next heq => exact absurd (List.cons.inj (List.cons.inj heq).1).1 hat
  · rfl

/-! ## 3. Hunks -/

open Diff (scriptOf)
open Diff.Script (olds news kept)

/-- The line of a difference that stands for a step of a script. -/
def line (step : Mark × Text) : Text :=
  sign step.1 :: step.2

theorem runLines_eq (r : Diff.Run Text) : Diff.runLines r = r.script.map line := by
  cases r with
  | same items =>
    rw [Diff.Run.script, kept, List.map_map]
    rfl
  | change old new =>
    rw [Diff.Run.script, List.map_append, List.map_map, List.map_map]
    rfl

theorem hunkLines_eq (h : Diff.Hunk Text) :
    Diff.hunkLines h = header h :: (Diff.scriptOf h.runs).map line := by
  rw [Diff.hunkLines, Diff.scriptOf, List.map_flatMap]
  exact congrArg (header h :: List.flatMap · h.runs) (funext runLines_eq)

theorem olds_cons (mark : Mark) (text : Text) (s : Diff.Script Text) : olds ((mark, text) :: s) =
    if mark = .add then olds s else text :: olds s := by
  cases mark <;> rfl

theorem news_cons (mark : Mark) (text : Text) (s : Diff.Script Text) : news ((mark, text) :: s) =
    if mark = .remove then news s else text :: news s := by
  cases mark <;> rfl

theorem step?_line {c : Cursor} (h : ¬c.IsBetween) (m : Mark) (text : Text) (old : List Text) :
    c.step? (line (m, text)) old = c.read? text m old := by
  rw [line, Cursor.step?_within h, mark?_sign, Option.bind_some]

section

variable {c : Cursor} (text : Text) (diff old : List Text)

theorem follow_keep (hold : 0 < c.oldLeft) (hnew : 0 < c.newLeft) :
    follow c (line (.keep, text) :: diff) (text :: old) =
      (follow (c.next .keep) diff old).map (text :: ·) := by
  have hwithin : ¬c.IsBetween := fun h => Nat.ne_of_gt hold h.1
  exact follow_cons ((step?_line hwithin .keep text (text :: old)).trans
    (if_pos ⟨hold, hnew, rfl⟩)) diff

theorem follow_remove (hold : 0 < c.oldLeft) :
    follow c (line (.remove, text) :: diff) (text :: old) = follow (c.next .remove) diff old := by
  have hwithin : ¬c.IsBetween := fun h => Nat.ne_of_gt hold h.1
  have hfollow := follow_cons ((step?_line hwithin .remove text (text :: old)).trans
    (if_pos ⟨hold, rfl⟩)) diff
  exact hfollow.trans Option.map_id'

theorem follow_add (hnew : 0 < c.newLeft) :
    follow c (line (.add, text) :: diff) old =
      (follow (c.next .add) diff old).map (text :: ·) := by
  have hwithin : ¬c.IsBetween := fun h => Nat.ne_of_gt hnew h.2
  exact follow_cons ((step?_line hwithin .add text old).trans (if_pos hnew)) diff

end

/-- Within a hunk, the lines of a script lead from its old lines to its new ones. -/
theorem follow_script (s : Diff.Script Text) (i j m n : Nat) (diff old : List Text) :
    follow ⟨i, j, (olds s).length + m, (news s).length + n⟩ (s.map line ++ diff) (olds s ++ old) =
      (follow ⟨i + (olds s).length, j + (news s).length, m, n⟩ diff old).map (news s ++ ·) := by
  induction s generalizing i j with
  | nil =>
    show follow ⟨i, j, 0 + m, 0 + n⟩ diff old = (follow ⟨i, j, m, n⟩ diff old).map fun out => out
    rw [Nat.zero_add, Nat.zero_add, Option.map_id']
  | cons step s ih =>
    obtain ⟨mark, text⟩ := step
    rw [List.map_cons, List.cons_append, olds_cons, news_cons]
    have hpos : ∀ a b : Nat, 0 < a + 1 + b := fun a b => by omega
    have hnext : ∀ a b : Nat, a + 1 + b - 1 = a + b := fun a b => by omega
    have hpassed : ∀ a b : Nat, a + 1 + b = a + (b + 1) := fun a b => by omega
    cases mark with
    | keep =>
      rw [if_neg nofun, if_neg nofun, List.cons_append, List.length_cons, List.length_cons,
        follow_keep _ _ _ (hpos _ _) (hpos _ _), Cursor.next]
      dsimp only
      rw [hnext, hnext, ih, hpassed, hpassed, Option.map_map]
      rfl
    | remove =>
      rw [if_neg nofun, if_pos rfl, List.cons_append, List.length_cons,
        follow_remove _ _ _ (hpos _ _), Cursor.next]
      dsimp only
      rw [hnext, ih, hpassed]
    | add =>
      rw [if_pos rfl, if_neg nofun, List.length_cons, follow_add _ _ _ (hpos _ _), Cursor.next]
      dsimp only
      rw [hnext, ih, hpassed, Option.map_map]
      rfl

/-- At the header of a hunk the lines before it are passed. -/
theorem step?_header {i j : Nat} {gap : List Text} {h : Diff.Hunk Text}
    (hi : h.oldStart = i + gap.length) (hj : h.newStart = j + gap.length) (old : List Text) :
    Cursor.step? ⟨i, j, 0, 0⟩ (header h) (gap ++ old) =
      some ⟨⟨h.oldStart, h.newStart, h.old.length, h.new.length⟩, gap, old⟩ := by
  have hskipped : h.oldStart - i = gap.length := by omega
  have hbetween : Cursor.IsBetween ⟨i, j, 0, 0⟩ := ⟨rfl, rfl⟩
  rw [Cursor.step?_between hbetween, head?_header, Option.bind_some, Cursor.enter?]
  dsimp only
  rw [hskipped, List.take_left, List.drop_left, if_pos]
  refine ⟨by omega, hj, ?_⟩
  rw [List.length_append]
  exact Nat.le_add_right _ _

/-- The hunks in a script are read, and lead from its old lines to its new ones. -/
theorem follow_tiles {i j : Nat} {s : Diff.Script Text} {hs : List (Diff.Hunk Text)}
    (h : Diff.Tiles i j s hs) :
    follow ⟨i, j, 0, 0⟩ (hs.flatMap Diff.hunkLines) (olds s) = some (news s) := by
  induction h with
  | nil gap =>
    rw [Diff.Script.olds_kept, Diff.Script.news_kept]
    exact follow_nil ⟨rfl, rfl⟩ gap
  | @cons i j rest hs gap h hi hj hrest _ ih =>
    have hbody := follow_script (scriptOf h.runs) h.oldStart h.newStart 0 0
      (hs.flatMap Diff.hunkLines) (olds rest)
    rw [← h.length_old, ← h.length_new, Nat.add_zero, Nat.add_zero, ih, Option.map_some] at hbody
    rw [Diff.Script.olds_append, Diff.Script.olds_append, Diff.Script.news_append,
      Diff.Script.news_append, Diff.Script.olds_kept, Diff.Script.news_kept, List.append_assoc,
      List.append_assoc, List.flatMap_cons, hunkLines_eq, List.cons_append,
      follow_cons (step?_header hi hj _), hbody, Option.map_some]

/-! ## 4. What is removed -/

theorem step?_remove {c : Cursor} {x : Text} {old : List Text} {p : Progress}
    (h : c.step? (line (.remove, x)) old = some p) : ∃ rest, old = x :: rest := by
  by_cases hc : c.IsBetween
  · rw [Cursor.step?_between hc, line, sign, head?_of_ne (by decide) (by decide)] at h
    cases h
  · rw [step?_line hc] at h
    cases old with
    | nil => cases h
    | cons first old =>
      rw [Cursor.read?, Option.ite_none_right_eq_some] at h
      exact ⟨old, by rw [h.1.2]⟩

/-- A line that is removed is the one that stands in the old text. So it cannot be exchanged for
another one. -/
theorem removed_unique {c : Cursor} {front back back' old out out' : List Text} {x y : Text}
    (hx : follow c (front ++ line (.remove, x) :: back) old = some out)
    (hy : follow c (front ++ line (.remove, y) :: back') old = some out') : x = y := by
  induction front generalizing c old out out' with
  | nil =>
    obtain ⟨_, _, hstep, -⟩ := follow_cons_eq_some hx
    obtain ⟨_, _, hstep', -⟩ := follow_cons_eq_some hy
    obtain ⟨rest, hold⟩ := step?_remove hstep
    obtain ⟨rest', hold'⟩ := step?_remove hstep'
    exact (List.cons.inj (hold.symm.trans hold')).1
  | cons text front ih =>
    obtain ⟨p, rest, hstep, hx⟩ := follow_cons_eq_some hx
    obtain ⟨p', rest', hstep', hy⟩ := follow_cons_eq_some hy
    cases hstep.symm.trans hstep'
    exact ih hx hy

end Patch

end ChainGuard
