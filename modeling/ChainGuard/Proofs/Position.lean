import ChainGuard.Position
import ChainGuard.Proofs.Text

/-!
# Lines and columns of a position

A walk over the text counts lines and columns as it goes (`Position.lineColumn`). Looking the line
and the column up again gives back the position, also between the two characters of one line break.

1. `Position.endsLine`: the line starts of a text, one character after the other.
2. `Position.lineColumn`: the walk, and which line it stops in (`Position.lineColumn_spec`).
3. `Position.offset?_of_line`, `Position.offset?_lineColumn`: the way back.
-/

namespace ChainGuard.Position

/-! ## 1. Line breaks -/

/-- The character ends a line, given the text behind it. A carriage return in front of a line feed
leaves this to the line feed. -/
def endsLine (c : Char) (rest : Text) : Bool :=
  isLineBreak c && !(c == '\r' && rest.head? == some '\n')

theorem startsAfter_lineFeed (pos : Nat) (rest : Text) :
    startsAfter pos ('\n' :: rest) = (pos + 1) :: startsAfter (pos + 1) rest := by
  rw [startsAfter]
  · rfl
  · intro _ h _
    exact absurd h (by decide)

theorem startsAfter_cons (pos : Nat) (c : Char) (rest : Text) :
    startsAfter pos (c :: rest) =
      if endsLine c rest then (pos + 1) :: startsAfter (pos + 1) rest
      else startsAfter (pos + 1) rest := by
  by_cases hpair : c = '\r' ∧ rest.head? = some '\n'
  · obtain ⟨rfl, hhead⟩ := hpair
    obtain ⟨rest, rfl⟩ := List.head?_eq_some_iff.mp hhead
    have hends : endsLine '\r' ('\n' :: rest) = false := rfl
    rw [hends, startsAfter, startsAfter_lineFeed]
    rfl
  · have hends : endsLine c rest = isLineBreak c := by
      rw [endsLine, Bool.and_eq_left_iff_imp]
      intro _
      simpa [Decidable.imp_iff_not_or] using hpair
    rw [hends, startsAfter]
    rintro rest' rfl rfl
    exact hpair ⟨rfl, rfl⟩

theorem startsAfter_add (pos k : Nat) (t : Text) :
    startsAfter (pos + k) t = (startsAfter pos t).map (· + k) := by
  induction t generalizing pos with
  | nil => rfl
  | cons c rest ih =>
    rw [startsAfter_cons, startsAfter_cons, Nat.add_right_comm, ih (pos + 1)]
    split
    · rw [List.map_cons]
    · rfl

/-! ## 2. The walk -/

def unitsOf : Text → Nat
  | [] => 0
  | c :: rest => units c + unitsOf rest

/-- The line and the column that `n` characters of the text lead to, from the given ones. -/
def walk (line column : Nat) : Text → Nat → Nat × Nat
  | c :: rest, n + 1 =>
    if endsLine c rest then walk (line + 1) 1 rest n else walk line (column + units c) rest n
  | _, _ => (line, column)

def lineColumn (t : Text) (offset : Nat) : Nat × Nat :=
  walk 1 1 t offset

theorem getD_map_succ (starts : List Nat) (j length : Nat) :
    (starts.map (· + 1))[j]?.getD (length + 1) = starts[j]?.getD length + 1 := by
  rw [List.getElem?_map]
  cases starts[j]? <;> rfl

/-- Where a walk stops. Either it stays in its line, or it stops in a line that starts on the way,
and the column counts from there. In both cases the next line starts no earlier. -/
theorem walk_spec (t : Text) (n : Nat) (hn : n ≤ t.length) (line column : Nat) :
    (walk line column t n = (line, column + unitsOf (t.take n)) ∧
      n ≤ (startsAfter 0 t)[0]?.getD t.length) ∨
    ∃ j start, walk line column t n = (line + j + 1, 1 + unitsOf (t.slice start n)) ∧
      (startsAfter 0 t)[j]? = some start ∧ start ≤ n ∧
      n ≤ (startsAfter 0 t)[j + 1]?.getD t.length := by
  induction t generalizing n line column with
  | nil =>
    obtain rfl : n = 0 := Nat.le_zero.mp hn
    exact .inl ⟨rfl, Nat.zero_le _⟩
  | cons c rest ih =>
    cases n with
    | zero => exact .inl ⟨rfl, Nat.zero_le _⟩
    | succ n =>
      have hn' : n ≤ rest.length := Nat.le_of_succ_le_succ hn
      have hstarts : startsAfter 1 rest = (startsAfter 0 rest).map (· + 1) :=
        startsAfter_add 0 1 rest
      have hget : ∀ {j start : Nat}, (startsAfter 0 rest)[j]? = some start →
          ((startsAfter 0 rest).map (· + 1))[j]? = some (start + 1) := by
        intro j start h
        rw [List.getElem?_map, h, Option.map_some]
      rw [walk, startsAfter_cons, hstarts, List.length_cons]
      split
      · rcases ih n hn' (line + 1) 1 with ⟨hwalk, hnext⟩ | ⟨j, start, hwalk, hstart, hle, hnext⟩
        · refine .inr ⟨0, 1, hwalk, rfl, Nat.le_add_left 1 n, ?_⟩
          rw [List.getElem?_cons_succ, getD_map_succ]
          exact Nat.succ_le_succ hnext
        · refine .inr ⟨j + 1, start + 1, ?_, hget hstart, Nat.succ_le_succ hle, ?_⟩
          · rw [hwalk, Nat.add_assoc line 1 j, Nat.add_comm 1 j, ← Nat.add_assoc]
            rfl
          · rw [List.getElem?_cons_succ, getD_map_succ]
            exact Nat.succ_le_succ hnext
      · rcases ih n hn' line (column + units c) with
          ⟨hwalk, hnext⟩ | ⟨j, start, hwalk, hstart, hle, hnext⟩
        · refine .inl ⟨?_, ?_⟩
          · rw [hwalk, List.take_succ_cons, unitsOf, Nat.add_assoc]
          · rw [getD_map_succ]
            exact Nat.succ_le_succ hnext
        · refine .inr ⟨j, start + 1, hwalk, hget hstart, Nat.succ_le_succ hle, ?_⟩
          rw [getD_map_succ]
          exact Nat.succ_le_succ hnext

/-- The position is in the line that starts at `start`, and the next line starts no earlier. -/
theorem lineColumn_spec {t : Text} {offset : Nat} (h : offset ≤ t.length) :
    ∃ line start, lineColumn t offset = (line + 1, 1 + unitsOf (t.slice start offset)) ∧
      (lineStarts t)[line]? = some start ∧ start ≤ offset ∧
      offset ≤ (lineStarts t)[line + 1]?.getD t.length := by
  rcases walk_spec t offset h 1 1 with ⟨hwalk, hnext⟩ | ⟨j, start, hwalk, hstart, hle, hnext⟩
  · exact ⟨0, 0, hwalk, rfl, Nat.zero_le _, hnext⟩
  · refine ⟨j + 1, start, ?_, hstart, hle, hnext⟩
    rw [lineColumn, hwalk, Nat.add_comm 1 j]

/-! ## 3. The way back -/

theorem units_pos (c : Char) : 0 < units c := by
  unfold units
  split
  · exact Nat.zero_lt_succ 1
  · exact Nat.zero_lt_one

/-- The units of a beginning are the column behind it. -/
theorem unitIndex_unitsOf (a b : Text) : unitIndex (unitsOf a) (a ++ b) = a.length := by
  induction a with
  | nil =>
    cases b with
    | nil => rfl
    | cons c b => rfl
  | cons c a ih =>
    have hpos := units_pos c
    have hsum : unitsOf (c :: a) = units c + unitsOf a := rfl
    rw [List.cons_append, unitIndex, if_neg (by omega), hsum, List.length_cons]
    have hrest : ((units c + unitsOf a : Nat) : Int) - units c = unitsOf a := by omega
    rw [hrest, ih]

/-- Looking up a line and the units between its start and a position gives the position, if the next
line starts no earlier. -/
theorem offset?_of_line {t : Text} {offset line start : Nat}
    (hstart : (lineStarts t)[line]? = some start) (hle : start ≤ offset)
    (hnext : offset ≤ (lineStarts t)[line + 1]?.getD t.length) (h : offset ≤ t.length) :
    offset? t (line + 1 : Nat) (1 + unitsOf (t.slice start offset) : Nat) = some offset := by
  have hslice : t.slice start ((lineStarts t)[line + 1]?.getD t.length) =
      t.slice start offset ++ t.slice offset ((lineStarts t)[line + 1]?.getD t.length) :=
    (Text.slice_append_slice hle hnext h).symm
  have hcolumn : ((1 + unitsOf (t.slice start offset) : Nat) : Int) - 1 =
      unitsOf (t.slice start offset) := by omega
  have hline : ((line + 1 : Nat) : Int).toNat = line + 1 := Int.toNat_natCast _
  have hlength : (t.slice start offset).length = offset - start := by
    rw [Text.slice, List.length_drop, List.length_take, Nat.min_eq_left h]
  rw [offset?]
  dsimp only
  rw [if_neg (by omega), hline, Nat.add_sub_cancel, hstart]
  dsimp only
  rw [hcolumn, hslice, unitIndex_unitsOf, hlength, Nat.add_sub_cancel' hle]

/-- Looking up the line and the column of a position gives the position. -/
theorem offset?_lineColumn {t : Text} {offset : Nat} (h : offset ≤ t.length) :
    offset? t (lineColumn t offset).1 (lineColumn t offset).2 = some offset := by
  obtain ⟨line, start, hwalk, hstart, hle, hnext⟩ := lineColumn_spec h
  rw [hwalk]
  exact offset?_of_line hstart hle hnext h

end ChainGuard.Position
