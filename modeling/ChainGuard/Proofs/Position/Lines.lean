import ChainGuard.Proofs.Position

/-!
# Lines by their breaks

The compiler places a position by what lies before it. Its line is one more than the number of line
breaks that end there or before, and its column is one more than the number of UTF-16 units since
the last of them. The lookup takes both back to the position. Any column leads into its line, and a
greater one no further to the front.

1. `Position.breakEnds`: the line breaks, by where they end. The lines start at the front of the
   text and there (`Position.lineStarts_eq`).
2. `Position.lineOf`, `Position.columnOf`: the line and the column of a position.
3. `Position.unitIndex_mono`: the characters before a column.
4. Main statement: `Position.offset?_inverts_positions`.
-/

namespace ChainGuard.Position

/-! ## 1. The ends of the line breaks -/

/-- A line break ends at the position. None ends between the two characters of `\r\n`. -/
def endsBreak (t : Text) : Nat → Bool
  | 0 => false
  | n + 1 =>
    match t.drop n with
    | [] => false
    | c :: rest => endsLine c rest

/-- The positions up to the given one at which a line break ends. -/
def breakEnds (t : Text) (offset : Nat) : List Nat :=
  (List.range (offset + 1)).filter (endsBreak t)

theorem le_of_mem_breakEnds {t : Text} {offset e : Nat} (h : e ∈ breakEnds t offset) :
    e ≤ offset :=
  Nat.le_of_lt_succ (List.mem_range.mp (List.mem_filter.mp h).1)

theorem breakEnds_eq (t : Text) (offset : Nat) :
    breakEnds t offset = ((List.range offset).map (· + 1)).filter (endsBreak t) := by
  rw [breakEnds, List.range_succ_eq_map]
  exact List.filter_cons_of_neg Bool.false_ne_true

/-- Behind the first character, the line breaks end where they do in the rest, and one more ends if
the character ends a line. -/
theorem breakEnds_cons (c : Char) (rest : Text) (offset : Nat) :
    breakEnds (c :: rest) (offset + 1) =
      (if endsLine c rest then [1] else []) ++ (breakEnds rest offset).map (· + 1) := by
  have hfirst : endsBreak (c :: rest) (0 + 1) = endsLine c rest := rfl
  have hrest : (List.range offset).filter (endsBreak (c :: rest) ∘ ((· + 1) ∘ Nat.succ)) =
      (List.range offset).filter (endsBreak rest ∘ (· + 1)) :=
    List.filter_congr fun _ _ => rfl
  rw [breakEnds_eq, breakEnds_eq, List.range_succ_eq_map, List.map_cons, List.map_map,
    List.filter_cons, List.filter_map, List.filter_map, List.map_map, hfirst, hrest]
  split <;> rfl

/-- The lines start at the front of the text and where its line breaks end. -/
theorem lineStarts_eq (t : Text) : lineStarts t = 0 :: breakEnds t t.length := by
  rw [lineStarts]
  congr 1
  induction t with
  | nil => rfl
  | cons c rest ih =>
    rw [startsAfter_cons, startsAfter_add 0 1 rest, ih, List.length_cons, breakEnds_cons]
    split <;> rfl

/-- The line breaks that end later follow those up to a position. -/
theorem breakEnds_append (t : Text) {offset last : Nat} (h : offset ≤ last) :
    ∃ later, breakEnds t last = breakEnds t offset ++ later ∧ ∀ e ∈ later, offset < e := by
  have hsplit : last + 1 = offset + 1 + (last - offset) := by omega
  refine ⟨((List.range (last - offset)).map (offset + 1 + ·)).filter (endsBreak t), ?_, ?_⟩
  · rw [breakEnds, hsplit, List.range_add, List.filter_append]
    rfl
  · intro e he
    obtain ⟨n, -, rfl⟩ := List.mem_map.mp (List.mem_filter.mp he).1
    omega

/-! ## 2. The line and the column of a position -/

/-- One more than the number of line breaks that end at the position or before. -/
def lineOf (t : Text) (offset : Nat) : Nat :=
  (breakEnds t offset).length + 1

/-- The end of the last of these line breaks, or the front of the text. -/
def startOf (t : Text) (offset : Nat) : Nat :=
  (breakEnds t offset).getLast?.getD 0

/-- One more than the number of UTF-16 units between the start of the line and the position. -/
def columnOf (t : Text) (offset : Nat) : Nat :=
  1 + unitsOf (t.slice (startOf t offset) offset)

def lineCount (t : Text) : Nat :=
  lineOf t t.length

/-- The start of a line, or the end of the text behind the last one. -/
def lineBegin (t : Text) (line : Nat) : Nat :=
  (0 :: breakEnds t t.length)[line - 1]?.getD t.length

theorem startOf_le (t : Text) (offset : Nat) : startOf t offset ≤ offset := by
  rw [startOf]
  cases hlast : (breakEnds t offset).getLast? with
  | none => exact Nat.zero_le offset
  | some e => exact le_of_mem_breakEnds (List.mem_of_getLast? hlast)

/-- The line of a position is the last one that starts at the position or before. -/
theorem lineStarts_of_le {t : Text} {offset : Nat} (h : offset ≤ t.length) :
    (lineStarts t)[(breakEnds t offset).length]? = some (startOf t offset) ∧
      offset ≤ (lineStarts t)[(breakEnds t offset).length + 1]?.getD t.length := by
  obtain ⟨later, hlater, hafter⟩ := breakEnds_append t h
  have hlength : (0 :: breakEnds t offset).length = (breakEnds t offset).length + 1 :=
    List.length_cons
  rw [lineStarts_eq, hlater, ← List.cons_append, ← hlength]
  constructor
  · rw [List.getElem?_append_left (by omega), startOf, ← List.getLast?_cons,
      List.getLast?_eq_getElem?]
    rfl
  · rw [List.getElem?_append_right (Nat.le_refl _), Nat.sub_self]
    cases later with
    | nil => exact h
    | cons e later => exact Nat.le_of_lt (hafter e List.mem_cons_self)

/-! ## 3. The characters before a column -/

theorem unitIndex_le_length (column : Int) (t : Text) : unitIndex column t ≤ t.length := by
  induction t generalizing column with
  | nil => exact Nat.le_refl 0
  | cons c rest ih =>
    rw [unitIndex]
    split
    · exact Nat.zero_le _
    · exact Nat.succ_le_succ (ih _)

/-- A greater column has no fewer characters before it. -/
theorem unitIndex_mono (t : Text) {a b : Int} (h : a ≤ b) : unitIndex a t ≤ unitIndex b t := by
  induction t generalizing a b with
  | nil => exact Nat.le_refl 0
  | cons c rest ih =>
    rw [unitIndex, unitIndex]
    split
    · exact Nat.zero_le _
    · rw [if_neg (by omega)]
      exact Nat.succ_le_succ (ih (by omega))

/-! ## 4. The lookup -/

/-- A line starts no later than the next one. -/
theorem lineBegin_le_succ (t : Text) {line : Nat} (h : 1 ≤ line) :
    lineBegin t line ≤ lineBegin t (line + 1) := by
  have hordered : (0 :: breakEnds t t.length).Pairwise (· < ·) := by
    rw [List.pairwise_cons]
    refine ⟨fun e he => ?_, List.pairwise_lt_range.filter _⟩
    refine Nat.pos_of_ne_zero ?_
    rintro rfl
    cases (List.mem_filter.mp he).2
  have hinside : ∀ e ∈ 0 :: breakEnds t t.length, e ≤ t.length := by
    intro e he
    cases he with
    | head => exact Nat.zero_le _
    | tail _ he => exact le_of_mem_breakEnds he
  obtain ⟨n, rfl⟩ : ∃ n, line = n + 1 := ⟨line - 1, by omega⟩
  rw [lineBegin, lineBegin, Nat.add_sub_cancel, Nat.add_sub_cancel]
  cases hnext : (0 :: breakEnds t t.length)[n + 1]? with
  | none =>
    cases hhere : (0 :: breakEnds t t.length)[n]? with
    | none => exact Nat.le_refl _
    | some e => exact hinside e (List.mem_of_getElem? hhere)
  | some e' =>
    obtain ⟨hlt, rfl⟩ := List.getElem?_eq_some_iff.mp hnext
    rw [List.getElem?_eq_getElem (Nat.lt_of_succ_lt hlt)]
    exact Nat.le_of_lt (List.pairwise_iff_getElem.mp hordered n (n + 1) _ hlt (Nat.lt_succ_self n))

/-- The lookup in a line of the text: from its start on, the characters before the column. -/
theorem offset?_of_le_lineCount {t : Text} {line : Nat} (h : 1 ≤ line) (hcount : line ≤ lineCount t)
    (column : Int) :
    offset? t line column = some (lineBegin t line +
      unitIndex (column - 1) (t.slice (lineBegin t line) (lineBegin t (line + 1)))) := by
  obtain ⟨n, rfl⟩ : ∃ n, line = n + 1 := ⟨line - 1, by omega⟩
  have hlt : n < (0 :: breakEnds t t.length).length := by
    rw [List.length_cons]
    exact hcount
  have hline : ((n + 1 : Nat) : Int).toNat = n + 1 := Int.toNat_natCast _
  rw [offset?]
  dsimp only
  rw [if_neg (by omega), hline, lineStarts_eq, lineBegin, lineBegin, Nat.add_sub_cancel,
    Nat.add_sub_cancel, List.getElem?_eq_getElem hlt]
  rfl

/-- The lookup inverts the positions of the compiler, and places every column of a line in the line,
in order. Other lines are not found. -/
theorem offset?_inverts_positions (t : Text) :
    (∀ offset, offset ≤ t.length →
      offset? t (lineOf t offset) (columnOf t offset) = some offset) ∧
    (∀ line : Nat, 1 ≤ line → line ≤ lineCount t → ∃ place : Int → Nat,
      (∀ column, offset? t line column = some (place column) ∧
        lineBegin t line ≤ place column ∧ place column ≤ lineBegin t (line + 1)) ∧
      ∀ a b, a ≤ b → place a ≤ place b) ∧
    ∀ line column : Int, line < 1 ∨ lineCount t < line → offset? t line column = none := by
  refine ⟨fun offset h => ?_, fun line h hcount => ?_, fun line column h => ?_⟩
  · obtain ⟨hstart, hnext⟩ := lineStarts_of_le h
    exact offset?_of_line hstart (startOf_le t offset) hnext h
  · refine ⟨_, fun column => ⟨offset?_of_le_lineCount h hcount column, Nat.le_add_right _ _, ?_⟩,
      fun a b hab => Nat.add_le_add_left (unitIndex_mono _ (by omega)) _⟩
    have hle := lineBegin_le_succ t h
    have hunits := unitIndex_le_length (column - 1)
      (t.slice (lineBegin t line) (lineBegin t (line + 1)))
    rw [Text.slice, List.length_drop, List.length_take] at hunits
    rw [Text.slice]
    omega
  · rw [offset?]
    dsimp only
    rcases h with h | h
    · exact if_pos h
    · have hlength : (lineStarts t).length = lineCount t := by
        rw [lineStarts_eq, List.length_cons]
        rfl
      have hpos : 1 ≤ lineCount t := Nat.le_add_left 1 _
      rw [if_neg (by omega), List.getElem?_eq_none (by omega)]

/-- The second line of this text has a character of two units. The position between the two
characters of the first line break belongs to the first line. -/
def twoBreaks : Text := ['a', '\r', '\n', '𝒳', 'b', '\u2028']

theorem positions_of_twoBreaks :
    (lineOf twoBreaks 2, columnOf twoBreaks 2) = (1, 3) ∧ offset? twoBreaks 1 3 = some 2 ∧
      (lineOf twoBreaks 4, columnOf twoBreaks 4) = (2, 3) ∧ offset? twoBreaks 2 3 = some 4 ∧
      lineCount twoBreaks = 3 ∧ offset? twoBreaks 4 1 = none := by
  obtain ⟨hinverts, -, hnone⟩ := offset?_inverts_positions twoBreaks
  exact ⟨by decide, hinverts 2 (by decide), by decide, hinverts 4 (by decide), by decide,
    hnone 4 1 (by decide)⟩

end ChainGuard.Position
