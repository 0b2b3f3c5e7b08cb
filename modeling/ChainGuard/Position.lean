import ChainGuard.Text

/-!
# Positions in a source

The compiler counts lines from one, and columns from one in UTF-16 units. A line ends at a line
feed, at a carriage return, at both in a row, or at one of the two line separators of Unicode.

* `lineStarts` gives the character positions at which the lines start.
* `unitIndex` goes from a number of UTF-16 units to a number of characters.
* `offset?` goes from line and column to a character position.
-/

namespace ChainGuard.Position

def isLineBreak (c : Char) : Bool :=
  c == '\n' || c == '\r' || c == '\u2028' || c == '\u2029'

/-- The starts of the lines after the first, for a text that stands at position `pos`. -/
def startsAfter (pos : Nat) : Text → List Nat
  | [] => []
  | '\r' :: '\n' :: rest => (pos + 2) :: startsAfter (pos + 2) rest
  | c :: rest =>
    if isLineBreak c then (pos + 1) :: startsAfter (pos + 1) rest else startsAfter (pos + 1) rest

def lineStarts (t : Text) : List Nat :=
  0 :: startsAfter 0 t

def units (c : Char) : Nat :=
  if 0xffff < c.toNat then 2 else 1

/-- The number of characters before the column, which counts UTF-16 units from zero. A column inside
a character lies behind it, and a column past the end of the line means its end. -/
def unitIndex (column : Int) : Text → Nat
  | [] => 0
  | c :: rest => if column ≤ 0 then 0 else unitIndex (column - units c) rest + 1

/-- The character position of a line and a column, if there is such a line. -/
def offset? (t : Text) (line column : Int) : Option Nat :=
  let starts := lineStarts t
  if line < 1 then none
  else
    match starts[line.toNat - 1]? with
    | none => none
    | some start =>
      let stop := (starts[line.toNat]?).getD t.length
      some (start + unitIndex (column - 1) (t.slice start stop))

end ChainGuard.Position
