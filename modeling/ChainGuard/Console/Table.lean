import ChainGuard.Console.Layout

/-!
# The table of passes

A table with a row for every pass. A column is as wide as its widest cell. If that makes the table
too wide for the console, the widest columns give way until it fits, and a cell that does not fit
ends in an ellipsis.
-/

namespace ChainGuard.Console

/-- A row of the table of passes. -/
structure PassRow where
  number : Int
  diagnostics : Int
  edits : Int
  skipped : Int
  files : Nat

namespace PassRow

def cells (r : PassRow) : List String :=
  [toString r.number, toString r.diagnostics, toString r.edits, toString r.skipped,
    toString r.files]

end PassRow

def columns : List String :=
  ["Pass", "Diagnostics", "Edits", "Skipped", "Files"]

/-! ## Widths -/

/-- The number of blanks around the text of a cell. -/
def padding : Nat := 2

/-- The cells that are left for the columns, besides the bars around them. -/
def columnRoom : Nat :=
  width - (columns.length + 1)

/-- The widths that the columns ask for: that of the widest cell with its blanks, but no more than
the room for all of them. -/
def naturalWidths (rows : List (List String)) : List Nat :=
  let widest := rows.foldl (fun ws row => List.zipWith max ws (row.map String.length))
    (columns.map String.length)
  widest.map fun w => min (w + padding) columnRoom

/-- The quotient of two numbers as the nearest whole number. A half goes to the even neighbour. -/
def roundedQuotient (n d : Nat) : Nat :=
  let q := n / d
  let twice := 2 * (n % d)
  if twice < d then q else if d < twice then q + 1 else if q % 2 = 0 then q else q + 1

/-- Take `excess` cells from the columns of the width `widest`, of which there are `count`, as
evenly as it can be, and at most `limit` from each. -/
def shrinkWidest (widest limit : Nat) : (excess count : Nat) → List Nat → List Nat
  | _, _, [] => []
  | excess, count, w :: ws =>
    if w = widest then
      let cut := min limit (roundedQuotient excess count)
      (w - cut) :: shrinkWidest widest limit (excess - cut) (count - 1) ws
    else w :: shrinkWidest widest limit excess count ws

def total (ws : List Nat) : Nat :=
  ws.foldl (· + ·) 0

def largest (ws : List Nat) : Nat :=
  ws.foldl max 0

/-- Shrink the widest columns, at most to the width of the next ones, until the columns fit. Every
round takes at least one cell. -/
def fitWidths : (rounds : Nat) → List Nat → List Nat
  | 0, ws => ws
  | rounds + 1, ws =>
    if total ws ≤ columnRoom then ws
    else
      let widest := largest ws
      let next := largest (ws.filter (· != widest))
      let excess := total ws - columnRoom
      let count := (ws.filter (· == widest)).length
      fitWidths rounds (shrinkWidest widest (min excess (widest - next)) excess count ws)

def columnWidths (rows : List (List String)) : List Nat :=
  let ws := naturalWidths rows
  fitWidths (total ws) ws

/-! ## Lines -/

def blanks (n : Nat) : String :=
  String.ofList (List.replicate n ' ')

def shorten (w : Nat) (cell : String) : String :=
  if cell.length ≤ w then cell else String.ofList (cell.toList.take (w - 1)) ++ "…"

/-- The texts of a row as wide as their columns. All but the last are aligned to the right. -/
def align : List Nat → List String → List String
  | [w], [cell] => [shorten w cell ++ blanks (w - cell.length)]
  | w :: ws, cell :: cells => (blanks (w - cell.length) ++ shorten w cell) :: align ws cells
  | _, _ => []

def tableRow (bar : String) (ws : List Nat) (cells : List String) : String :=
  let texts := align (ws.map (· - padding)) cells
  s!"{bar} " ++ String.intercalate s!" {bar} " texts ++ s!" {bar}"

/-- A rule of the table: how it starts, what it is made of, how it crosses a bar, how it ends. -/
def tableRule (start : String) (stroke : Char) (cross stop : String) (ws : List Nat) : String :=
  let strokes := ws.map fun w => String.ofList (List.replicate w stroke)
  start ++ String.intercalate cross strokes ++ stop

def passLines (rows : List PassRow) : List String :=
  let cells := rows.map PassRow.cells
  let ws := columnWidths cells
  let body := cells.map (tableRow "│" ws)
  ["Fix passes", tableRule "┏" '━' "┳" "┓" ws, tableRow "┃" ws columns,
    tableRule "┡" '━' "╇" "┩" ws] ++ body ++ [tableRule "└" '─' "┴" "┘" ws]

end ChainGuard.Console
