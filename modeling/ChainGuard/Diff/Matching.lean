/-!
# Matching two sequences

The common stretches of two sequences, found by divide and conquer: take the longest common block,
the leftmost of several, and go on to both sides of it.

A block grows from anchors, which are the places where an element of the old sequence occurs in the
new one. In a long new sequence an element that occurs very often is no anchor. So a block is first
the longest one of anchors only, and then takes in its equal neighbours, whatever they are.

* `anchors` lists the places of every element.
* `longest` finds the longest block within two ranges.
* `blocks` finds all blocks, in order, with touching blocks joined.
-/

namespace ChainGuard

/-- A common stretch: where it starts in either sequence, and its length. -/
structure Block where
  old : Nat
  new : Nat
  size : Nat
  deriving DecidableEq, Repr

namespace Matching

variable {α : Type} [DecidableEq α]

/-! ## Anchors -/

def positions (x : α) (xs : List α) : List Nat :=
  xs.zipIdx.filterMap fun entry => if entry.1 = x then some entry.2 else none

/-- From this length on, elements that occur too often are no anchors. -/
def longLength : Nat := 200

/-- An element with so many positions is an anchor, in a sequence of the given length. -/
def isRare (length count : Nat) : Bool :=
  length < longLength || count ≤ length / 100 + 1

/-- For every element of the old sequence, its positions in the new one, as far as it is an
anchor. -/
def anchors (old new : List α) : List (List Nat) :=
  old.map fun x =>
    let found := positions x new
    if isRare new.length found.length then found else []

/-! ## The longest block -/

/-- The lengths of the blocks of anchors that end at the current element, by their last position. -/
abbrev Row := List (Nat × Nat)

/-- The row of the next element, which has the given positions. A block that ended at the position
before goes on. -/
def nextRow : Row → List Nat → Row
  | _, [] => []
  | row, j :: js =>
    let row := row.dropWhile (·.1 + 1 < j)
    let size :=
      match row with
      | (place, size) :: _ => if place + 1 = j then size + 1 else 1
      | [] => 1
    (j, size) :: nextRow row js

/-- The longer of the best block so far and the blocks of a row, which end at position `i`. -/
def better (i : Nat) (best : Block) (row : Row) : Block :=
  row.foldl (fun best (j, size) =>
    if best.size < size then ⟨i + 1 - size, j + 1 - size, size⟩ else best) best

/-- The longest block of anchors in the elements from position `i` on, given the row before. -/
def search (low high : Nat) : (i : Nat) → Row → Block → List (List Nat) → Block
  | _, _, best, [] => best
  | i, row, best, places :: rest =>
    let row := nextRow row (places.filter fun j => low ≤ j && j < high)
    search low high (i + 1) row (better i best row) rest

/-- The number of equal elements directly before two positions, at most `room`. -/
def equalBefore (old new : List α) : (room : Nat) → (i j : Nat) → Nat
  | 0, _, _ => 0
  | room + 1, i, j =>
    if old[i - 1]? = new[j - 1]? then equalBefore old new room (i - 1) (j - 1) + 1 else 0

/-- The number of equal elements from two positions on, at most `room`. -/
def equalAfter (old new : List α) : (room : Nat) → (i j : Nat) → Nat
  | 0, _, _ => 0
  | room + 1, i, j =>
    if old[i]? = new[j]? then equalAfter old new room (i + 1) (j + 1) + 1 else 0

/-- Two ranges, one of either sequence. -/
structure Ranges where
  oldLow : Nat
  oldHigh : Nat
  newLow : Nat
  newHigh : Nat

/-- The longest block within two ranges. -/
def longest (old new : List α) (places : List (List Nat)) (r : Ranges) : Block :=
  let seed := search r.newLow r.newHigh r.oldLow [] ⟨r.oldLow, r.newLow, 0⟩
    ((places.take r.oldHigh).drop r.oldLow)
  let room := min (seed.old - r.oldLow) (seed.new - r.newLow)
  let before := equalBefore old new room seed.old seed.new
  let oldEnd := seed.old + seed.size
  let newEnd := seed.new + seed.size
  let after := equalAfter old new (min (r.oldHigh - oldEnd) (r.newHigh - newEnd)) oldEnd newEnd
  ⟨seed.old - before, seed.new - before, before + seed.size + after⟩

/-! ## All blocks -/

/-- The blocks within two ranges, in order. Every block shortens the ranges on its sides, so the
length of the old range is enough fuel. -/
def blocksIn (old new : List α) (places : List (List Nat)) : (fuel : Nat) → Ranges → List Block
  | 0, _ => []
  | fuel + 1, r =>
    if r.oldLow < r.oldHigh ∧ r.newLow < r.newHigh then
      let b := longest old new places r
      if b.size = 0 then []
      else
        blocksIn old new places fuel { r with oldHigh := b.old, newHigh := b.new } ++ b ::
          blocksIn old new places fuel { r with oldLow := b.old + b.size, newLow := b.new + b.size }
    else []

/-- Join blocks that touch each other in both sequences. -/
def join : List Block → List Block
  | [] => []
  | b :: rest =>
    match join rest with
    | [] => [b]
    | c :: more =>
      if b.old + b.size = c.old ∧ b.new + b.size = c.new then
        { b with size := b.size + c.size } :: more
      else b :: c :: more

def blocks (old new : List α) : List Block :=
  join (blocksIn old new (anchors old new) (old.length + 1) ⟨0, old.length, 0, new.length⟩)

end Matching

end ChainGuard
