/-!
# Text

A text is the list of its code points. Positions and lengths count code points, never bytes and
never UTF-16 units. A position past the end of a text means the end: every cut clamps.

* `isWithin` looks a character up in a table of ranges.
* `slice` cuts a text between two positions.
* `firstFrom?` and `last?` find a character.
* `hasMarker` looks for the optional-chain marker `?.`.
* `utf8Length` and `wholeChars` measure a text in UTF-8 bytes.
-/

namespace ChainGuard

/-- A text as the list of its code points. -/
abbrev Text := List Char

namespace Text

/-! ## Characters -/

/-- The code point of the character lies in one of the inclusive ranges. -/
def isWithin (ranges : List (Nat × Nat)) (c : Char) : Bool :=
  ranges.any fun r => r.1 ≤ c.toNat && c.toNat ≤ r.2

/-! ## Cuts and searches -/

/-- The code points at positions `lo`, `lo + 1`, … below `hi`. -/
def slice (t : Text) (lo hi : Nat) : Text :=
  (t.take hi).drop lo

/-- The position of the first `c` at or after position `start`. -/
def firstFrom? (t : Text) (c : Char) (start : Nat) : Option Nat :=
  ((t.drop start).idxOf? c).map (· + start)

def last? (c : Char) : Text → Option Nat
  | [] => none
  | x :: xs =>
    match last? c xs with
    | some i => some (i + 1)
    | none => if x = c then some 0 else none

def holds (part : Text) : Text → Bool
  | [] => part.isEmpty
  | x :: xs => part.isPrefixOf (x :: xs) || holds part xs

def marker : Text :=
  ['?', '.']

def hasMarker (t : Text) : Bool :=
  holds marker t

/-! ## Bytes -/

def utf8Length : Text → Nat
  | [] => 0
  | c :: cs => c.utf8Size + utf8Length cs

/-- The number of characters whose encodings end within the first `bytes` bytes. A character cut in
the middle does not count. -/
def wholeChars : Text → Nat → Nat
  | [], _ => 0
  | c :: cs, bytes =>
    if c.utf8Size ≤ bytes then wholeChars cs (bytes - c.utf8Size) + 1 else 0

def isAscii (t : Text) : Bool :=
  t.all (·.utf8Size == 1)

/-- Where a cut "up to `i`" of a sequence of length `n` ends: a negative `i` counts from the end. -/
def cutEnd (n : Nat) (i : Int) : Nat :=
  if i < 0 then (n + i).toNat else i.toNat

end Text

end ChainGuard
