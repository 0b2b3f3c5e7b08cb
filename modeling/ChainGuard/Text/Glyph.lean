import ChainGuard.Text.Cells

/-!
# Glyphs

A console draws some characters as one: a character with the marks on it, and characters that are
joined. Such a glyph is never divided.

* `glyphs` divides a text into glyphs. They join to the text again.
* `crop` and `chop` cut a text to a number of cells.

The glyphs of a text take as many cells as the text, unless joiners stand at its very front: the
first one of them is a glyph of its own and joins nothing. A text that is too long by its cells and
too short by its glyphs cannot be cropped.
-/

namespace ChainGuard

/-- Characters that are drawn as one, the number of cells they take, and the character that an emoji
selector would widen. -/
structure Glyph where
  chars : Text
  cells : Nat
  base : Option Char
  deriving DecidableEq

namespace Glyph

/-- The glyph that starts with a character. A mark with nothing to stand on takes no cells. -/
def ofChar (c : Char) : Glyph :=
  { chars := [c]
    cells := Text.charCells c
    base := if Text.charCells c = 0 then none else some c }

def add (g : Glyph) (c : Char) : Glyph :=
  { g with chars := g.chars ++ [c] }

/-- The glyph with an emoji selector, which widens it at most once. -/
def select (g : Glyph) : Glyph :=
  let added := Text.addedCells g.base
  { chars := g.chars ++ [Text.emojiSelector]
    cells := g.cells + added
    base := if added = 0 then g.base else none }

end Glyph

/-- Why a text cannot be cropped. -/
inductive CropError where
  /-- The glyphs take fewer cells than are asked for. -/
  | tooFewCells
  /-- The glyphs take no cells. -/
  | noCells
  deriving DecidableEq

namespace Text

/-- The glyphs of a text that follows the glyph `g`. -/
def glyphsFrom : (g : Glyph) → Text → List Glyph
  | g, [] => [g]
  | g, c :: rest =>
    if c = joiner then
      match rest with
      | [] => [g.add c]
      | d :: rest => glyphsFrom ((g.add c).add d) rest
    else if c = emojiSelector then glyphsFrom g.select rest
    else if charCells c = 0 then glyphsFrom (g.add c) rest
    else g :: glyphsFrom (.ofChar c) rest

def glyphs : Text → List Glyph
  | [] => []
  | c :: rest => glyphsFrom (.ofChar c) rest

def glyphCells (gs : List Glyph) : Nat :=
  gs.foldl (fun n g => n + g.cells) 0

/-- The characters of the glyphs that fit into `width` cells. A glyph that fits in part leaves a
blank. -/
def cropGlyphs : (width : Nat) → List Glyph → Text
  | _, [] => []
  | width, g :: rest =>
    if g.cells ≤ width then g.chars ++ cropGlyphs (width - g.cells) rest
    else if width = 0 then []
    else [' ']

def crop (width : Nat) (t : Text) : Except CropError Text :=
  if cells t ≤ width then .ok t
  else
    let gs := glyphs t
    if glyphCells gs = 0 then .error .noCells
    else if glyphCells gs < width then .error .tooFewCells
    else .ok (cropGlyphs width gs)

def appendFirst (chars : Text) : List Text → List Text
  | [] => [chars]
  | piece :: rest => (chars ++ piece) :: rest

/-- Glyphs in pieces of at most `width` cells, where the first piece has `used` cells already. -/
def chopGlyphs (width : Nat) : (used : Nat) → List Glyph → List Text
  | _, [] => [[]]
  | used, g :: rest =>
    if used + g.cells ≤ width then appendFirst g.chars (chopGlyphs width (used + g.cells) rest)
    else [] :: appendFirst g.chars (chopGlyphs width g.cells rest)

/-- A text in pieces of at most `width` cells, each but the last as long as it can be. -/
def chop (width : Nat) (t : Text) : List Text :=
  chopGlyphs width 0 (glyphs t)

end Text

end ChainGuard
