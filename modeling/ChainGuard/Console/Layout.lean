import ChainGuard.Text.Blank
import ChainGuard.Text.Glyph
import ChainGuard.Text.Lines
import ChainGuard.Text.Pattern

/-!
# Lines on a console

A console is `width` cells wide. A line that is longer is either cropped or broken before the word
that does not fit. A word that fits on no line is chopped.

A tab stands for blanks up to the next multiple of the tab stop.

The lines of a message are made of `Ink`: characters with the spans of style that cover them. A line
is measured as a whole when it is broken, and run by run when it is drawn. The two measures differ
only where a joiner or an emoji selector stands at the border of a style.
-/

namespace ChainGuard.Console

def width : Nat := 2000

/-! ## Tabs -/

/-- The number of blanks that a tab stands for behind a text, where `measure` tells the size of a
text: one blank, and as many more as lead to the next tab stop. -/
def tabWidth (measure : Text → Nat) (stop : Nat) (before : Text) : Nat :=
  let beyond := measure (before ++ [' ']) % stop
  if beyond = 0 then 1 else 1 + (stop - beyond)

def expandTabs (measure : Text → Nat) (stop : Nat) (line : Text) : Text :=
  let pieces := Text.splitOnChar '\t' line
  pieces.dropLast.flatMap (fun piece =>
    piece ++ List.replicate (tabWidth measure stop piece) ' ') ++ pieces.getLast?.getD []

/-! ## Ink -/

/-- A character, and the numbers of the spans of style that cover it. -/
structure Ink where
  char : Char
  styles : List Nat := []
  deriving DecidableEq

namespace Ink

def plain (inks : List Ink) : Text :=
  inks.map Ink.char

def ofText (spans : List Span) (t : Text) : List Ink :=
  let numbered := spans.zipIdx
  t.zipIdx.map fun (char, i) =>
    let covering := numbered.filter fun (span, _) => span.start ≤ i && i < span.stop
    { char, styles := covering.map Prod.snd }

/-- The ink in the part of a line with the given number. A span of style ends with the part. -/
def inPart (part : Nat) (ink : Ink) : Ink :=
  if ink.styles.isEmpty then ink else { ink with styles := part :: ink.styles }

/-- The pieces between the occurrences of a character, each with the ink that ends it. -/
def splitOnChar (sep : Char) : List Ink → List (List Ink × Option Ink)
  | [] => [([], none)]
  | ink :: rest =>
    if ink.char = sep then ([], some ink) :: splitOnChar sep rest
    else
      match splitOnChar sep rest with
      | [] => [([ink], none)]
      | (piece, stop) :: others => (ink :: piece, stop) :: others

def lines (inks : List Ink) : List (List Ink) :=
  (splitOnChar '\n' inks).map Prod.fst

/-- A line with its tabs expanded by cells. The blanks of a tab have its styles. -/
def expandTabs (stop : Nat) (line : List Ink) : List Ink :=
  (splitOnChar '\t' line).zipIdx.flatMap fun ((piece, tab), part) =>
    let blanks := tab.elim [] fun tab =>
      List.replicate (tabWidth Text.cells stop (plain piece)) { tab with char := ' ' }
    (piece ++ blanks).map (inPart part)

/-- The inks of the given characters, with the styles of the inks in their places. -/
def withChars (inks : List Ink) (chars : Text) : List Ink :=
  List.zipWith (fun ink char => { ink with char }) inks chars

/-- The runs of inks of the same styles. -/
def runs (inks : List Ink) : List Text :=
  (inks.splitBy fun a b => a.styles == b.styles).map plain

end Ink

/-! ## Broken lines -/

/-- The words of a line, each with the blanks behind it. The first one also has the blanks in front
of it. The words join to the line again. -/
def words (line : Text) : List Text :=
  match line.splitBy fun a b => !Text.isBlank a || Text.isBlank b with
  | first :: second :: rest =>
    if first.all Text.isBlank then (first ++ second) :: rest else first :: second :: rest
  | few => few

/-- Lay out words in lines, where the first line begins with `line` and `used` cells of it are
taken. The blanks behind a word need no room. The lines join to the words again. -/
def layout : (line : Text) → (used : Nat) → List Text → List Text
  | line, _, [] => [line]
  | line, used, word :: rest =>
    let size := Text.cells (Text.dropEndWhile Text.isBlank word)
    if used + size ≤ width then layout (line ++ word) (used + Text.cells word) rest
    else if size ≤ width then line :: layout word (Text.cells word) rest
    else
      let pieces := Text.chop width word
      let last := pieces.getLast?.getD []
      (if line.isEmpty then [] else [line]) ++ pieces.dropLast ++
        layout last (Text.cells last) rest

/-- The pieces of a list that have the given lengths. -/
def takeLengths {α : Type} : List Nat → List α → List (List α)
  | [], _ => []
  | n :: ns, xs => xs.take n :: takeLengths ns (xs.drop n)

/-- The number of blanks at the end of a line that go because the line has too many characters. -/
def surplusBlanks (line : Text) : Nat :=
  min (line.reverse.takeWhile Text.isBlank).length (line.length - width)

def trim (line : List Ink) : Except CropError (List Ink) := do
  let kept := line.take (line.length - surplusBlanks (Ink.plain line))
  pure (Ink.withChars kept (← Text.crop width (Ink.plain kept)))

/-- A line as the lines it is broken into. -/
def wrap (line : List Ink) : Except CropError (List (List Ink)) :=
  let lengths := (layout [] 0 (words (Ink.plain line))).map List.length
  (takeLengths lengths line).mapM trim

/-! ## Drawn lines -/

/-- The front of runs that fills `room` cells. What follows the run that fills it is lost. -/
def cropRuns : (room : Nat) → List Text → Except CropError Text
  | _, [] => .ok []
  | room, run :: rest =>
    if Text.cells run < room then do
      let others ← cropRuns (room - Text.cells run) rest
      pure (run ++ others)
    else Text.crop room run

def draw (line : List Ink) : Except CropError Text :=
  let runs := Ink.runs line
  if runs.foldl (fun n run => n + Text.cells run) 0 ≤ width then .ok runs.flatten
  else cropRuns width runs

end ChainGuard.Console
