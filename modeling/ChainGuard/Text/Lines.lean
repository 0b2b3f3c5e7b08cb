import ChainGuard.Text

/-!
# Lines

A line ends at a line separator of Unicode, and a carriage return followed by a line feed is one
separator. The lines of a text, with their separators, join to the text again.
-/

namespace ChainGuard.Text

def isLineSeparator (c : Char) : Bool :=
  let n := c.toNat
  (0x0a ≤ n && n ≤ 0x0d) || (0x1c ≤ n && n ≤ 0x1e) || n == 0x85 || n == 0x2028 || n == 0x2029

def consFirst (c : Char) : List Text → List Text
  | [] => [[c]]
  | line :: rest => (c :: line) :: rest

/-- The lines of a text, each with its separator. The last line may lack one. -/
def linesWithEnds : Text → List Text
  | [] => []
  | '\r' :: '\n' :: rest => ['\r', '\n'] :: linesWithEnds rest
  | c :: rest =>
    if isLineSeparator c then [c] :: linesWithEnds rest else consFirst c (linesWithEnds rest)

def chomp (line : Text) : Text :=
  (line.reverse.dropWhile isLineSeparator).reverse

def lines (t : Text) : List Text :=
  (linesWithEnds t).map chomp

/-- The text with a line feed for every carriage return, alone or with a line feed behind it. -/
def unifyLineEnds : Text → Text
  | '\r' :: '\n' :: rest => '\n' :: unifyLineEnds rest
  | '\r' :: rest => '\n' :: unifyLineEnds rest
  | c :: rest => c :: unifyLineEnds rest
  | [] => []

/-- The pieces of a text between the occurrences of `sep`. There is always at least one. -/
def splitOnChar (sep : Char) : Text → List Text
  | [] => [[]]
  | c :: rest => if c = sep then [] :: splitOnChar sep rest else consFirst c (splitOnChar sep rest)

end ChainGuard.Text
