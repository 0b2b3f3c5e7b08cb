import ChainGuard.Text.Digit
import ChainGuard.Text.Pattern
import ChainGuard.Text.WordChar

/-!
# Highlighted parts of a message

A message is drawn in several styles: numbers, paths, quoted texts and the like each have one. The
styles themselves are not printed, but a joiner does not reach across the border of a style, and so
the borders have a part in measuring a line.

`highlights` gives the spans that have a style.
-/

namespace ChainGuard.Console

open Pattern

/-! ## Characters and their neighbours -/

def digit : Pattern :=
  one Char.isDigit

def anyDigit : Pattern :=
  one Text.isDigit

def hexDigit : Pattern :=
  one fun c => c.isDigit || ('a' ≤ c && c ≤ 'f') || ('A' ≤ c && c ≤ 'F')

def wordChar : Pattern :=
  one Text.isWordChar

def wordCharOr (s : String) : Pattern :=
  one fun c => Text.isWordChar c || s.toList.contains c

def inLine : Pattern :=
  one (· != '\n')

def isWordSide (side : Option Char) : Bool :=
  side.any Text.isWordChar

def wordBorder : Pattern :=
  between fun before behind => isWordSide before != isWordSide behind

def noWordBorder : Pattern :=
  between fun before behind => isWordSide before == isWordSide behind

def notAfter (kind : Char → Bool) : Pattern :=
  between fun before _ => !before.any kind

/-! ## Parts of a message -/

/-- A tag in angle brackets: the brackets, the name, and the rest. -/
def tag : Pattern :=
  all [mark (char '<'), mark (star (wordCharOr "-.:|")), mark (star (one fun _ => true)),
    mark (char '>')]

/-- A name and its value, with an equals sign between them. -/
def assignment : Pattern :=
  all [mark (times 1 50 wordChar), char '=',
    optional (mark (all [optional (char '"'), plus wordChar, optional (char '"')]))]

def bracket : Pattern :=
  mark (oneOf "[]\x7b\x7d()")

def numericAddress : Pattern :=
  let part := times 1 3 digit
  mark (all [part, char '.', part, char '.', part, char '.', part])

/-- An address of a network, by hexadecimal groups and colons. -/
def hexAddress : Pattern :=
  let group := times 1 4 hexDigit
  mark (all [times 1 7 (all [group, char ':', optional (char ':')]), group])

/-- An address of a device: groups of one or two hexadecimal digits joined by dashes or by colons,
or groups of four joined by dots. -/
def deviceAddress (pairs quads : Nat) : Pattern :=
  let joined (c : Char) : Pattern :=
    all [exactly (pairs - 1) (all [times 1 2 hexDigit, char c]), times 1 2 hexDigit]
  mark (any [joined '-', joined ':',
    all [exactly (quads - 1) (all [exactly 4 hexDigit, char '.']), exactly 4 hexDigit]])

/-- An identifier of hexadecimal digits in groups of 8, 4, 4, 4 and 12. -/
def identifier : Pattern :=
  let group (n : Nat) : Pattern := exactly n hexDigit
  mark (all [group 8, char '-', group 4, char '-', group 4, char '-', group 4, char '-', group 12])

def callee : Pattern :=
  all [mark (lazyStar (wordCharOr ".")), char '(']

def wholeWord (s : String) : Pattern :=
  all [wordBorder, mark (text s), wordBorder]

/-- Digits with a point, and with an exponent, of which `exponent` reads the digits. -/
def decimal (exponent : Pattern) : Pattern :=
  all [plus digit, optional (char '.'), star digit,
    optional (all [char 'e', optional (oneOf "-+"), exponent])]

def complexNumber : Pattern :=
  mark (all [notAfter Text.isWordChar, optional (char '-'), decimal (lazyPlus anyDigit),
    optional (all [oneOf "-+", decimal (plus anyDigit)]), char 'j'])

def number : Pattern :=
  mark (any [
    all [notAfter Text.isWordChar, optional (char '-'), decimal (lazyPlus anyDigit), wordBorder],
    all [text "0x", star hexDigit]])

def filePath : Pattern :=
  let nameChar := wordCharOr "-._+"
  all [mark (all [noWordBorder, star (all [char '/', plus nameChar]), char '/']),
    optional (mark (star nameChar))]

def quotedBy (quotes : String) : Pattern :=
  all [optional (char 'b'), text quotes, lazyStar inLine, notAfter (· == '\\'), text quotes]

def quotedText : Pattern :=
  all [notAfter fun c => c == '\\' || Text.isWordChar c,
    mark (any [quotedBy "'''", quotedBy "'", quotedBy "\"\"\"", quotedBy "\""])]

def webAddress : Pattern :=
  mark (all [any (["file", "https", "http", "ws", "wss"].map text), text "://",
    star (one fun c => c.isAlphanum || "-$_+!`(),.?/;:&=%#~@".toList.contains c)])

/-- The parts that are looked for together in a text, the first that matches first. A pattern that
ends in a character the text does not hold is not tried. -/
def value (t : Text) : Pattern :=
  let ending (c : Char) (pattern : Pattern) : List Pattern := if t.contains c then [pattern] else []
  any ([numericAddress, hexAddress, deviceAddress 8 4, deviceAddress 6 3, identifier] ++
    ending '(' callee ++
    [wholeWord "True", wholeWord "False", wholeWord "None", mark (text "...")] ++
    ending 'j' complexNumber ++ [number, filePath, quotedText, webAddress])

/-- The spans of a message that have a style of their own. They may overlap. -/
def highlights (t : Text) : List Span :=
  [tag, assignment, bracket, value t].flatMap fun pattern => pattern.spans t

end ChainGuard.Console
