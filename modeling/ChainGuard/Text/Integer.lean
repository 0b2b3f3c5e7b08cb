import ChainGuard.Text.Blank
import ChainGuard.Text.Digit
import ChainGuard.Text.Quoted

/-!
# Integers in texts

An integer is written as an optional sign and decimal digits of any script, with single underscores
between digits, and blanks around it. More digits than `maxDigits` are refused.

The number of digits is judged as soon as the digits end, before anything that follows them.
-/

namespace ChainGuard

/-- Why a text is no integer. -/
inductive IntegerError where
  /-- The text has another form. -/
  | malformed (text : Text)
  /-- The text has too many digits. -/
  | tooLong (digits : Nat)
  deriving DecidableEq

namespace IntegerError

/-- The largest number of decimal digits that is read. -/
def maxDigits : Nat := 4300

/-- The number of characters that are shown of a text in quotes. -/
def shownLength : Nat := 200

/-- The wording of the error. Only the beginning of a long text is shown. -/
def message : IntegerError → String
  | malformed text =>
    "invalid literal for int() with base 10: " ++
      String.ofList ((Text.quoted text).take shownLength)
  | tooLong digits =>
    s!"Exceeds the limit ({maxDigits} digits) for integer string conversion: value has {digits} " ++
      "digits; use sys.set_int_max_str_digits() to increase the limit"

end IntegerError

namespace Text

def isNumberBlank (c : Char) : Bool :=
  isBlank c && !isInformationSeparator c

def sign : Text → Bool × Text
  | '-' :: rest => (true, rest)
  | '+' :: rest => (false, rest)
  | t => (false, t)

/-- The digits at the front of a text with single underscores between them, and the rest. It fails
on an underscore that does not stand between two digits. -/
def digitRun? : (afterDigit : Bool) → Text → Option (List Nat × Text)
  | _, [] => some ([], [])
  | afterDigit, c :: rest =>
    if c = '_' then
      match afterDigit, rest with
      | true, d :: _ => if isDigit d then digitRun? false rest else none
      | _, _ => none
    else
      match digitValue? c with
      | some d => (digitRun? true rest).map fun (ds, tail) => (d :: ds, tail)
      | none => some ([], c :: rest)

def toInteger (t : Text) : Except IntegerError Int :=
  let (negative, body) := sign (t.dropWhile isNumberBlank)
  match digitRun? false body with
  | none => .error (.malformed t)
  | some (digits, tail) =>
    if IntegerError.maxDigits < digits.length then .error (.tooLong digits.length)
    else if digits.isEmpty || !tail.all isNumberBlank then .error (.malformed t)
    else .ok (if negative then -(ofDigits digits : Int) else (ofDigits digits : Int))

end Text

end ChainGuard
