import ChainGuard.JsonValue
import ChainGuard.Text.Integer

/-!
# Reading JSON

A reader of JSON texts that says what it missed, and where. Besides JSON it takes `NaN`, `Infinity`
and `-Infinity` for numbers. Of two members with the same name the later one counts.

Some texts are JSON and are not read all the same: those with too many digits in a number, and those
with more levels of arrays and objects than the stack has room for. Half of a surrogate pair is no
character. It is read as the null character, which can no more stand in the name of a file.

A fault inside the text is noted by the number of characters that remain; `read` turns it into a
position, a line and a column.
-/

namespace ChainGuard

/-- What is wrong with a text that is not read. -/
inductive JsonFault where
  | expectedValue
  | expectedName
  | expectedColon
  | expectedComma
  | unterminatedString
  | controlCharacter
  | invalidEscape
  | invalidUnitEscape
  | extraData
  | byteOrderMark
  /-- An array or an object has too many levels above it. -/
  | tooDeep (kind : String)
  deriving DecidableEq, Repr

namespace JsonFault

def message : JsonFault → String
  | expectedValue => "Expecting value"
  | expectedName => "Expecting property name enclosed in double quotes"
  | expectedColon => "Expecting ':' delimiter"
  | expectedComma => "Expecting ',' delimiter"
  | unterminatedString => "Unterminated string starting at"
  | controlCharacter => "Invalid control character at"
  | invalidEscape => "Invalid \\escape"
  | invalidUnitEscape => "Invalid \\uXXXX escape"
  | extraData => "Extra data"
  | byteOrderMark => "Unexpected UTF-8 BOM (decode using utf-8-sig)"
  | tooDeep kind =>
    s!"maximum recursion depth exceeded while decoding a JSON {kind} from a unicode string"

/-- The text is no JSON. Otherwise it is JSON that goes beyond what is read. -/
def isSyntax : JsonFault → Bool
  | tooDeep _ => false
  | _ => true

end JsonFault

/-- Why a text is not read as JSON. -/
inductive JsonError where
  /-- There is a fault in the text. Lines and columns count from one, the position from zero. -/
  | malformed (fault : JsonFault) (line column position : Nat)
  /-- A number has too many digits. -/
  | number (error : IntegerError)
  deriving DecidableEq

namespace JsonError

/-- The text is no JSON. -/
def isSyntax : JsonError → Bool
  | malformed fault _ _ _ => fault.isSyntax
  | number _ => false

def message : JsonError → String
  | malformed fault line column position =>
    if fault.isSyntax then
      fault.message ++ s!": line {line} column {column} (char {position})"
    else fault.message
  | number error => error.message

end JsonError

namespace JsonValue

/-- A fault in the text, with the number of characters that remain where it is noted. -/
inductive Stop where
  | fault (fault : JsonFault) (remaining : Nat)
  | number (error : IntegerError)

def skipBlanks (t : Text) : Text :=
  t.dropWhile fun c => c == ' ' || c == '\t' || c == '\n' || c == '\r'

/-! ## Strings -/

def hexValue? (c : Char) : Option Nat :=
  let n := c.toNat
  if 0x30 ≤ n ∧ n ≤ 0x39 then some (n - 0x30)
  else if 0x61 ≤ n ∧ n ≤ 0x66 then some (n - 0x61 + 10)
  else if 0x41 ≤ n ∧ n ≤ 0x46 then some (n - 0x41 + 10)
  else none

/-- The UTF-16 unit written in four hexadecimal digits at the front of a text. -/
def unit? (t : Text) : Option Nat :=
  match t with
  | a :: b :: c :: d :: _ => do
    let a ← hexValue? a
    let b ← hexValue? b
    let c ← hexValue? c
    let d ← hexValue? d
    pure (((a * 16 + b) * 16 + c) * 16 + d)
  | _ => none

def isHighSurrogate (n : Nat) : Bool :=
  0xd800 ≤ n && n ≤ 0xdbff

def isLowSurrogate (n : Nat) : Bool :=
  0xdc00 ≤ n && n ≤ 0xdfff

/-- The character of a single unit. The null character stands for half of a pair. -/
def unitChar (n : Nat) : Char :=
  if isHighSurrogate n || isLowSurrogate n then '\x00' else Char.ofNat n

def simpleEscape? (c : Char) : Option Char :=
  if c = '"' || c = '\\' || c = '/' then some c
  else if c = 'b' then some '\x08'
  else if c = 'f' then some '\x0c'
  else if c = 'n' then some '\n'
  else if c = 'r' then some '\r'
  else if c = 't' then some '\t'
  else none

/-- The character of a unit escape whose digits are at the front of `t`. The digits may not end the
text. A high surrogate takes the escape of a low surrogate that follows it, unless that escape ends
the text. -/
def unitEscape? (t : Text) : Except Stop (Char × Text) :=
  if t.length ≤ 4 then .error (.fault .invalidUnitEscape (t.length + 1))
  else
    match unit? t with
    | none => .error (.fault .invalidUnitEscape (t.length + 1))
    | some high =>
      let rest := t.drop 4
      match isHighSurrogate high && 6 < rest.length, rest with
      | true, '\\' :: 'u' :: tail =>
        match unit? tail with
        | none => .error (.fault .invalidUnitEscape (tail.length + 1))
        | some low =>
          if isLowSurrogate low then
            .ok (Char.ofNat (0x10000 + (high - 0xd800) * 0x400 + (low - 0xdc00)), tail.drop 4)
          else .ok (unitChar high, rest)
      | _, _ => .ok (unitChar high, rest)

/-- The characters of a string up to its closing quote. `opened` is the number of characters that
remained at its opening quote. -/
def readChars (opened : Nat) : (fuel : Nat) → Text → Except Stop (Text × Text)
  | 0, _ => .error (.fault .unterminatedString opened)
  | fuel + 1, t =>
    match t with
    | [] => .error (.fault .unterminatedString opened)
    | c :: rest =>
      if c = '"' then .ok ([], rest)
      else if c = '\\' then
        match rest with
        | [] => .error (.fault .unterminatedString opened)
        | e :: tail =>
          if e = 'u' then do
            let (x, tail) ← unitEscape? tail
            let (xs, tail) ← readChars opened fuel tail
            pure (x :: xs, tail)
          else
            match simpleEscape? e with
            | none => .error (.fault .invalidEscape t.length)
            | some x => do
              let (xs, tail) ← readChars opened fuel tail
              pure (x :: xs, tail)
      else if c.toNat ≤ 0x1f then .error (.fault .controlCharacter t.length)
      else do
        let (xs, tail) ← readChars opened fuel rest
        pure (c :: xs, tail)

/-- A string whose opening quote has just been read. -/
def readString (rest : Text) : Except Stop (String × Text) := do
  let (chars, tail) ← readChars (rest.length + 1) (rest.length + 1) rest
  pure (String.ofList chars, tail)

/-! ## Numbers -/

def isAsciiDigit (c : Char) : Bool :=
  '0' ≤ c && c ≤ '9'

def digits (t : Text) : Text × Text :=
  (t.takeWhile isAsciiDigit, t.dropWhile isAsciiDigit)

def fraction (t : Text) : Text × Text :=
  match t with
  | '.' :: rest =>
    let (ds, tail) := digits rest
    if ds.isEmpty then ([], t) else ('.' :: ds, tail)
  | _ => ([], t)

def exponent (t : Text) : Text × Text :=
  match t with
  | e :: rest =>
    if e = 'e' || e = 'E' then
      let (mark, body) := match rest with
        | s :: body => if s = '+' || s = '-' then ([s], body) else ([], rest)
        | [] => ([], rest)
      let (ds, tail) := digits body
      if ds.isEmpty then ([], t) else (e :: mark ++ ds, tail)
    else ([], t)
  | [] => ([], t)

/-- The integer part of a number: a zero, or digits that do not start with a zero. -/
def integerPart (t : Text) : Text × Text :=
  match t with
  | '0' :: rest => (['0'], rest)
  | _ => digits t

/-- The minus of a number, if it has one. -/
def minusSign (t : Text) : Text × Text :=
  match t with
  | '-' :: body => (['-'], body)
  | _ => ([], t)

def readNumber (t : Text) : Except Stop (JsonValue × Text) :=
  let (minus, body) := minusSign t
  let (whole, rest) := integerPart body
  if whole.isEmpty then .error (.fault .expectedValue t.length)
  else
    let (frac, rest) := fraction rest
    let (expo, rest) := exponent rest
    if frac.isEmpty && expo.isEmpty then
      match Text.toInteger (minus ++ whole) with
      | .ok i => .ok (.integer i, rest)
      | .error e => .error (.number e)
    else .ok (.real (String.ofList (minus ++ whole ++ frac ++ expo)), rest)

def literals : List (String × JsonValue) :=
  [("null", .null), ("true", .bool true), ("false", .bool false), ("NaN", .real "NaN"),
    ("Infinity", .real "Infinity"), ("-Infinity", .real "-Infinity")]

def readLiteral? (t : Text) : Option (JsonValue × Text) :=
  literals.findSome? fun (word, value) =>
    if word.toList.isPrefixOf t then some (value, t.drop word.toList.length) else none

/-! ## Values -/

/-- A string, a word or a number at the front of a text. -/
def readScalar (t : Text) : Except Stop (JsonValue × Text) :=
  match t with
  | '"' :: rest => do
    let (s, tail) ← readString rest
    pure (.text s, tail)
  | _ =>
    match readLiteral? t with
    | some found => .ok found
    | none => readNumber t

section

variable (value : Text → Except Stop (JsonValue × Text))

def readItems : (fuel : Nat) → Text → Except Stop (List JsonValue × Text)
  | 0, t => .error (.fault .expectedValue t.length)
  | fuel + 1, t => do
    let (item, tail) ← value t
    match skipBlanks tail with
    | ']' :: tail => pure ([item], tail)
    | ',' :: tail => do
      let (items, tail) ← readItems fuel (skipBlanks tail)
      pure (item :: items, tail)
    | other => .error (.fault .expectedComma other.length)

/-- An array whose opening bracket has just been read. -/
def readArray (rest : Text) : Except Stop (JsonValue × Text) :=
  match skipBlanks rest with
  | ']' :: tail => .ok (.array [], tail)
  | inner => do
    let (items, tail) ← readItems value (inner.length + 1) inner
    pure (.array items, tail)

def readMembers : (fuel : Nat) → Text → Except Stop (List (String × JsonValue) × Text)
  | 0, t => .error (.fault .expectedName t.length)
  | fuel + 1, t =>
    match t with
    | '"' :: rest => do
      let (key, tail) ← readString rest
      match skipBlanks tail with
      | ':' :: tail => do
        let (found, tail) ← value (skipBlanks tail)
        match skipBlanks tail with
        | '}' :: tail => pure ([(key, found)], tail)
        | ',' :: tail => do
          let (members, tail) ← readMembers fuel (skipBlanks tail)
          pure ((key, found) :: members, tail)
        | other => .error (.fault .expectedComma other.length)
      | other => .error (.fault .expectedColon other.length)
    | other => .error (.fault .expectedName other.length)

/-- An object whose opening brace has just been read. -/
def readObject (rest : Text) : Except Stop (JsonValue × Text) :=
  match skipBlanks rest with
  | '}' :: tail => .ok (.object [], tail)
  | inner => do
    let (members, tail) ← readMembers value (inner.length + 1) inner
    pure (.object (Dict.ofPairs members), tail)

end

/-- A value of at most so many levels at the front of a text. -/
def readValue : (levels : Nat) → Text → Except Stop (JsonValue × Text)
  | 0, t =>
    match t with
    | '[' :: _ => .error (.fault (.tooDeep "array") t.length)
    | '{' :: _ => .error (.fault (.tooDeep "object") t.length)
    | _ => readScalar t
  | levels + 1, t =>
    match t with
    | '[' :: rest => readArray (readValue levels) rest
    | '{' :: rest => readObject (readValue levels) rest
    | _ => readScalar t

def readAll (levels : Nat) (t : Text) : Except Stop JsonValue :=
  match t with
  | '\ufeff' :: _ => .error (.fault .byteOrderMark t.length)
  | _ => do
    let (value, tail) ← readValue levels (skipBlanks t)
    match skipBlanks tail with
    | [] => pure value
    | other => .error (.fault .extraData other.length)

/-- The error at a place of the text `t` where `remaining` characters remain. -/
def errorAt (t : Text) (fault : JsonFault) (remaining : Nat) : JsonError :=
  let position := t.length - remaining
  let before := t.take position
  .malformed fault (before.count '\n' + 1)
    ((before.reverse.takeWhile (· != '\n')).length + 1) position

/-- Read a text as a value of at most so many levels. -/
def read (levels : Nat) (t : Text) : Except JsonError JsonValue :=
  match readAll levels t with
  | .ok value => .ok value
  | .error (.fault fault remaining) => .error (errorAt t fault remaining)
  | .error (.number error) => .error (.number error)

end JsonValue

end ChainGuard
