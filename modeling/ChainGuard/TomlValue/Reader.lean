import ChainGuard.Text.Integer
import ChainGuard.TomlValue

/-!
# Reading TOML

A reader of TOML documents. A malformed document is refused as a whole.

* Scalars: `readBasic`, `readLiteral`, `moment?`, `readNumber`.
* Values: `readValue` with arrays and inline tables.
* Documents: `readStatements`, which keeps the tables made so far and the marks that say which of
  them may still be opened or changed.
-/

namespace ChainGuard

/-- Why a document is refused. -/
inductive TomlError where
  | malformed
  | number (error : IntegerError)
  deriving DecidableEq

namespace TomlValue

/-! ## Blanks and comments -/

def isSpace (c : Char) : Bool :=
  c == ' ' || c == '\t'

def isSpaceOrNewline (c : Char) : Bool :=
  isSpace c || c == '\n'

/-- A control character that may not stand in a line: all but the tab. -/
def isForbidden (c : Char) : Bool :=
  (c.toNat < 0x20 && c != '\t') || c.toNat == 0x7f

def skipSpaces (t : Text) : Text :=
  t.dropWhile isSpace

/-- The text after a comment at its front, up to the end of the line. -/
def skipComment (t : Text) : Except TomlError Text :=
  match t with
  | '#' :: rest =>
    let (body, tail) := (rest.takeWhile (· != '\n'), rest.dropWhile (· != '\n'))
    if body.any isForbidden then .error .malformed else .ok tail
  | _ => .ok t

/-- The text after the blanks, line feeds and comments at its front. -/
def skipFiller : (fuel : Nat) → Text → Except TomlError Text
  | 0, t => .ok t
  | fuel + 1, t =>
    match t.dropWhile isSpaceOrNewline with
    | '#' :: rest => do skipFiller fuel (← skipComment ('#' :: rest))
    | t => .ok t

/-! ## Strings -/

def hexDigit? (c : Char) : Option Nat :=
  let n := c.toNat
  if 0x30 ≤ n ∧ n ≤ 0x39 then some (n - 0x30)
  else if 0x61 ≤ n ∧ n ≤ 0x66 then some (n - 0x61 + 10)
  else if 0x41 ≤ n ∧ n ≤ 0x46 then some (n - 0x41 + 10)
  else none

/-- The character with the code point written in `width` hexadecimal digits at the front. -/
def readCodePoint (width : Nat) (t : Text) : Except TomlError (Char × Text) :=
  let front := t.take width
  match front.mapM hexDigit? with
  | none => .error .malformed
  | some ds =>
    let n := ds.foldl (fun n d => 16 * n + d) 0
    if front.length = width ∧ n.isValidChar then .ok (Char.ofNat n, t.drop width)
    else .error .malformed

def simpleEscape? (c : Char) : Option Char :=
  if c = 'b' then some '\x08'
  else if c = 't' then some '\t'
  else if c = 'n' then some '\n'
  else if c = 'f' then some '\x0c'
  else if c = 'r' then some '\r'
  else if c = '"' then some '"'
  else if c = '\\' then some '\\'
  else none

/-- The text after an escaped end of line, where `t` follows the backslash. Only blanks may stand
before the line feed, and all blanks and line feeds behind it are skipped. -/
def skipLineEnd (t : Text) : Except TomlError Text :=
  match skipSpaces t with
  | [] => .ok []
  | '\n' :: rest => .ok (rest.dropWhile isSpaceOrNewline)
  | _ => .error .malformed

/-- The characters of a string in double quotes, up to its closing quotes. -/
def readBasic (multiline : Bool) : (fuel : Nat) → Text → Except TomlError (Text × Text)
  | 0, _ => .error .malformed
  | fuel + 1, t =>
    match t with
    | [] => .error .malformed
    | c :: rest =>
      if c = '"' then
        if !multiline then .ok ([], rest)
        else
          match rest with
          | '"' :: '"' :: tail => .ok ([], tail)
          | _ => do
            let (cs, tail) ← readBasic multiline fuel rest
            pure ('"' :: cs, tail)
      else if c = '\\' then
        match rest with
        | [] => .error .malformed
        | e :: tail =>
          if multiline && isSpaceOrNewline e then do
            let tail ← skipLineEnd rest
            readBasic multiline fuel tail
          else if e = 'u' || e = 'U' then do
            let (x, tail) ← readCodePoint (if e = 'u' then 4 else 8) tail
            let (cs, tail) ← readBasic multiline fuel tail
            pure (x :: cs, tail)
          else
            match simpleEscape? e with
            | none => .error .malformed
            | some x => do
              let (cs, tail) ← readBasic multiline fuel tail
              pure (x :: cs, tail)
      else if isForbidden c && !(multiline && c == '\n') then .error .malformed
      else do
        let (cs, tail) ← readBasic multiline fuel rest
        pure (c :: cs, tail)

/-- The characters of a string in single quotes, up to its closing quotes. -/
def readLiteral (multiline : Bool) : Text → Except TomlError (Text × Text)
  | [] => .error .malformed
  | c :: rest =>
    let closes := if multiline then ['\'', '\'', '\''].isPrefixOf (c :: rest) else c = '\''
    if closes then .ok ([], if multiline then rest.drop 2 else rest)
    else if isForbidden c && !(multiline && c == '\n') then .error .malformed
    else do
      let (cs, tail) ← readLiteral multiline rest
      pure (c :: cs, tail)

/-- Up to two further quotes behind the closing quotes belong to the string. -/
def extraQuotes (quote : Char) (cs tail : Text) : Text × Text :=
  let extra := (tail.take 2).takeWhile (· == quote)
  (cs ++ extra, tail.drop extra.length)

/-- The text after a line feed right behind the opening quotes. -/
def skipFirstNewline : Text → Text
  | '\n' :: rest => rest
  | t => t

def readString (t : Text) : Except TomlError (Text × Text) :=
  match t with
  | '"' :: '"' :: '"' :: rest => do
    let body := skipFirstNewline rest
    let (cs, tail) ← readBasic true (body.length + 1) body
    pure (extraQuotes '"' cs tail)
  | '\'' :: '\'' :: '\'' :: rest => do
    let (cs, tail) ← readLiteral true (skipFirstNewline rest)
    pure (extraQuotes '\'' cs tail)
  | '"' :: rest => readBasic false (rest.length + 1) rest
  | '\'' :: rest => readLiteral false rest
  | _ => .error .malformed

/-! ## Dates and times -/

def isDecimal (c : Char) : Bool :=
  '0' ≤ c && c ≤ '9'

/-- The number in exactly `count` digits at the front, if it lies between `low` and `high`. -/
def field? (count low high : Nat) (t : Text) : Option (Nat × Text) :=
  let front := t.take count
  if front.length = count ∧ front.all isDecimal then
    let n := Text.ofDigits (front.map fun c => c.toNat - 0x30)
    if low ≤ n ∧ n ≤ high then some (n, t.drop count) else none
  else none

def after? (c : Char) : Text → Option Text
  | [] => none
  | d :: rest => if d = c then some rest else none

def time? (t : Text) : Option Text := do
  let (_, t) ← field? 2 0 23 t
  let (_, t) ← field? 2 0 59 (← after? ':' t)
  let (_, t) ← field? 2 0 59 (← after? ':' t)
  match t with
  | '.' :: rest =>
    if (rest.takeWhile isDecimal).isEmpty then pure t else pure (rest.dropWhile isDecimal)
  | _ => pure t

/-- The text after an offset from universal time at its front, if there is one. -/
def skipOffset (t : Text) : Text :=
  let offset? : Option Text :=
    match t with
    | 'Z' :: rest | 'z' :: rest => some rest
    | '+' :: rest | '-' :: rest => do
      let (_, t) ← field? 2 0 23 rest
      let (_, t) ← field? 2 0 59 (← after? ':' t)
      pure t
    | _ => none
  offset?.getD t

def daysIn (year month : Nat) : Nat :=
  if month = 2 then
    if year % 4 = 0 ∧ (year % 100 ≠ 0 ∨ year % 400 = 0) then 29 else 28
  else if month = 4 ∨ month = 6 ∨ month = 9 ∨ month = 11 then 30
  else 31

/-- A date at the front: whether the calendar has it, and the text after it. -/
def date? (t : Text) : Option (Bool × Text) := do
  let (year, t) ← field? 4 0 9999 t
  let (month, t) ← field? 2 1 12 (← after? '-' t)
  let (day, t) ← field? 2 1 31 (← after? '-' t)
  pure (decide (1 ≤ year ∧ day ≤ daysIn year month), t)

/-- The text after a date at its front, with a time of day if one follows. -/
def moment? (t : Text) : Option (Except TomlError Text) :=
  match date? t with
  | some (valid, rest) =>
    let tail :=
      match rest with
      | c :: body =>
        if c = 'T' || c = 't' || c = ' ' then
          match time? body with
          | some tail => skipOffset tail
          | none => rest
        else rest
      | [] => rest
    some (if valid then .ok tail else .error .malformed)
  | none => (time? t).map .ok

/-! ## Numbers -/

/-- The digits at the front with single underscores between them, without the underscores, and the
rest. -/
def grouped (isDigit : Char → Bool) : Text → Text × Text
  | [] => ([], [])
  | c :: rest =>
    if isDigit c then
      let (ds, tail) := grouped isDigit rest
      (c :: ds, tail)
    else if c = '_' then
      match rest with
      | d :: _ => if isDigit d then grouped isDigit rest else ([], c :: rest)
      | [] => ([], c :: rest)
    else ([], c :: rest)

/-- The digits at the front, the first of which is no underscore. -/
def digitGroup (isDigit : Char → Bool) (t : Text) : Text × Text :=
  match t with
  | c :: _ => if isDigit c then grouped isDigit t else ([], t)
  | [] => ([], t)

def ofBase (base : Nat) (ds : Text) : Nat :=
  ds.foldl (fun n c => base * n + (hexDigit? c).getD 0) 0

def based? (t : Text) : Option (Nat × Text) :=
  let read (base : Nat) (rest : Text) : Option (Nat × Text) :=
    let (ds, tail) := digitGroup (fun c => (hexDigit? c).any (· < base)) rest
    if ds.isEmpty then none else some (ofBase base ds, tail)
  match t with
  | '0' :: 'x' :: rest => read 16 rest
  | '0' :: 'o' :: rest => read 8 rest
  | '0' :: 'b' :: rest => read 2 rest
  | _ => none

/-- The part of a number before the point: a zero, or digits that do not start with a zero. -/
def wholePart (t : Text) : Text × Text :=
  match t with
  | '0' :: rest => (['0'], rest)
  | _ => digitGroup isDecimal t

/-- The digits behind a point, if any follow it. -/
def fractionPart (t : Text) : Text × Text :=
  match t with
  | '.' :: rest =>
    let (ds, tail) := digitGroup isDecimal rest
    if ds.isEmpty then ([], t) else (ds, tail)
  | _ => ([], t)

def exponentPart (t : Text) : Option Int × Text :=
  match t with
  | c :: rest =>
    if c = 'e' || c = 'E' then
      let (negative, body) := Text.sign rest
      let (ds, tail) := digitGroup isDecimal body
      if ds.isEmpty then (none, t)
      else
        let n : Int := ofBase 10 ds
        (some (if negative then -n else n), tail)
    else (none, t)
  | [] => (none, t)

/-- A decimal number: an integer, or a float if it has a fraction or an exponent. -/
def decimal? (t : Text) : Option (Except TomlError (TomlValue × Text)) :=
  let (negative, body) := Text.sign t
  let (whole, rest) := wholePart body
  if whole.isEmpty then none
  else
    let (fraction, rest) := fractionPart rest
    let (exponent, rest) := exponentPart rest
    if fraction.isEmpty && exponent.isNone then
      match Text.toInteger whole with
      | .error e => some (.error (.number e))
      | .ok n => some (.ok (.integer (if negative then -n else n), rest))
    else
      let ds := whole ++ fraction
      some (.ok (.float (.ofDecimal negative (ofBase 10 ds) ds.length
        (exponent.getD 0 - fraction.length)), rest))

def specialFloats : List (String × Binary64) :=
  [("inf", .infinite false), ("nan", .nan), ("-inf", .infinite true), ("+inf", .infinite false),
    ("-nan", .nan), ("+nan", .nan)]

def readNumber (t : Text) : Except TomlError (TomlValue × Text) :=
  match based? t with
  | some (n, tail) => .ok (.integer n, tail)
  | none =>
    match decimal? t with
    | some found => found
    | none =>
      match specialFloats.find? fun entry => entry.1.toList.isPrefixOf t with
      | some (word, value) => .ok (.float value, t.drop word.toList.length)
      | none => .error .malformed

/-! ## Keys -/

def isBare (c : Char) : Bool :=
  isDecimal c || ('a' ≤ c && c ≤ 'z') || ('A' ≤ c && c ≤ 'Z') || c == '-' || c == '_'

def readKeyPart (t : Text) : Except TomlError (String × Text) :=
  match t with
  | '"' :: rest => do
    let (cs, tail) ← readBasic false (rest.length + 1) rest
    pure (String.ofList cs, tail)
  | '\'' :: rest => do
    let (cs, tail) ← readLiteral false rest
    pure (String.ofList cs, tail)
  | _ =>
    let front := t.takeWhile isBare
    if front.isEmpty then .error .malformed else .ok (String.ofList front, t.drop front.length)

/-- A key of parts divided by dots, and the text after it and its blanks. -/
def readKey : (fuel : Nat) → Text → Except TomlError (List String × Text)
  | 0, _ => .error .malformed
  | fuel + 1, t => do
    let (part, tail) ← readKeyPart t
    match skipSpaces tail with
    | '.' :: rest => do
      let (parts, tail) ← readKey fuel (skipSpaces rest)
      pure (part :: parts, tail)
    | rest => pure ([part], rest)

/-! ## Values -/

def isNested : TomlValue → Bool
  | .array _ | .table _ => true
  | _ => false

mutual

def readValue : (fuel : Nat) → Text → Except TomlError (TomlValue × Text)
  | 0, _ => .error .malformed
  | fuel + 1, t =>
    match t with
    | [] => .error .malformed
    | c :: rest =>
      if c = '"' || c = '\'' then do
        let (cs, tail) ← readString t
        pure (.text (String.ofList cs), tail)
      else if "true".toList.isPrefixOf t then .ok (.bool true, t.drop 4)
      else if "false".toList.isPrefixOf t then .ok (.bool false, t.drop 5)
      else if c = '[' then do
        match ← skipFiller (rest.length + 1) rest with
        | ']' :: tail => pure (.array [], tail)
        | inner => do
          let (items, tail) ← readItems fuel inner
          pure (.array items, tail)
      else if c = '{' then
        match skipSpaces rest with
        | '}' :: tail => .ok (.table [], tail)
        | inner => do
          let (entries, tail) ← readEntries fuel [] [] inner
          pure (.table entries, tail)
      else
        match moment? t with
        | some (.error e) => .error e
        | some (.ok tail) =>
          .ok (.moment (String.ofList (t.take (t.length - tail.length))), tail)
        | none => readNumber t

def readItems : (fuel : Nat) → Text → Except TomlError (List TomlValue × Text)
  | 0, _ => .error .malformed
  | fuel + 1, t => do
    let (item, tail) ← readValue fuel t
    match ← skipFiller (tail.length + 1) tail with
    | ']' :: tail => pure ([item], tail)
    | ',' :: tail => do
      match ← skipFiller (tail.length + 1) tail with
      | ']' :: tail => pure ([item], tail)
      | inner => do
        let (items, tail) ← readItems fuel inner
        pure (item :: items, tail)
    | _ => .error .malformed

/-- The entries of an inline table up to its closing brace. Nothing may be added below the keys in
`frozen`. -/
def readEntries : (fuel : Nat) → (frozen : List (List String)) → TomlTable → Text →
    Except TomlError (TomlTable × Text)
  | 0, _, _, _ => .error .malformed
  | fuel + 1, frozen, made, t => do
    let (key, tail) ← readKey (t.length + 1) t
    match tail with
    | '=' :: tail => do
      let (value, tail) ← readValue fuel (skipSpaces tail)
      if frozen.any (·.isPrefixOf key) then .error .malformed
      else
        let place := TomlTable.setNew (key.getLast?.getD "") value
        match TomlTable.change false place key.dropLast made with
        | none => .error .malformed
        | some made =>
          match skipSpaces tail with
          | '}' :: tail => pure (made, tail)
          | ',' :: tail =>
            let frozen := if value.isNested then key :: frozen else frozen
            readEntries fuel frozen made (skipSpaces tail)
          | _ => .error .malformed
    | _ => .error .malformed

end

/-! ## Documents -/

/-- What may no longer be done below a path of keys. -/
inductive Mark where
  /-- The table has been opened and may not be opened again. -/
  | opened
  /-- The value is written inline, and nothing in it may be changed. -/
  | frozen
  deriving DecidableEq

/-- The state of reading a document. -/
structure Document where
  tables : TomlTable := []
  /-- The marks set so far. A frozen path freezes everything below it. -/
  marks : List (List String × Mark) := []
  /-- Tables made by dotted keys, which count as opened from the next header on. -/
  pending : List (List String) := []
  /-- The table that the last header opened. -/
  header : List String := []

namespace Document

def isOpened (d : Document) (key : List String) : Bool :=
  !key.isEmpty && d.marks.any fun entry => entry.2 = .opened && entry.1 == key

def isFrozen (d : Document) (key : List String) : Bool :=
  d.marks.any fun entry => entry.2 = .frozen && entry.1.isPrefixOf key

/-- The document before a header: tables made by dotted keys are now opened. -/
def settle (d : Document) : Document :=
  { d with marks := d.marks ++ d.pending.map (·, .opened), pending := [] }

def openTable (d : Document) (key : List String) : Option Document :=
  if d.isOpened key || d.isFrozen key then none
  else
    (TomlTable.change true some key d.tables).map fun tables =>
      { d with tables, marks := d.marks ++ [(key, .opened)], header := key }

/-- Append a table to an array of tables. What was said about the tables below the array no longer
holds for the new one. -/
def openItem (d : Document) (key : List String) : Option Document :=
  if d.isFrozen key then none
  else
    (TomlTable.change true (TomlTable.appendTable (key.getLast?.getD "")) key.dropLast d.tables).map
      fun tables =>
        { d with
          tables
          marks := (d.marks.filter fun entry => !key.isPrefixOf entry.1) ++ [(key, .opened)]
          header := key }

/-- The paths of the tables between the header and the last part of a key. -/
def between (header key : List String) : List (List String) :=
  (List.range (key.length - 1)).map fun i => header ++ key.take (i + 1)

def assign (d : Document) (key : List String) (value : TomlValue) : Option Document :=
  let inner := between d.header key
  let parent := d.header ++ key.dropLast
  if inner.any d.isOpened || d.isFrozen parent then none
  else
    (TomlTable.change true (TomlTable.setNew (key.getLast?.getD "") value) parent d.tables).map
      fun tables =>
        { d with
          tables
          pending := d.pending ++ inner
          marks := if value.isNested then d.marks ++ [(d.header ++ key, .frozen)] else d.marks }

end Document

def orMalformed {α : Type} : Option α → Except TomlError α
  | some a => .ok a
  | none => .error .malformed

/-- One statement at the front, which is neither blank nor a comment. -/
def readStatement (d : Document) (t : Text) : Except TomlError (Document × Text) :=
  match t with
  | '[' :: '[' :: rest => do
    let (key, tail) ← readKey (t.length + 1) (skipSpaces rest)
    let d ← orMalformed (d.settle.openItem key)
    match tail with
    | ']' :: ']' :: tail => pure (d, tail)
    | _ => .error .malformed
  | '[' :: rest => do
    let (key, tail) ← readKey (t.length + 1) (skipSpaces rest)
    let d ← orMalformed (d.settle.openTable key)
    match tail with
    | ']' :: tail => pure (d, tail)
    | _ => .error .malformed
  | _ => do
    let (key, tail) ← readKey (t.length + 1) t
    match tail with
    | '=' :: tail => do
      let (value, tail) ← readValue (t.length + 1) (skipSpaces tail)
      let d ← orMalformed (d.assign key value)
      pure (d, tail)
    | _ => .error .malformed

def readStatements : (fuel : Nat) → Document → Text → Except TomlError TomlTable
  | 0, _, _ => .error .malformed
  | fuel + 1, d, t =>
    match skipSpaces t with
    | [] => .ok d.tables
    | '\n' :: rest => readStatements fuel d rest
    | t => do
      let (d, tail) ← match t with
        | '#' :: _ => pure (d, t)
        | _ => readStatement d t
      match ← skipComment (skipSpaces tail) with
      | [] => pure d.tables
      | '\n' :: rest => readStatements fuel d rest
      | _ => .error .malformed

/-- A carriage return in front of a line feed is dropped. -/
def unifyNewlines : Text → Text
  | '\r' :: '\n' :: rest => '\n' :: unifyNewlines rest
  | c :: rest => c :: unifyNewlines rest
  | [] => []

def read (t : Text) : Except TomlError TomlTable :=
  let t := unifyNewlines t
  readStatements (t.length + 1) {} t

end TomlValue

end ChainGuard
