import ChainGuard.Diagnostic
import ChainGuard.Host
import ChainGuard.TomlValue.Reader

/-!
# Settings

The settings of a project, as its settings file gives them, and lists of diagnostic codes as the
command line gives them.

The reader of settings is lenient. A section may be any value that can be asked for a key: a table
has its keys, a list has its texts, a text has its parts, but only a table gives a value back. A
number may be written as a text, a float loses its fraction, and any value that is not empty or zero
counts as true.
-/

namespace ChainGuard

/-! ## Lists of codes -/

/-- The letters whose capital form starts with `S`. -/
def Text.capitalS : List Char :=
  ['s', 'S', 'ß', 'ſ', 'ﬅ', 'ﬆ']

/-- The text without the mark `TS` in front, in letters of either case. -/
def Text.dropCodeMark (t : Text) : Text :=
  match t with
  | a :: b :: rest => if (a = 't' || a = 'T') && capitalS.contains b then rest else t
  | _ => t

def insertDistinct (n : Int) : List Int → List Int
  | [] => [n]
  | m :: ms => if n < m then n :: m :: ms else if n = m then m :: ms else m :: insertDistinct n ms

/-- The code that one part of a list stands for. A blank part stands for none. -/
def codeOfPart (part : Text) : Except IntegerError (Option Int) :=
  let part := part.trim
  if part.isEmpty then .ok none else (part.dropCodeMark.toInteger).map some

/-- The codes of a list divided by commas, in ascending order and without repetition. -/
def parseCodes (t : Text) : Except IntegerError (List Int) := do
  let codes ← (Text.splitOnChar ',' t).mapM codeOfPart
  pure ((codes.filterMap id).foldr insertDistinct [])

/-! ## Values as settings -/

namespace TomlValue

/-- The value of a key in a section. Asking fails where a value of that kind cannot be asked, and
also where it can be asked, knows the key, and has no value for it. -/
def setting? (key : String) : TomlValue → Except Failure (Option TomlValue)
  | .table entries => .ok (Dict.get? entries key)
  | .array items =>
    if items.any (fun item => match item with
      | .text s => s == key
      | _ => false) then .error .wrongKind
    else .ok none
  | .text s => if Text.holds key.toList s.toList then .error .wrongKind else .ok none
  | _ => .error .wrongKind

def toInteger : TomlValue → Except Failure Int
  | .integer i => .ok i
  | .bool b => .ok (if b then 1 else 0)
  | .float (.finite negative mantissa exponent) =>
    .ok (Binary64.truncate negative mantissa exponent)
  | .float (.infinite _) => .error .infiniteNumber
  | .float .nan => .error .notANumber
  | .text s => (Text.toInteger s.toList).mapError .integer
  | .moment _ | .array _ | .table _ => .error .wrongKind

def isTrue : TomlValue → Bool
  | .text s => s != ""
  | .integer i => i != 0
  | .float f => !f.isZero
  | .bool b => b
  | .moment _ => true
  | .array items => !items.isEmpty
  | .table entries => !entries.isEmpty

/-- The items of a value: those of a list, the characters of a text, the keys of a table. -/
def items : TomlValue → Except Failure (List TomlValue)
  | .array items => .ok items
  | .text s => .ok (s.toList.map fun c => .text (String.ofList [c]))
  | .table entries => .ok (entries.map fun entry => .text entry.1)
  | _ => .error .wrongKind

end TomlValue

/-! ## The settings -/

/-- The settings of a project. -/
structure Settings where
  codes : List Int := Diagnostic.defaultCodes
  maxPasses : Int := 10
  backup : Bool := true
  /-- How to run the compiler, if the settings say so. -/
  compiler : Option TomlValue := none

namespace Settings

/-- The name of the settings file in the directory of a project. -/
def fileName : String := "chainfix.toml"

def adopt (section_ : TomlValue) (key : String) (s : Settings)
    (use : Settings → TomlValue → Except Failure Settings) : Except Failure Settings := do
  match ← section_.setting? key with
  | some value => use s value
  | none => pure s

/-- Adopt the section on fixing. -/
def adoptFix (s : Settings) (section_ : TomlValue) : Except Failure Settings := do
  let s ← adopt section_ "codes" s fun s v => do
    let codes ← (← v.items).mapM TomlValue.toInteger
    pure { s with codes }
  let s ← adopt section_ "max_passes" s fun s v => do
    let maxPasses ← v.toInteger
    pure { s with maxPasses }
  adopt section_ "backup" s fun s v => pure { s with backup := v.isTrue }

def adoptFrontend (s : Settings) (section_ : TomlValue) : Except Failure Settings :=
  adopt section_ "tsc" s fun s v => pure { s with compiler := some v }

def ofTable (file : TomlTable) : Except Failure Settings := do
  let s : Settings := {}
  let s ← match file.get? "fix" with
    | some section_ => s.adoptFix section_
    | none => pure s
  match file.get? "frontend" with
  | some section_ => s.adoptFrontend section_
  | none => pure s

def failureOf : TomlError → Failure
  | .malformed => .malformedSettings
  | .number error => .integer error

def ofText (t : Text) : Except Failure Settings := do
  let table ← (TomlValue.read t).mapError failureOf
  ofTable table

/-- The settings in a directory. Without a settings file they are the default settings. -/
def load (directory : Path) : Action Settings := do
  let file := directory.child fileName
  if ← Action.exists? file then Action.lift (ofText (← Action.readText file.render))
  else pure {}

end Settings

end ChainGuard
