import ChainGuard.Diff.Matching
import ChainGuard.Text.Quoted

/-!
# Arguments of a command

Arguments are options and words. An option has long names (`--name`) and short ones (`-n`). Its
value follows in the next argument, after `=`, or right behind a short name; short names without
values can be written together. After `--` everything is a word.

`Arguments.read` reads the arguments for a list of options. The first fault counts.
-/

namespace ChainGuard

/-- An option of a command. -/
structure OptionSpec (κ : Type) where
  key : κ
  names : List String
  takesValue : Bool := false

/-- Why a command line is refused. -/
inductive UsageError where
  /-- There is no such option, but there are the close ones. -/
  | unknownOption (name : String) (close : List String)
  /-- The option lacks its value. -/
  | missingValue (name : String)
  /-- The option takes no value, but has one. -/
  | unexpectedValue (name : String)
  /-- The command takes no words, but has some. -/
  | unexpectedWords (words : List String)
  /-- The value of an option is wrong. -/
  | invalidValue (names : List String) (reason : String)
  | missingCommand
  /-- There is no such command, but there are the close ones. -/
  | unknownCommand (name : String) (close : List String)
  deriving DecidableEq

namespace UsageError

def suggestion : List String → String
  | [] => ""
  | [name] => s!" Did you mean {quote name}?"
  | names =>
    let sorted := names.mergeSort fun a b => decide (a ≤ b)
    " (Did you mean one of: " ++ String.intercalate ", " (sorted.map quote) ++ "?)"

def message : UsageError → String
  | unknownOption name close => s!"No such option {quote name}." ++ suggestion close
  | missingValue name => s!"Option {quote name} requires an argument."
  | unexpectedValue name => s!"Option {quote name} does not take a value."
  | unexpectedWords words =>
    let noun := if words.length = 1 then "argument" else "arguments"
    s!"Got unexpected extra {noun} (" ++ String.intercalate " " words ++ ")"
  | invalidValue names reason =>
    "Invalid value for " ++ String.intercalate " / " (names.map quote) ++ ": " ++ reason
  | missingCommand => "Missing command."
  | unknownCommand name close => s!"No such command {quote name}." ++ suggestion close

/-- The error is shown with the usage of the command. -/
def showsUsage : UsageError → Bool
  | missingValue _ | unexpectedValue _ => false
  | _ => true

end UsageError

namespace Arguments

/-! ## Close names -/

/-- The number of characters in common blocks of two names. -/
def common (a b : String) : Nat :=
  (Matching.blocks a.toList b.toList).foldl (fun n block => n + block.size) 0

/-- The first two names have at least as large a share in common as the last two, of names of the
given lengths in all. -/
def atLeast (common₁ length₁ common₂ length₂ : Nat) : Bool :=
  common₂ * length₁ ≤ common₁ * length₂

/-- The first of two names comes before the second: it has more in common, or as much and the
greater name. Each name stands with the number of common characters and the length of both names. -/
def closer (a b : String × Nat × Nat) : Bool :=
  if atLeast a.2.1 a.2.2 b.2.1 b.2.2 && atLeast b.2.1 b.2.2 a.2.1 a.2.2 then decide (b.1 ≤ a.1)
  else atLeast a.2.1 a.2.2 b.2.1 b.2.2

/-- The up to three names closest to a mistyped one, of those that share three fifths of their
characters with it. -/
def close (names : List String) (typed : String) : List String :=
  let rated := names.map fun name => (name, common name typed, name.length + typed.length)
  let near := rated.filter fun r => atLeast (2 * r.2.1) r.2.2 3 5
  ((near.mergeSort closer).take 3).map Prod.fst

/-! ## Reading -/

variable {κ : Type}

/-- An option as it is given, with its value. -/
structure Given (κ : Type) where
  key : κ
  value : Option String := none

/-- The name is a short one: a dash and one character. -/
def isShort (name : String) : Bool :=
  match name.toList with
  | ['-', c] => c != '-'
  | _ => false

def find? (options : List (OptionSpec κ)) (name : String) : Option (OptionSpec κ) :=
  options.find? (·.names.contains name)

def longNames (options : List (OptionSpec κ)) : List String :=
  (options.flatMap OptionSpec.names).filter fun name => !isShort name

/-- What an argument gives: options, and at last perhaps one whose value is the next argument. -/
structure Reading (κ : Type) where
  given : List (Given κ) := []
  pending : Option (κ × String) := none

/-- Read a long option, with the value behind `=`, if there is one. -/
def readLong (o : OptionSpec κ) (name : String) (value : Option String) :
    Except UsageError (Reading κ) :=
  match o.takesValue, value with
  | true, some _ => .ok { given := [⟨o.key, value⟩] }
  | true, none => .ok { pending := some (o.key, name) }
  | false, some _ => .error (.unexpectedValue name)
  | false, none => .ok { given := [⟨o.key, none⟩] }

def readShort (options : List (OptionSpec κ)) : Text → Except UsageError (Reading κ)
  | [] => .ok {}
  | c :: rest =>
    let name := String.ofList ['-', c]
    match find? options name with
    | none => .error (.unknownOption name [])
    | some o =>
      if o.takesValue then
        if rest.isEmpty then .ok { pending := some (o.key, name) }
        else .ok { given := [⟨o.key, some (String.ofList rest)⟩] }
      else do
        let more ← readShort options rest
        pure { more with given := ⟨o.key, none⟩ :: more.given }

/-- Read one argument that is an option. A name that is no long one is taken for short ones, unless
it starts with two dashes. -/
def readOption (options : List (OptionSpec κ)) (argument : Text) : Except UsageError (Reading κ) :=
  let name := String.ofList (argument.takeWhile (· != '='))
  let value := if argument.contains '=' then
      some (String.ofList ((argument.dropWhile (· != '=')).drop 1))
    else none
  match if isShort name then none else find? options name with
  | some o => readLong o name value
  | none =>
    if ['-', '-'].isPrefixOf argument then
      .error (.unknownOption name (close (longNames options) name))
    else readShort options (argument.drop 1)

def isOption (argument : Text) : Bool :=
  match argument with
  | '-' :: _ :: _ => true
  | _ => false

/-- Read arguments into options and words. Options may follow words only where `mixed` says so. -/
def read (options : List (OptionSpec κ)) (mixed : Bool) :
    List String → Except UsageError (List (Given κ) × List String)
  | [] => .ok ([], [])
  | argument :: rest =>
    if argument = "--" then .ok ([], rest)
    else if isOption argument.toList then do
      let reading ← readOption options argument.toList
      match reading.pending with
      | none =>
        let (given, words) ← read options mixed rest
        pure (reading.given ++ given, words)
      | some (key, name) =>
        match rest with
        | [] => .error (.missingValue name)
        | value :: rest =>
          let (given, words) ← read options mixed rest
          pure (reading.given ++ ⟨key, some value⟩ :: given, words)
    else if mixed then do
      let (given, words) ← read options mixed rest
      pure (given, argument :: words)
    else .ok ([], argument :: rest)

/-- Every option once, in the order of first sight, with the value given last. -/
def settle [DecidableEq κ] (given : List (Given κ)) : List (Given κ) :=
  let keys := (given.map Given.key).eraseDups
  keys.map fun key => ⟨key, (given.reverse.find? (·.key = key)).bind Given.value⟩

end Arguments

end ChainGuard
