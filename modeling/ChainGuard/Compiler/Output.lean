import ChainGuard.Diagnostic
import ChainGuard.Failure
import ChainGuard.Path
import ChainGuard.Position
import ChainGuard.Text.Lines

/-!
# The compiler's output

The compiler writes a diagnostic a line.

* A located line is `file(line,column): error TScode: message`, with the shortest file that fits.
* A global line is `error TScode: message`.
* Every other line belongs to a message and is ignored.

A code from 5000 up to 5999 concerns the configuration. Such a line makes the whole output a
failure, unless it is located in one of the given files. The failure shows after the last line.
-/

namespace ChainGuard

namespace Diagnostic

def isConfigCode (code : Int) : Bool :=
  5000 ≤ code && code < 6000

end Diagnostic

namespace CompilerOutput

/-! ## Lines -/

/-- The fields of a located line after the file. The numbers are the digits as they were written. -/
structure Place where
  line : Text
  column : Text
  code : Text
  message : Text
  deriving DecidableEq

/-- The fields of a located line. -/
structure Located where
  file : Text
  place : Place
  deriving DecidableEq

def after? (front : Text) (t : Text) : Option Text :=
  if front.isPrefixOf t then some (t.drop front.length) else none

/-- The digits at the front, of which there is at least one, and the rest. -/
def digits? (t : Text) : Option (Text × Text) :=
  let front := t.takeWhile Text.isDigit
  if front.isEmpty then none else some (front, t.dropWhile Text.isDigit)

def errorPart? (t : Text) : Option (Text × Text) := do
  let (code, t) ← digits? (← after? "error TS".toList t)
  pure (code, ← after? ": ".toList t)

/-- The fields at the front of `t`, where the file ends. -/
def place? (t : Text) : Option Place := do
  let (line, t) ← digits? (← after? "(".toList t)
  let (column, t) ← digits? (← after? ",".toList t)
  let (code, message) ← errorPart? (← after? "): ".toList t)
  pure ⟨line, column, code, message⟩

/-- The first place in a text, and the number of characters before it. -/
def firstPlace? : Text → Option (Nat × Place)
  | [] => none
  | c :: rest =>
    match place? (c :: rest) with
    | some found => some (0, found)
    | none => (firstPlace? rest).map fun (n, found) => (n + 1, found)

/-- The fields of a located line. The file has at least one character. -/
def located? : Text → Option Located
  | [] => none
  | c :: rest => (firstPlace? rest).map fun (n, found) => ⟨c :: rest.take n, found⟩

/-! ## Reading -/

/-- What the compiler was given: the directory it ran in, the names behind the files there, and
their texts. -/
structure Context where
  /-- The directory that relative paths start from. -/
  cwd : Path
  /-- The directory the compiler ran in. -/
  directory : Path
  /-- The caller's name of each file, by the path the compiler knows. -/
  names : Dict String
  files : Files

/-- What a line says. -/
inductive Reading where
  | diagnostic (d : Diagnostic)
  | configError
  | nothing

def number (digits : Text) : Except Failure Int :=
  (Text.toInteger digits).mapError .integer

/-- The name that the caller gave to a file of the compiler. -/
def Context.name? (context : Context) (file : Text) : Except Failure (Option String) :=
  if file.contains '\x00' then .error .nullInName
  else
    let path := context.directory.join (Path.ofString (String.ofList file))
    .ok (context.names.get? (Path.resolve context.cwd path).render)

def ofPlace (context : Context) (found : Place) (code : Int) (name : String) :
    Except Failure Diagnostic :=
  match context.files.get? name with
  | none => .error (.missingKey name)
  | some text => do
    let line ← number found.line
    let column ← number found.column
    pure { code, file := some name, message := found.message
           offset := (Position.offset? text line column).map Int.ofNat }

def readLine (context : Context) (line : Text) : Except Failure Reading :=
  match located? line with
  | some found => do
    let code ← number found.place.code
    match ← context.name? found.file with
    | some name => .diagnostic <$> ofPlace context found.place code name
    | none =>
      if Diagnostic.isConfigCode code then pure .configError
      else pure (.diagnostic { code, file := none, offset := none, message := found.place.message })
  | none =>
    match errorPart? line with
    | none => .ok .nothing
    | some (code, _) => do
      let code ← number code
      pure (if Diagnostic.isConfigCode code then .configError else .nothing)

/-- The failure that errors in the configuration amount to. -/
def configFailure? (errors : List Text) : Option Failure :=
  if errors.isEmpty then none
  else some (.projectConfig (String.intercalate "\n" (errors.map String.ofList)))

/-- The diagnostics of the lines up to the first failure, and that failure, where `errors` are the
errors in the configuration so far. -/
def readLines (context : Context) :
    (errors : List Text) → List Text → List Diagnostic × Option Failure
  | errors, [] => ([], configFailure? errors)
  | errors, line :: rest =>
    match readLine context line with
    | .error failure => ([], some failure)
    | .ok (.diagnostic d) =>
      let (ds, failure) := readLines context errors rest
      (d :: ds, failure)
    | .ok .configError => readLines context (errors ++ [line]) rest
    | .ok .nothing => readLines context errors rest

def read (context : Context) (output : Text) : List Diagnostic × Option Failure :=
  readLines context [] output.lines

end CompilerOutput

end ChainGuard
