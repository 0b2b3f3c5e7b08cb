import ChainGuard.JsonValue
import ChainGuard.Text

namespace ChainGuard

/-- A diagnostic of the compiler. Offsets count characters. -/
structure Diagnostic where
  code : Int
  file : Option String
  offset : Option Int
  message : Text := []
  deriving DecidableEq

/-- A place in a file about which the compiler complains. -/
structure Site where
  code : Int
  file : String
  offset : Int
  deriving DecidableEq

namespace Diagnostic

/-- The codes worked on by default: the object is possibly null or undefined (2531, 2532, 2533), the
named value is possibly undefined (18048), the invoked value is possibly undefined (2722). -/
def defaultCodes : List Int :=
  [2531, 2532, 2533, 2722, 18048]

/-- The place of a diagnostic, if its code is one of `codes` and it names a place. -/
def site? (codes : List Int) (d : Diagnostic) : Option Site :=
  if codes.contains d.code then
    match d.file, d.offset with
    | some file, some offset => some ⟨d.code, file, offset⟩
    | _, _ => none
  else none

end Diagnostic

/-- Settings of a compiler run: the project configuration to start from, and options on top of
it. -/
structure CompilerConfig where
  base : Option String := none
  options : Dict JsonValue := []

/-- The current text of every file, by name. -/
abbrev Files := Dict Text

end ChainGuard
