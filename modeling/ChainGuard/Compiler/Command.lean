import ChainGuard.Failure
import ChainGuard.TomlValue

namespace ChainGuard

/-- How the compiler is chosen. -/
inductive CompilerChoice where
  /-- Look for it. -/
  | nearest
  /-- Run this command line. -/
  | line (text : String)
  /-- Run these words. -/
  | words (command : List String)
  /-- The choice is a value that can be no command. -/
  | unusable
  deriving DecidableEq

namespace CompilerChoice

/-- The words of a list of values, if all of them are texts. -/
def ofItems (items : List TomlValue) : CompilerChoice :=
  let word? : TomlValue → Option String
    | .text s => some s
    | _ => none
  match items.mapM word? with
  | some command => words command
  | none => unusable

/-- The choice that a setting makes. The keys of a table are words. -/
def ofSetting : TomlValue → CompilerChoice
  | .text s => line s
  | .array items => ofItems items
  | .table entries => words (entries.map Prod.fst)
  | _ => unusable

/-- The command, unless the compiler has to be looked for. -/
def command? : CompilerChoice → Except Failure (Option (List String))
  | nearest => .ok none
  | line text =>
    match Text.words text.toList with
    | .ok parts => .ok (some (parts.map String.ofList))
    | .error e => .error (.words e)
  | words command => .ok (some command)
  | unusable => .error .wrongKind

end CompilerChoice

end ChainGuard
