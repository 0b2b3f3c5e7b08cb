import ChainGuard.Disk
import ChainGuard.JsonValue.Reader
import ChainGuard.Text.Glyph
import ChainGuard.Text.Words

/-!
# Failures

Everything that can stop an operation, as a cause. The wording of each cause stands in one place,
`Failure.message`.

Two causes are meant for the user of the command line and are shown without further ado: the
configuration of the project is wrong, or the compiler cannot be run.
-/

namespace ChainGuard

/-- Why an operation stops. -/
inductive Failure where
  /-- The configuration of the project is missing or wrong. -/
  | projectConfig (message : String)
  /-- The compiler cannot be found or run. -/
  | compiler (message : String)
  /-- The disk refuses an operation. -/
  | disk (error : DiskError)
  /-- A name holds a null character. -/
  | nullInName
  /-- Bytes are no text. -/
  | undecodable (error : Utf8Error)
  /-- A text is no integer. -/
  | integer (error : IntegerError)
  /-- A text is no command line. -/
  | words (error : WordsError)
  /-- A text is no JSON. -/
  | json (error : JsonError)
  /-- The settings are no TOML. -/
  | malformedSettings
  /-- An infinite number has no integer part. -/
  | infiniteNumber
  /-- A float that is no number has no integer part. -/
  | notANumber
  /-- A value is of a kind that cannot be used in its place. -/
  | wrongKind
  /-- A value has no members. -/
  | notAnObject
  /-- A key that has to be there is missing. -/
  | missingKey (key : String)
  /-- Absolute and relative paths have no directory in common. -/
  | mixedPaths
  /-- A line cannot be cropped to the console. -/
  | uncroppable (error : CropError)
  deriving DecidableEq

namespace Failure

def message : Failure → String
  | projectConfig message | compiler message => message
  | disk error => error.message
  | nullInName => "embedded null byte"
  | undecodable error => error.message
  | integer error => error.message
  | words error => error.message
  | json error => error.message
  | malformedSettings => "Invalid TOML"
  | infiniteNumber => "cannot convert float infinity to integer"
  | notANumber => "cannot convert float NaN to integer"
  | wrongKind => "a value of another kind was expected"
  | notAnObject => "an object was expected"
  | missingKey key => quote key
  | mixedPaths => "Can't mix absolute and relative paths"
  | uncroppable .tooFewCells => "list index out of range"
  | uncroppable .noCells => "division by zero"

/-- The failure is one that the command line shows to its user. -/
def isForUser : Failure → Bool
  | projectConfig _ | compiler _ => true
  | _ => false

end Failure

end ChainGuard
