import ChainGuard.Pass

/-!
# Sessions

A session repeats passes until a pass sees no site, a pass applies no edit, or the limit on passes
is reached. Every pass asks the compiler afresh, since edits move offsets and may bring up
diagnostics further down a chain.

The compiler and the parser are a parameter, `Toolchain m`. They may keep a state, fail, or take
notes, as the monad `m` says. The trees of a pass are parsed once a file.
-/

namespace ChainGuard

/-- What a session reports while it runs. -/
inductive Progress where
  /-- The pass saw no site. -/
  | nothingLeft (number : Nat)
  /-- The site is left to a human. -/
  | leftAlone (site : Site)
  /-- The pass is over. -/
  | passDone (report : Report)
  deriving DecidableEq

/-- The tools a session works with. -/
structure Toolchain (m : Type → Type) where
  /-- The diagnostics for the current texts, the names of the root files and the settings. -/
  collect : Files → List String → CompilerConfig → m (List Diagnostic)
  /-- The syntax tree of a file's text. -/
  parse : String → Text → m Tree
  /-- Take note of the progress. -/
  note : Progress → m Unit

/-- The working state of a run: the texts, the settings, and the account of all passes so far. -/
structure Session where
  files : Files
  codes : List Int := Diagnostic.defaultCodes
  maxPasses : Int := 10
  totalChanges : Nat := 0
  passesRun : Nat := 0
  reports : List Report := []

namespace Session

variable {m : Type → Type} [Monad m]

def record (s : Session) (outcome : Pass.Outcome) : Session :=
  { s with
    files := outcome.files
    totalChanges := s.totalChanges + outcome.report.editsApplied
    passesRun := outcome.report.number
    reports := s.reports ++ [outcome.report] }

def parseAll (tools : Toolchain m) : List (String × Text) → m (Dict Tree)
  | [] => pure []
  | (name, text) :: rest => do
    let tree ← tools.parse name text
    let others ← parseAll tools rest
    pure ((name, tree) :: others)

def noteAll (tools : Toolchain m) : List Site → m Unit
  | [] => pure ()
  | site :: rest => do
    tools.note (.leftAlone site)
    noteAll tools rest

/-- At most `left` further passes, the first of which has the given number. -/
def runFrom (tools : Toolchain m) (roots : List String) (config : CompilerConfig) :
    (left : Nat) → (number : Nat) → Session → m Session
  | 0, _, s => pure s
  | left + 1, number, s => do
    let found ← tools.collect s.files roots config
    let sites := found.filterMap (Diagnostic.site? s.codes)
    if sites.isEmpty then
      tools.note (.nothingLeft number)
      pure s
    else
      let trees ← parseAll tools (Pass.filesToParse s.files sites)
      let outcome := Pass.run number s.files trees sites
      noteAll tools outcome.left
      tools.note (.passDone outcome.report)
      if outcome.report.editsApplied = 0 then pure (s.record outcome)
      else runFrom tools roots config left (number + 1) (s.record outcome)

/-- Run a session to its end. Nothing in the session is reset first. -/
def run (tools : Toolchain m) (roots : List String) (config : CompilerConfig) (s : Session) :
    m Session :=
  runFrom tools roots config s.maxPasses.toNat 1 s

end Session

/-! ## Single sources -/

namespace SourceText

def defaultName : String := "/input.ts"

/-- The options a single source is checked with: strict null checks, so that the diagnostics about
missing values appear. -/
def defaultOptions : Dict JsonValue :=
  [("strict", .bool true), ("noUncheckedIndexedAccess", .bool true), ("target", .text "ESNext"),
    ("module", .text "ESNext"), ("lib", .array [.text "ESNext", .text "DOM"]), ("types", .array [])]

/-- Fix a single text as a project of one file. The given options override the defaults. -/
def fix {m : Type → Type} [Monad m] (tools : Toolchain m) (text : Text) (name : String)
    (options : Dict JsonValue) (codes : List Int) (maxPasses : Int) : m Session :=
  Session.run tools [name] { options := defaultOptions.update options }
    { files := [(name, text)], codes, maxPasses }

end SourceText

end ChainGuard
