import ChainGuard.CommandLine.Arguments
import ChainGuard.Console
import ChainGuard.Project.Fix
import ChainGuard.Settings

/-!
# The command line

Two commands: `fix` fixes a project, and `undo` takes the last fix back.

A command line that is refused shows the usage of its command and ends with status 2. A project that
cannot be loaded and a compiler that cannot be run are told in one message and end with status 1.
Every other failure escapes, also with status 1.
-/

namespace ChainGuard.CommandLine

/-! ## Commands and their options -/

/-- An option of any command. -/
inductive Key where
  | project
  | directory
  | dry
  | codes
  | maxPasses
  | compiler
  | diff
  | noBackup
  | verbose
  | list
  | target
  | version
  | help
  deriving DecidableEq

def helpOption : OptionSpec Key :=
  { key := .help, names := ["--help"] }

def groupOptions : List (OptionSpec Key) :=
  [{ key := .version, names := ["--version"] }, helpOption]

def fixOptions : List (OptionSpec Key) :=
  [{ key := .project, names := ["--project", "-p"], takesValue := true },
    { key := .directory, names := ["--dir"], takesValue := true },
    { key := .dry, names := ["--dry"] },
    { key := .codes, names := ["--codes"], takesValue := true },
    { key := .maxPasses, names := ["--max-passes", "--maxPasses"], takesValue := true },
    { key := .compiler, names := ["--tsc"], takesValue := true },
    { key := .diff, names := ["--diff"] },
    { key := .noBackup, names := ["--no-backup"] },
    { key := .verbose, names := ["--verbose", "-v"] },
    helpOption]

def undoOptions : List (OptionSpec Key) :=
  [{ key := .list, names := ["--list"] },
    { key := .target, names := ["--target", "-t"], takesValue := true },
    helpOption]

/-! ## The arguments of `fix` -/

/-- What `fix` is told. -/
structure FixArguments where
  project : String := "./tsconfig.json"
  directory : Option String := none
  dry : Bool := false
  codes : Option (List Int) := none
  maxPasses : Option Int := none
  compiler : Option String := none
  diff : Bool := false
  noBackup : Bool := false
  verbose : Bool := false

/-- An action that may also refuse the command line. -/
abbrev Checked := ExceptT UsageError Action

def checkCodes (value : String) : Except UsageError (List Int) :=
  (parseCodes value.toList).mapError fun _ =>
    .invalidValue ["--codes"] "expected a comma separated list of numbers, e.g. 2532,18048"

/-- The number of passes in an argument, which is at least one. -/
def checkPasses (value : String) : Except UsageError Int :=
  let wrong (reason : String) : Except UsageError Int :=
    .error (.invalidValue ["--max-passes", "--maxPasses"] reason)
  match Text.toInteger value.toList with
  | .error _ => wrong s!"{quote value} is not a valid integer range."
  | .ok n => if n < 1 then wrong s!"{n} is not in the range x>=1." else .ok n

def checkDirectory (value : String) : Action (Except UsageError String) := do
  if value.toList.contains '\x00' then throw .nullInName
  else
    let w ← get
    match w.disk.find? w.cwd value with
    | .ok (_, .file _) =>
      pure (.error (.invalidValue ["--dir"] s!"Directory {quote value} is a file."))
    | _ => pure (.ok value)

def FixArguments.adopt (a : FixArguments) (given : Arguments.Given Key) : Checked FixArguments :=
  match given.key, given.value with
  | .project, some value => pure { a with project := value }
  | .directory, some value => do
    let directory ← ExceptT.mk (checkDirectory value)
    pure { a with directory := some directory }
  | .codes, some value => do
    let codes ← ExceptT.mk (pure (checkCodes value))
    pure { a with codes := some codes }
  | .maxPasses, some value => do
    let passes ← ExceptT.mk (pure (checkPasses value))
    pure { a with maxPasses := some passes }
  | .compiler, some value => pure { a with compiler := some value }
  | .dry, _ => pure { a with dry := true }
  | .diff, _ => pure { a with diff := true }
  | .noBackup, _ => pure { a with noBackup := true }
  | .verbose, _ => pure { a with verbose := true }
  | _, _ => pure a

/-! ## `fix` -/

/-- The compiler that the arguments or the settings choose. An empty argument chooses nothing. -/
def chooseCompiler (argument : Option String) (setting : Option TomlValue) : CompilerChoice :=
  match argument.filter (· != "") with
  | some value => .line value
  | none => (setting.map CompilerChoice.ofSetting).getD .nearest

/-- Print what comes out, and fail if no more does. -/
def put (output : Console.Output) : Action Unit := do
  let (printed, e) := output.printed
  Action.print printed
  match e with
  | some e => throw (.uncroppable e)
  | none => pure ()

def passRow (r : Report) : Console.PassRow :=
  ⟨r.number, r.diagnostics, r.editsApplied, r.skipped, r.filesChanged.length⟩

def summaryOf (r : FixResult) : Console.Summary :=
  ⟨r.totalChanges, r.passes, r.changed.length, r.dry, r.backup.map Path.render⟩

/-- What `fix` is asked to do, by its arguments and the settings of the project. -/
def requestOf (a : FixArguments) (config : Path) (settings : Settings) (directory : Option Path) :
    FixRequest :=
  { config
    directory
    choice := chooseCompiler a.compiler settings.compiler
    dry := a.dry
    codes := a.codes.getD settings.codes
    maxPasses := a.maxPasses.getD settings.maxPasses
    backup := settings.backup && !a.noBackup }

def fix (a : FixArguments) : Action Unit := do
  let config ← Action.resolve (Path.ofString a.project)
  let home := if ← Action.isDirectory config then config else config.parent
  let settings ← Settings.load home
  let directory ← match a.directory with
    | some directory =>
      if directory = "" then pure none else some <$> Action.resolve (Path.ofString directory)
    | none => pure none
  let result ← (requestOf a config settings directory).run
  if a.verbose && !result.reports.isEmpty then
    put (Console.passTable (result.reports.map passRow))
  if a.diff then put (Console.diffs result.changed)
  put (Console.summary (summaryOf result))

/-! ## `undo` -/

def printSessions : List Path → Action Unit
  | [] => pure ()
  | session :: rest => do
    let entries ← Backup.entries session
    put (Console.line s!"  {session.name}  {entries.length} file(s)")
    printSessions rest

def listBackups (project : Path) : Action Unit := do
  match ← Backup.sessions project with
  | [] => put (Console.line "\n  No backups found.\n")
  | sessions =>
    put (Console.line "\n  Backup sessions\n")
    printSessions sessions
    put (Console.line "")

/-- Undo the last fix of a project and print the files written back. -/
def undo (project : Path) : Action Unit := do
  match ← Backup.undo project with
  | [] => put (Console.line "\n  No fix session to undo.\n")
  | restored =>
    put (Console.line "\n  Restored:\n")
    put (restored.flatMap fun entry => Console.restoredLine entry.file.render)
    put (Console.line "")

/-! ## Running a command line -/

def program : String := "cli"

def version : String := "0.1.0"

/-- A command: how it is called, and what may follow. -/
structure Usage where
  path : String
  rest : String

namespace Usage

def group : Usage := ⟨program, "[OPTIONS] COMMAND [ARGS]..."⟩

def ofCommand (name : String) : Usage := ⟨program ++ " " ++ name, "[OPTIONS]"⟩

def line (u : Usage) : String :=
  s!"Usage: {u.path} {u.rest}\n"

def refuse (u : Usage) (e : UsageError) : String :=
  let head := if e.showsUsage then s!"{u.line}Try '{u.path} --help' for help.\n\n" else ""
  head ++ s!"Error: {e.message}\n"

end Usage

/-- What to do, and whether log entries are shown. -/
structure Plan where
  verbose : Bool := false
  run : Action Unit

def Plan.showUsage (u : Usage) : Plan :=
  { run := Action.print u.line.toList }

/-- The plan of a command with options only: show the usage if asked to, check the options, refuse
words. -/
def withOptions (name : String) (options : List (OptionSpec Key)) (arguments : List String)
    (check : List (Arguments.Given Key) → Checked Plan) : Checked Plan := do
  let (given, words) ← ExceptT.mk (pure (Arguments.read options true arguments))
  let given := Arguments.settle given
  if given.any (·.key = .help) then pure (.showUsage (.ofCommand name))
  else
    let plan ← check given
    if words.isEmpty then pure plan else throw (.unexpectedWords words)

def planFix (arguments : List String) : Checked Plan :=
  withOptions "fix" fixOptions arguments fun given => do
    let a ← given.foldlM FixArguments.adopt {}
    pure { verbose := a.verbose, run := fix a }

def planUndo (arguments : List String) : Checked Plan :=
  withOptions "undo" undoOptions arguments fun given => do
    let target := ((given.find? (·.key = .target)).bind Arguments.Given.value).getD "."
    let list := given.any (·.key = .list)
    pure
      { run := do
          let project ← Action.resolve (Path.ofString target)
          if list then listBackups project else undo project }

/-- A command: its name, and the plan of its arguments. -/
structure Command where
  name : String
  plan : List String → Checked Plan

def commands : List Command :=
  [⟨"fix", planFix⟩, ⟨"undo", planUndo⟩]

/-- The plan that the options before a command ask for, and the words behind them. -/
def planGroup (arguments : List String) : Except UsageError (Option Plan × List String) := do
  let (given, words) ← Arguments.read groupOptions false arguments
  match given.head? with
  | some ⟨.version, _⟩ =>
    pure (some { run := Action.print s!"chainfix, version {version}\n".toList }, words)
  | some _ => pure (some (.showUsage .group), words)
  | none => pure (none, words)

/-- The plan of words that start with no command. A word that looks like an option, and became a
word only behind `--`, is taken for one after all. -/
def planUnknown (name : String) (words : List String) : Except UsageError Plan := do
  match ← planGroup words with
  | (some plan, _) => pure plan
  | (none, _) => throw (.unknownCommand name (Arguments.close (commands.map Command.name) name))

/-- The plan of a command line, or the usage it violates and how. -/
def plan (arguments : List String) : Action (Except (Usage × UsageError) Plan) :=
  let refuse (e : UsageError) : Usage × UsageError := (.group, e)
  match planGroup arguments with
  | .error e => pure (.error (refuse e))
  | .ok (some plan, _) => pure (.ok plan)
  | .ok (none, []) =>
    pure (if arguments.isEmpty then .ok (.showUsage .group) else .error (refuse .missingCommand))
  | .ok (none, name :: rest) =>
    match commands.find? (·.name = name) with
    | some command => do
      pure ((← (command.plan rest).run).mapError fun e => (.ofCommand name, e))
    | none => pure ((planUnknown name (name :: rest)).mapError refuse)

/-- What a command line comes to. -/
structure Outcome where
  status : Nat
  output : Text
  errors : Text
  /-- The failure that was not told to the user. -/
  escaped : Option Failure

def noteLine (n : Note) : Text :=
  let level := match n.level with
    | .debug => "DEBUG"
    | .info => "INFO"
  s!"{level} {n.source}: {n.text}\n".toList

/-- The outcome of a command that left the host in a state. -/
def outcomeOf (verbose : Bool) (result : Except Failure Unit) (w : Host) : Outcome :=
  let log := if verbose then w.log.flatMap noteLine else []
  match result with
  | .ok () => ⟨0, w.output, log, none⟩
  | .error failure =>
    if failure.isForUser then
      let (told, e) := (Console.Message.between "" failure.message "[/red]").print.printed
      ⟨1, w.output, log ++ told, e.map .uncroppable⟩
    else ⟨1, w.output, log, some failure⟩

def run (arguments : List String) (w : Host) : Outcome × Host :=
  let w := { w with log := [], output := [] }
  match (plan arguments).runIn w with
  | (.error failure, w) => (outcomeOf false (.error failure) w, w)
  | (.ok (.error (usage, e)), w) =>
    (⟨2, [], Console.dropStyles (usage.refuse e).toList, none⟩, w)
  | (.ok (.ok plan), w) =>
    let (result, w) := plan.run.runIn w
    (outcomeOf plan.verbose result w, w)

end ChainGuard.CommandLine
