import ChainGuard.Compiler
import ChainGuard.JsonValue.Reader

/-!
# Projects

A project is what its configuration says. The compiler itself is asked which files belong to it.

* `Project.load` asks the compiler for the root files of a configuration.
* `Project.select` keeps the files below a directory.
* `Project.readSources` and `Project.writeSources` read and write the texts of files. A file that
  cannot be read is left out.
-/

namespace ChainGuard

/-- A project: its configuration, its root files, and the settings for the compiler. -/
structure Project where
  configPath : Path
  roots : List String
  compiler : CompilerConfig

namespace Project

def directory (p : Project) : Path :=
  p.configPath.parent

/-! ## Loading -/

/-- The path of the configuration that a path stands for. A directory stands for the configuration
in it. -/
def locateConfig (p : Path) : Action Path := do
  let p ← Action.resolve p
  let p := if ← Action.isDirectory p then p.child "tsconfig.json" else p
  if ← Action.isFile p then pure p
  else
    throw (.projectConfig s!"Cannot find a tsconfig.json file at the specified path: {p.render}")

/-- The path of a root file in a directory. -/
def rootPath (directory : Path) : JsonValue → Except Failure String
  | .text name => .ok (Path.absolute directory (Path.ofString name)).render
  | _ => .error .wrongKind

/-- The items of a value: those of a list, the characters of a text, the names of the members of an
object. -/
def items : JsonValue → Except Failure (List JsonValue)
  | .array items => .ok items
  | .text s => .ok (s.toList.map fun c => .text (String.ofList [c]))
  | .object members => .ok (members.map fun member => .text member.1)
  | _ => .error .wrongKind

/-- The root files in the configuration that the compiler shows. -/
def rootsOf (directory : Path) : JsonValue → Except Failure (List String)
  | .object members =>
    match Dict.get? members "files" with
    | none => .ok []
    | some files => do (← items files).mapM (rootPath directory)
  | _ => .error .notAnObject

def showConfig (choice : CompilerChoice) (configPath : Path) : Action JsonValue := do
  let command ← Compiler.resolveCommand choice (some configPath.parent)
  let finished ← Compiler.run command ["-p", configPath.render, "--showConfig"] configPath.parent
  if finished.status ≠ 0 then
    let message := (finished.output ++ finished.errors).trim
    throw (.projectConfig
      (if message = [] then s!"tsc --showConfig failed for {configPath.render}"
        else String.ofList message))
  else
    match ← Action.readJson finished.output with
    | .ok value => pure value
    | .error e =>
      if e.isSyntax then
        throw (.projectConfig
          s!"Unreadable tsc --showConfig output for {configPath.render}: {e.message}")
      else throw (.json e)

def load (config : Path) (choice : CompilerChoice) : Action Project := do
  let configPath ← locateConfig config
  let shown ← showConfig choice configPath
  let roots ← Action.lift (rootsOf configPath.parent shown)
  Action.note .debug "chainfix.frontend.project"
    s!"Loaded {configPath.render} with {roots.length} root file(s)"
  pure { configPath, roots, compiler := { base := some configPath.render } }

/-! ## Sources -/

def select (roots : List String) : Option Path → Action (List String)
  | none => pure roots
  | some directory => do
    let above ← Action.resolve directory
    roots.filterM fun name => do
      pure ((← Action.resolve (Path.ofString name)).isUnder above)

/-- The failure leaves a file unread: the disk refuses it, or it is no text. -/
def isUnreadable : Failure → Bool
  | .disk _ | .undecodable _ => true
  | _ => false

def readInto (sources : Files) : List String → Action Files
  | [] => pure sources
  | name :: rest => do
    match ← Action.attempt (Action.readText name) with
    | .ok text => readInto (sources.set name text) rest
    | .error failure =>
      if isUnreadable failure then
        Action.note .debug "chainfix.frontend.project"
          s!"Skipping unreadable file {name}: {failure.message}"
        readInto sources rest
      else throw failure

/-- The texts of files, as far as they can be read. -/
def readSources (names : List String) : Action Files :=
  readInto [] names

def writeSources : Files → Action Unit
  | [] => pure ()
  | (name, text) :: rest => do
    Action.writeText name text
    writeSources rest

end Project

end ChainGuard
