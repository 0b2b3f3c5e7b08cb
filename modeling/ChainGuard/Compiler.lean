import ChainGuard.Compiler.Command
import ChainGuard.Compiler.Output
import ChainGuard.Compiler.Overlay
import ChainGuard.Host
import ChainGuard.JsonValue.Writer
import ChainGuard.Session

/-!
# Running the compiler

The compiler is found and launched here. For diagnostics it runs over an overlay of the working
texts, in a directory that is gone afterwards, whatever happens.

* `Compiler.locate` finds the nearest compiler.
* `Compiler.collect` gives the diagnostics for working texts.
* `Compiler.tools` are the tools of a session that works with the compiler.
-/

namespace ChainGuard

/-- The compiler as a session uses it. -/
structure Compiler where
  /-- The command, unless the compiler has to be looked for. -/
  command : Option (List String) := none
  /-- The directory that holds the overlays, if it is not the one for temporary files. -/
  directory : Option Path := none

namespace Compiler

/-! ## Commands -/

def installedIn (directory : Path) : Path :=
  ((directory.child "node_modules").child ".bin").child "tsc"

def firstExisting : List Path → Action (Option Path)
  | [] => pure none
  | p :: rest => do if ← Action.exists? p then pure (some p) else firstExisting rest

def notFound : Failure :=
  .compiler "TypeScript compiler not found. Install `typescript` in the project or pass --tsc."

/-- The compiler installed nearest to a directory, or else the one on the search path. -/
def locate (start : Option Path) : Action (List String) := do
  let here ← Action.resolve (start.getD (← Action.workingDirectory))
  match ← firstExisting (here.upwards.map installedIn) with
  | some p => pure [p.render]
  | none =>
    match (← get).onPath with
    | some found => if found = "" then throw notFound else pure [found]
    | none => throw notFound

def resolveCommand (choice : CompilerChoice) (start : Option Path) : Action (List String) := do
  match ← Action.lift choice.command? with
  | some command => pure command
  | none => locate start

/-- The compiler of a choice, with its overlays in the given directory. -/
def ofChoice (choice : CompilerChoice) (directory : Option Path) : Except Failure Compiler :=
  choice.command?.map fun command => { command, directory }

/-! ## Launching -/

/-- What a finished launch gave. -/
structure Finished where
  output : Text
  errors : Text
  status : Int

def notRun (command : List String) (reason : String) : Failure :=
  .compiler ("Failed to run " ++ String.intercalate " " command ++ ": " ++ reason)

def run (command arguments : List String) (directory : Path) : Action Finished := do
  match ← Action.launch (command ++ arguments) directory with
  | .finished output errors status => pure ⟨output, errors, status⟩
  | .notFound =>
    let first := (command ++ arguments).headD ""
    throw (notRun command (DiskError.message { fault := .noSuchFile, name := first }))
  | .refused reason => throw (notRun command reason)
  | .failed failure => throw failure

/-! ## Diagnostics -/

/-- The beginning of the names of overlays. -/
def overlayStart : String := ".chainfix-overlay-"

def writeTexts (overlay : Overlay) : Files → Action Unit
  | [] => pure ()
  | (name, text) :: rest => do
    let target := overlay.target name
    Action.ensureDirectories target.parent.parts.length target.parent
    Action.writeText target.render text
    writeTexts overlay rest

/-- The diagnostics that the compiler gives for an overlay. -/
def collectIn (c : Compiler) (overlay : Overlay) (files : Files) (roots : List String)
    (config : CompilerConfig) : Action (List Diagnostic) := do
  writeTexts overlay files
  let settings ← Action.lift (overlay.config (overlay.roots files roots) config)
  let configPath := overlay.directory.child "tsconfig.json"
  Action.writeText configPath.render settings.render
  let command ← match c.command with
    | some command => pure command
    | none => locate c.directory
  let finished ← run command ["-p", configPath.render, "--pretty", "false"] overlay.directory
  let output := finished.output ++ finished.errors
  if finished.status ≠ 0 ∧ output.trim = [] then
    throw (.compiler s!"tsc exited with status {finished.status} and no output")
  else
    let context : CompilerOutput.Context :=
      { cwd := overlay.cwd, directory := overlay.directory, names := overlay.names files, files }
    match CompilerOutput.read context output with
    | (diagnostics, none) => pure diagnostics
    | (_, some failure) => throw failure

/-- The diagnostics for the given working texts. -/
def collect (c : Compiler) (files : Files) (roots : List String) (config : CompilerConfig) :
    Action (List Diagnostic) := do
  let cwd ← Action.workingDirectory
  let base := Path.commonBase cwd ((roots ++ files.keys).map Path.ofString)
  let above := c.directory.getD (Path.ofString (← get).temporary)
  let diagnostics ← Action.withDirectory above overlayStart fun directory =>
    c.collectIn ⟨cwd, directory, base⟩ files roots config
  Action.note .debug "chainfix.frontend.tsc" s!"tsc reported {diagnostics.length} diagnostic(s)"
  pure diagnostics

/-! ## Tools -/

def noteProgress : Progress → Action Unit
  | .nothingLeft number =>
    Action.note .debug "chainfix.fix.engine" s!"Pass {number}: no diagnostics left"
  | .leftAlone site =>
    Action.note .debug "chainfix.fix.engine"
      s!"Left TS{site.code} at {site.file}:{site.offset} for manual review"
  | .passDone r =>
    Action.note .info "chainfix.fix.engine"
      (s!"Pass {r.number}: {r.diagnostics} diagnostic(s), {r.editsApplied} edit(s) applied, " ++
        s!"{r.skipped} skipped")

def tools (c : Compiler) : Toolchain Action where
  collect := c.collect
  parse := Action.parse
  note := noteProgress

end Compiler

end ChainGuard
