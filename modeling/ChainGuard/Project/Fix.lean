import ChainGuard.Backup
import ChainGuard.Project

/-!
# Fixing a project

Load a project, run a session over its files, save the texts that change, and write the new ones. A
dry run does everything but the last two.

* `FixRequest.analyse` does all that needs no lasting change of the disk.
* `FixRequest.commit` saves and writes.
-/

namespace ChainGuard

/-- Where the diagnostics of a run come from. -/
inductive Analysis where
  /-- From the compiler. -/
  | compiler
  /-- From a function of the number of earlier questions and the working texts. -/
  | custom (answer : Nat → Files → List Diagnostic)

/-- What to fix, and how. -/
structure FixRequest where
  /-- The path of the configuration. -/
  config : Path
  choice : CompilerChoice := .nearest
  /-- Fix only files below this directory. -/
  directory : Option Path := none
  dry : Bool := false
  codes : List Int := Diagnostic.defaultCodes
  maxPasses : Int := 10
  backup : Bool := true
  analysis : Analysis := .compiler

/-- What came of it. -/
structure FixResult where
  totalChanges : Nat
  passes : Nat
  /-- The files that change, with their texts before and after. -/
  changed : Dict (Text × Text)
  dry : Bool
  backup : Option Path
  reports : List Report

namespace FixRequest

def ask (answer : Nat → Files → List Diagnostic) (files : Files) : Action (List Diagnostic) := do
  let w ← get
  set { w with analyses := w.analyses + 1 }
  pure (answer w.analyses files)

def tools (r : FixRequest) (project : Project) : Action (Toolchain Action) :=
  match r.analysis with
  | .compiler => do
    let c ← Action.lift (Compiler.ofChoice r.choice (some project.directory))
    pure c.tools
  | .custom answer =>
    pure { collect := fun files _ _ => ask answer files
           parse := Action.parse
           note := Compiler.noteProgress }

/-- The files whose text differs from the text before. -/
def changes (before after : Files) : Dict (Text × Text) :=
  after.filterMap fun (name, text) =>
    match before.get? name with
    | some old => if old = text then none else some (name, (old, text))
    | none => none

/-- Put the changes on disk, with a backup first if one is wanted. -/
def commit (r : FixRequest) (project : Project) (changed : Dict (Text × Text)) :
    Action (Option Path) :=
  if changed.isEmpty || r.dry then pure none
  else do
    let backup ←
      if r.backup then some <$> Backup.save project.directory (changed.mapValues Prod.fst)
      else pure none
    Project.writeSources (changed.mapValues Prod.snd)
    pure backup

/-- What a request comes to in memory: the project, the texts on disk, and the session over them. -/
structure Analysed where
  project : Project
  sources : Files
  session : Session

namespace Analysed

def changed (a : Analysed) : Dict (Text × Text) :=
  changes a.sources a.session.files

end Analysed

/-- Load the project, read its files, and run a session over them. Nothing is put on disk to stay.
-/
def analyse (r : FixRequest) : Action Analysed := do
  let project ← Project.load r.config r.choice
  let roots ← Project.select project.roots r.directory
  let sources ← Project.readSources roots
  Action.note .info "chainfix.fix.project"
    s!"Fixing {sources.length} file(s) from {project.configPath.render}"
  let tools ← r.tools project
  let session ← Session.run tools roots project.compiler
    { files := sources, codes := r.codes, maxPasses := r.maxPasses }
  pure { project, sources, session }

def run (r : FixRequest) : Action FixResult := do
  let a ← r.analyse
  let backup ← r.commit a.project a.changed
  pure { totalChanges := a.session.totalChanges, passes := a.session.passesRun, changed := a.changed
         dry := r.dry, backup, reports := a.session.reports }

end FixRequest

end ChainGuard
