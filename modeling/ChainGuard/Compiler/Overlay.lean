import ChainGuard.Diagnostic
import ChainGuard.Failure
import ChainGuard.Path

/-!
# Overlays

The compiler reads files from disk only. So the working texts are written to a directory of their
own, the overlay, each at the place it has below the common directory of all files. A configuration
in the overlay starts from that of the project, and lets the compiler look for all other files in
the project itself.

* `Overlay.target` is the place of a file in the overlay.
* `Overlay.roots` are the root files: those with a working text in the overlay, the others on disk.
* `Overlay.config` is the configuration.
-/

namespace ChainGuard

/-- An overlay: its directory, and the common directory of the files. -/
structure Overlay where
  /-- The directory that relative paths start from. -/
  cwd : Path
  directory : Path
  base : Path

namespace Overlay

/-- The way of a file from the common directory. -/
def relative (overlay : Overlay) (name : String) : Path :=
  Path.relativeTo overlay.cwd (Path.ofString name) overlay.base

/-- The place of a file in the overlay. -/
def target (overlay : Overlay) (name : String) : Path :=
  overlay.directory.join (overlay.relative name)

/-- The caller's name of every file, by its place in the overlay. -/
def names (overlay : Overlay) (files : Files) : Dict String :=
  Dict.ofPairs (files.map fun file =>
    ((Path.resolve overlay.cwd (overlay.target file.1)).render, file.1))

def roots (overlay : Overlay) (files : Files) (roots : List String) : List String :=
  roots.map fun name =>
    if files.has name then (overlay.target name).render
    else (Path.absolute overlay.cwd (Path.ofString name)).render

/-- Options that win over those of the project: nothing is written, and files in the overlay belong
to the same tree as those in the project. -/
def ownOptions (overlay : Overlay) (rootDirectory : String) : Dict JsonValue :=
  [("noEmit", .bool true), ("emitDeclarationOnly", .bool false), ("composite", .bool false),
    ("incremental", .bool false), ("tsBuildInfoFile", .null), ("rootDir", .text rootDirectory),
    ("rootDirs", .array [.text overlay.directory.render, .text overlay.base.render])]

def config (overlay : Overlay) (roots : List String) (compiler : CompilerConfig) :
    Except Failure JsonValue :=
  match Path.commonText? overlay.directory overlay.base with
  | none => .error .mixedPaths
  | some rootDirectory =>
    let options := compiler.options.update (overlay.ownOptions rootDirectory)
    let members : Dict JsonValue :=
      [("compilerOptions", .object options), ("files", .array (roots.map .text)),
        ("include", .array [])]
    match compiler.base with
    | none => .ok (.object members)
    | some project =>
      if project.toList.contains '\x00' then .error .nullInName
      else
        let path := Path.resolve overlay.cwd (Path.ofString project)
        .ok (.object (members ++ [("extends", .text path.render)]))

end Overlay

end ChainGuard
