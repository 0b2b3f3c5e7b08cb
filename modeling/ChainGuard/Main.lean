import ChainGuard.CommandLine

/-!
# The program

Runs a command line on the working directory. The files below the directory are read first, the
command runs on that picture of the disk, and its changes are then made on the real one, in the same
order.

No program is launched from here, so a command that needs the compiler says that it cannot be run.
-/

namespace ChainGuard

def skippedDirectories : List String :=
  ["node_modules", ".git"]

/-- An entry of a real directory with everything below it. -/
partial def readEntry (above : Location) (entry : IO.FS.DirEntry) : IO Disk := do
  let at_ := above ++ [entry.fileName]
  if ← entry.path.isDir then
    if skippedDirectories.contains entry.fileName then pure [(at_, .directory)]
    else
      let below ← (← entry.path.readDir).toList.mapM (readEntry at_)
      pure ((at_, .directory) :: below.flatten)
  else
    let content ← IO.FS.readBinFile entry.path
    pure [(at_, .file content.toList)]

/-- The real directory as a disk, with the directories that lead to it. -/
def readDisk (cwd : Location) : IO Disk := do
  let above := (List.range cwd.length).map fun n => (cwd.take (n + 1), Entry.directory)
  let below ← (← (← IO.currentDir).readDir).toList.mapM (readEntry cwd)
  pure (above ++ below.flatten)

def realPath (at_ : Location) : String :=
  (Path.mk .root at_).render

/-- Make a change on the real disk. -/
def replay : Mutation → IO Unit
  | .makeDirectory at_ => IO.FS.createDirAll (realPath at_)
  | .truncate at_ => IO.FS.writeBinFile (realPath at_) ByteArray.empty
  | .write at_ content => IO.FS.writeBinFile (realPath at_) ⟨content.toArray⟩
  | .rename source target => IO.FS.rename (realPath source) (realPath target)
  | .removeTree at_ => IO.FS.removeDirAll (realPath at_)

/-- The host around the working directory. The clock stands still: only a fix would read it. -/
def readHost : IO Host := do
  let cwd := (Path.ofString (← IO.currentDir).toString).parts
  pure
    { disk := ← readDisk cwd
      cwd
      temporary := "/tmp"
      clock := ⟨1970, 1, 1, 0, 0, 0⟩
      replies := [fun _ => .notFound]
      parser := fun _ _ _ => .node ⟨.other "program", 0, 0, true, none⟩ [] }

/-- Run a command line on the real disk. The result is the exit status. -/
def runProgram (arguments : List String) : IO UInt32 := do
  let (outcome, after) := CommandLine.run arguments (← readHost)
  after.trace.forM replay
  (← IO.getStdout).putStr (String.ofList outcome.output)
  (← IO.getStderr).putStr (String.ofList outcome.errors)
  match outcome.escaped with
  | some failure => (← IO.getStderr).putStrLn failure.message
  | none => pure ()
  pure (UInt32.ofNat outcome.status)

end ChainGuard

def main (arguments : List String) : IO UInt32 :=
  ChainGuard.runProgram arguments
