import ChainGuard.Path
import ChainGuard.Text.Quoted
import ChainGuard.Utf8

/-!
# Disks

A disk holds directories and files, each at the list of parts that leads to it from the root. Every
change of a disk is a `Mutation`, so that a run can be followed step by step.

Links, permissions and space are left out: a disk has no links, permits everything, and is never
full. So a `DiskFault` comes from what lies on the disk and from the lengths of names, and from
nothing else.

* `get?` looks at a location. The root is always a directory.
* `walk` follows a name part by part. Every part on the way has to be a directory.
* `Mutation.apply` makes one change. It is total and decides nothing: the operations that check a
  name first are those of `Host`.
-/

namespace ChainGuard

/-- Where something lies: the parts from the root. -/
abbrev Location := List String

/-- What lies at a location. -/
inductive Entry where
  | directory
  | file (content : Bytes)
  deriving DecidableEq

/-- The entries of a disk by location. The root has none of its own. -/
abbrev Disk := List (Location × Entry)

namespace Disk

/-! ## Looking -/

def get? (disk : Disk) (at_ : Location) : Option Entry :=
  if at_ = [] then some .directory else disk.lookup at_

def has (disk : Disk) (at_ : Location) : Bool :=
  (disk.get? at_).isSome

def isDirectory (disk : Disk) (at_ : Location) : Bool :=
  disk.get? at_ = some .directory

def isFile (disk : Disk) (at_ : Location) : Bool :=
  match disk.get? at_ with
  | some (.file _) => true
  | _ => false

/-- Nothing lies at the location or below it. -/
def isFree (disk : Disk) (at_ : Location) : Bool :=
  disk.all fun entry => !at_.isPrefixOf entry.1

/-- The names of what lies directly in a directory, in the order of their making. -/
def children (disk : Disk) (at_ : Location) : List String :=
  disk.filterMap fun entry => if entry.1.dropLast = at_ then entry.1.getLast? else none

/-! ## Changing -/

def set (disk : Disk) (at_ : Location) (entry : Entry) : Disk :=
  match disk with
  | [] => [(at_, entry)]
  | (place, old) :: rest =>
    if place = at_ then (place, entry) :: rest else (place, old) :: set rest at_ entry

/-- The disk without a location and everything below it. -/
def removeTree (disk : Disk) (at_ : Location) : Disk :=
  disk.filter fun entry => !at_.isPrefixOf entry.1

/-- The disk without the one entry at a location. -/
def removeEntry (disk : Disk) (at_ : Location) : Disk :=
  disk.filter fun entry => entry.1 != at_

end Disk

/-- One change of a disk. -/
inductive Mutation where
  /-- Make an empty directory. -/
  | makeDirectory (at_ : Location)
  /-- Make an empty file, or empty the file that is there. -/
  | truncate (at_ : Location)
  /-- Fill a file. -/
  | write (at_ : Location) (content : Bytes)
  /-- Move a file to another name, over a file that may be there. -/
  | rename (source target : Location)
  /-- Remove a directory with everything in it. -/
  | removeTree (at_ : Location)
  deriving DecidableEq

namespace Mutation

def apply (disk : Disk) : Mutation → Disk
  | makeDirectory at_ => disk.set at_ .directory
  | truncate at_ => disk.set at_ (.file [])
  | write at_ content => disk.set at_ (.file content)
  | rename source target =>
    match disk.get? source with
    | some entry => (disk.removeEntry source).set target entry
    | none => disk
  | removeTree at_ => disk.removeTree at_

/-- The disk after several changes, one after the other. -/
def applyAll (disk : Disk) (changes : List Mutation) : Disk :=
  changes.foldl apply disk

end Mutation

/-! ## Names -/

/-- Why an operation on a disk fails. -/
inductive DiskFault where
  | noSuchFile
  | alreadyThere
  | notADirectory
  | isADirectory
  | nameTooLong
  deriving DecidableEq, Repr

namespace DiskFault

def number : DiskFault → Nat
  | noSuchFile => 2
  | alreadyThere => 17
  | notADirectory => 20
  | isADirectory => 21
  | nameTooLong => 36

def text : DiskFault → String
  | noSuchFile => "No such file or directory"
  | alreadyThere => "File exists"
  | notADirectory => "Not a directory"
  | isADirectory => "Is a directory"
  | nameTooLong => "File name too long"

/-- The fault says that there is nothing at the name. -/
def isAbsence : DiskFault → Bool
  | noSuchFile | notADirectory => true
  | _ => false

end DiskFault

/-- A failed operation on a disk: the fault, the name it was given, and the second name of a
move. -/
structure DiskError where
  fault : DiskFault
  name : String
  target : Option String := none
  deriving DecidableEq

namespace DiskError

def message (e : DiskError) : String :=
  let second :=
    match e.target with
    | some target => " -> " ++ quote target
    | none => ""
  s!"[Errno {e.fault.number}] {e.fault.text}: {quote e.name}{second}"

end DiskError

namespace Disk

def maxPartBytes : Nat := 255

def maxNameBytes : Nat := 4095

/-- Follow the parts of a name from a location. The last part need not be there. -/
def walk (disk : Disk) : Location → List String → Except DiskFault Location
  | here, [] => .ok here
  | here, part :: rest =>
    match disk.get? here with
    | none => .error .noSuchFile
    | some (.file _) => .error .notADirectory
    | some .directory =>
      if part = "." then walk disk here rest
      else if part = ".." then walk disk here.dropLast rest
      else if maxPartBytes < part.utf8ByteSize then .error .nameTooLong
      else walk disk (here ++ [part]) rest

/-- The parts of a name as they are followed: repeated slashes count once. -/
def steps (name : String) : List String :=
  (Path.pieces name.toList).filter (· != "")

/-- The name ends in a slash, and so asks for a directory. -/
def wantsDirectory (name : String) : Bool :=
  name.toList.getLast? = some '/'

def start (cwd : Location) (name : String) : Location :=
  if Path.anchorOf name.toList = .relative then cwd else []

/-- The location of a name, seen from the working directory, where the parts to follow are given.
The empty name has none. -/
def locateSteps (disk : Disk) (cwd : Location) (name : String) (parts : List String) :
    Except DiskFault Location :=
  if name = "" then .error .noSuchFile
  else if maxNameBytes < name.utf8ByteSize then .error .nameTooLong
  else disk.walk (start cwd name) parts

/-- The location of a name, seen from the working directory. -/
def locate (disk : Disk) (cwd : Location) (name : String) : Except DiskFault Location :=
  disk.locateSteps cwd name (steps name)

/-- What a name stands for, if there is something. -/
def find? (disk : Disk) (cwd : Location) (name : String) : Except DiskFault (Location × Entry) := do
  let at_ ← disk.locate cwd name
  match disk.get? at_ with
  | none => .error .noSuchFile
  | some (.file content) =>
    if wantsDirectory name then .error .notADirectory else pure (at_, .file content)
  | some .directory => pure (at_, .directory)

/-! ## Operations

Each operation checks its names against the disk and gives the change to make, or the fault. -/

def read (disk : Disk) (cwd : Location) (name : String) : Except DiskFault Bytes := do
  match ← disk.find? cwd name with
  | (_, .file content) => pure content
  | (_, .directory) => .error .isADirectory

/-- The location at which a file can be written. A name that asks for a directory is refused before
its last part is looked at. -/
def writable (disk : Disk) (cwd : Location) (name : String) : Except DiskFault Location := do
  if wantsDirectory name then
    let _ ← disk.locateSteps cwd name ((steps name).dropLast ++ ["."])
    .error .isADirectory
  else
    let at_ ← disk.locate cwd name
    if disk.isDirectory at_ then .error .isADirectory else pure at_

def makeDirectory (disk : Disk) (cwd : Location) (name : String) : Except DiskFault Mutation := do
  let at_ ← disk.locate cwd name
  if disk.has at_ then .error .alreadyThere else pure (.makeDirectory at_)

/-- The change that moves a file to another name. -/
def rename (disk : Disk) (cwd : Location) (source target : String) : Except DiskFault Mutation := do
  let (old, _) ← disk.find? cwd source
  let new ← disk.writable cwd target
  pure (.rename old new)

def list (disk : Disk) (cwd : Location) (name : String) : Except DiskFault (List String) := do
  match ← disk.find? cwd name with
  | (at_, .directory) => pure (disk.children at_)
  | (_, .file _) => .error .notADirectory

end Disk

end ChainGuard
