import ChainGuard.Failure
import ChainGuard.Tree

/-!
# The host of a run

What a run can see and change on the machine it runs on: a disk, a clock, the compiler as a program
that is launched, the parser, and a log. An `Action` changes the host and may fail. What it has done
up to the failure stays done.

Every change of the disk is kept in the trace, so the disk is at any time the first disk with the
trace applied. Launching the compiler changes nothing on the disk. As the disk permits everything
and is never full, no action fails for want of permission or space.

A temporary directory has a name that is free, and any free name would do. `Action.freeName` takes
the first one of a fixed list, so that a run has one result.
-/

namespace ChainGuard

/-- A reading of the clock. -/
structure Clock where
  year : Nat
  month : Nat
  day : Nat
  hour : Nat
  minute : Nat
  second : Nat
  deriving DecidableEq

namespace Clock

def twoDigits (n : Nat) : String :=
  if n < 10 then s!"0{n}" else toString n

def stamp (c : Clock) : String :=
  s!"{c.year}-{twoDigits c.month}-{twoDigits c.day}T" ++
    s!"{twoDigits c.hour}-{twoDigits c.minute}-{twoDigits c.second}"

end Clock

/-- A launch of the compiler: the words of the command, the directory it runs in, and the disk it
finds. -/
structure Launch where
  command : List String
  directory : String
  disk : Disk

/-- How a launch ends. -/
inductive Reply where
  /-- There is no such program. -/
  | notFound
  /-- The system does not start the program, for the given reason. -/
  | refused (reason : String)
  /-- The launch fails in another way: a word of the command cannot be passed on, or what the
  program wrote is no text. -/
  | failed (failure : Failure)
  /-- The program ran. -/
  | finished (output errors : Text) (status : Int)

/-- How much a log entry matters. -/
inductive Level where
  | debug
  | info
  deriving DecidableEq

/-- A log entry. -/
structure Note where
  level : Level
  source : String
  text : String
  deriving DecidableEq

/-- The state of a host. -/
structure Host where
  disk : Disk
  /-- All changes of the disk so far. -/
  trace : List Mutation := []
  /-- The working directory. -/
  cwd : Location
  /-- The directory for temporary files. -/
  temporary : String
  clock : Clock
  /-- The compiler on the search path. -/
  onPath : Option String := none
  /-- The ends of the launches to come. After them every launch succeeds and writes nothing. -/
  replies : List (Launch → Reply) := []
  /-- All launches so far. -/
  launches : List Launch := []
  log : List Note := []
  /-- What was printed so far. -/
  output : Text := []
  /-- The tree of a file's text, when it is parsed after the given number of times. -/
  parser : String → Text → Nat → Tree
  /-- How many times each file was parsed. -/
  parses : Dict Nat := []
  /-- How many times diagnostics were asked for that do not come from the compiler. -/
  analyses : Nat := 0
  /-- How many levels of arrays and objects the stack has room for when JSON is read, besides
  two. -/
  spareLevels : Nat := 10000

/-- How many levels of arrays and objects are read. A manifest has two. -/
def Host.levels (w : Host) : Nat :=
  w.spareLevels + 2

abbrev Action := ExceptT Failure (StateM Host)

namespace Action

variable {α : Type}

def runIn (action : Action α) (w : Host) : Except Failure α × Host :=
  (ExceptT.run action).run w

def lift (result : Except Failure α) : Action α :=
  match result with
  | .ok a => pure a
  | .error failure => throw failure

/-- The result of an action, also if it fails. -/
def attempt (action : Action α) : Action (Except Failure α) :=
  tryCatch (Except.ok <$> action) fun failure => pure (.error failure)

def note (level : Level) (source text : String) : Action Unit :=
  modify fun w => { w with log := w.log ++ [⟨level, source, text⟩] }

def print (t : Text) : Action Unit :=
  modify fun w => { w with output := w.output ++ t }

def workingDirectory : Action Path := do
  pure ⟨.root, (← get).cwd⟩

def resolve (p : Path) : Action Path := do
  if p.parts.any (·.toList.contains '\x00') then throw .nullInName
  else pure (Path.resolve (← workingDirectory) p)

def readJson (t : Text) : Action (Except JsonError JsonValue) := do
  pure (JsonValue.read (← get).levels t)

/-! ## The disk -/

def perform (m : Mutation) : Action Unit :=
  modify fun w => { w with disk := m.apply w.disk, trace := w.trace ++ [m] }

/-- Ask the disk about a name. A fault is a failure with that name. -/
def ask (name : String) (question : Disk → Location → Except DiskFault α) : Action α := do
  if name.toList.contains '\x00' then throw .nullInName
  else
    let w ← get
    match question w.disk w.cwd with
    | .ok a => pure a
    | .error fault => throw (.disk { fault, name })

/-- What a name stands for, if it stands for something. A name that can stand for nothing at all,
because it is too long, is a failure. -/
def lookup (p : Path) : Action (Option Entry) := do
  let w ← get
  let name := p.render
  if name.toList.contains '\x00' then pure none
  else
    match w.disk.find? w.cwd name with
    | .ok (_, entry) => pure (some entry)
    | .error fault => if fault.isAbsence then pure none else throw (.disk { fault, name })

def exists? (p : Path) : Action Bool := do
  pure (← lookup p).isSome

def isDirectory (p : Path) : Action Bool := do
  pure (match ← lookup p with
    | some .directory => true
    | _ => false)

def isFile (p : Path) : Action Bool := do
  pure (match ← lookup p with
    | some (.file _) => true
    | _ => false)

def readBytes (name : String) : Action Bytes :=
  ask name fun disk cwd => disk.read cwd name

def readText (name : String) : Action Text := do
  match Utf8.decode (← readBytes name) with
  | .ok t => pure t
  | .error e => throw (.undecodable e)

/-- Write a text to a file: make or empty the file, then fill it. -/
def writeText (name : String) (t : Text) : Action Unit := do
  let at_ ← ask name fun disk cwd => disk.writable cwd name
  perform (.truncate at_)
  perform (.write at_ (Utf8.encode t))

def makeDirectory (p : Path) : Action Unit := do
  perform (← ask p.render fun disk cwd => disk.makeDirectory cwd p.render)

def ensureDirectory (p : Path) : Action Unit := do
  match ← attempt (makeDirectory p) with
  | .ok () => pure ()
  | .error failure => if ← isDirectory p then pure () else throw failure

/-- The failure says that the directory above is missing. -/
def isMissingParent : Failure → Bool
  | .disk e => e.fault = .noSuchFile
  | _ => false

/-- Make a directory, unless it is there, and the directories above it as needed. There are at most
as many of them as the path has parts. -/
def ensureDirectories : (parts : Nat) → Path → Action Unit
  | 0, p => ensureDirectory p
  | parts + 1, p => do
    match ← attempt (makeDirectory p) with
    | .ok () => pure ()
    | .error failure =>
      if isMissingParent failure && p.parent != p then
        ensureDirectories parts p.parent
        ensureDirectory p
      else if ← isDirectory p then pure ()
      else throw failure

/-- Make a directory that is not there yet, and the directories above it as needed. -/
def makeDirectories (p : Path) : Action Unit := do
  match ← attempt (makeDirectory p) with
  | .ok () => pure ()
  | .error failure =>
    if isMissingParent failure && p.parent != p then
      ensureDirectories p.parts.length p.parent
      makeDirectory p
    else throw failure

def list (p : Path) : Action (List String) :=
  ask p.render fun disk cwd => disk.list cwd p.render

/-- Move a file to another name. -/
def rename (source target : Path) : Action Unit := do
  let w ← get
  match w.disk.rename w.cwd source.render target.render with
  | .ok change => perform change
  | .error fault => throw (.disk { fault, name := source.render, target := some target.render })

/-! ## Temporary directories -/

def temporaryName (start : String) (n : Nat) : String :=
  let digits := toString n
  start ++ String.ofList (List.replicate (8 - digits.length) '0') ++ digits

/-- The first name in a directory with nothing at it or below it. Of more names than there are
entries one is free. -/
def freeName (disk : Disk) (directory : Location) (start : String) : String :=
  let names := (List.range (disk.length + 1)).map (temporaryName start)
  (names.find? fun name => disk.isFree (directory ++ [name])).getD start

/-- Run an action with a directory of its own, which is removed afterwards with all it holds,
whether the action succeeds or fails. -/
def withDirectory (above : Path) (start : String) (action : Path → Action α) : Action α := do
  let w ← get
  let place := Path.resolve ⟨.root, w.cwd⟩ above
  let p := above.child (freeName w.disk place.parts start)
  makeDirectory p
  let directory := Path.resolve ⟨.root, w.cwd⟩ p
  let result ← attempt (action directory)
  perform (.removeTree directory.parts)
  lift result

/-! ## Programs -/

def launch (command : List String) (directory : Path) : Action Reply := do
  let w ← get
  let l : Launch := ⟨command, directory.render, w.disk⟩
  let reply :=
    match w.replies with
    | [] => .finished [] [] 0
    | next :: _ => next l
  set { w with launches := w.launches ++ [l], replies := w.replies.drop 1 }
  pure reply

def parse (name : String) (text : Text) : Action Tree := do
  let w ← get
  let count := (w.parses.get? name).getD 0
  set { w with parses := w.parses.set name (count + 1) }
  pure (w.parser name text count)

end Action

end ChainGuard
