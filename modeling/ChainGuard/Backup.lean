import ChainGuard.Diagnostic
import ChainGuard.Host
import ChainGuard.JsonValue.Reader
import ChainGuard.JsonValue.Writer
import ChainGuard.Text.Lines

/-!
# Backups

Before files are overwritten, their texts are saved in a directory of its own, the backup. A
manifest in it lists the files; it is written last, so that a backup with a manifest is complete.
Undoing writes the saved texts back, and then gives the manifest another name, which takes the
backup off the list.

Saving and undoing may stop where a name is too long or something else is in the way. That they may
not be permitted, or find no space, is left out, as it is for all disks.

* `Backup.save` makes a backup. Its name is the time; a number follows where that name is taken.
* `Backup.sessions` lists the backups by their names, the greatest name first.
* `Backup.entries` reads a manifest.
* `Backup.undo` undoes the newest backup.
-/

namespace ChainGuard.Backup

/-! ## Directories -/

/-- The directory of a project that holds everything kept for it. -/
def homeName : String := ".chainfix"

/-- The directory kept for a project, made as needed. -/
def home (project : Path) : Action Path := do
  let p := project.child homeName
  Action.ensureDirectory p
  pure p

def store (project : Path) : Path :=
  (project.child homeName).child "backups"

def manifestPath (session : Path) : Path :=
  session.child "manifest.json"

/-- The manifest of a backup that was undone. -/
def restoredPath (session : Path) : Path :=
  session.child "manifest.restored.json"

/-! ## Entries -/

/-- A saved file: its path, the path of its saved text, and the time of the backup. -/
structure Entry where
  file : Path
  backup : Path
  timestamp : JsonValue

def entryJson (file backup timestamp : String) : JsonValue :=
  .object [("file", .text file), ("backup", .text backup), ("timestamp", .text timestamp)]

def member (members : Dict JsonValue) (key : String) : Except Failure JsonValue :=
  match members.get? key with
  | some value => .ok value
  | none => .error (.missingKey key)

def pathMember (members : Dict JsonValue) (key : String) : Except Failure Path := do
  match ← member members key with
  | .text s => pure (Path.ofString s)
  | _ => .error .wrongKind

/-- The entry that a value in a manifest stands for. -/
def entryOf : JsonValue → Except Failure Entry
  | .object members => do
    let file ← pathMember members "file"
    let backup ← pathMember members "backup"
    let timestamp ← member members "timestamp"
    pure { file, backup, timestamp }
  | _ => .error .wrongKind

/-- The entries of a manifest. An empty text or object counts as an empty list. -/
def entriesOf : JsonValue → Except Failure (List Entry)
  | .array items => items.mapM entryOf
  | .text s => if s = "" then .ok [] else .error .wrongKind
  | .object members => if members.isEmpty then .ok [] else .error .wrongKind
  | _ => .error .wrongKind

/-! ## Saving -/

/-- The names of a backup in the order of choice. -/
def sessionName (stamp : String) : Nat → String
  | 0 => stamp
  | n + 1 => s!"{stamp}.{n + 1}"

/-- The first of the names from the `n`-th on that is free in the directory, tried at most `fuel`
times. -/
def freeSession (directory : Path) (stamp : String) : (fuel : Nat) → (n : Nat) → Action Path
  | 0, n => pure (directory.child (sessionName stamp n))
  | fuel + 1, n => do
    let p := directory.child (sessionName stamp n)
    if ← Action.exists? p then freeSession directory stamp fuel (n + 1) else pure p

def fourDigits (n : Nat) : String :=
  let digits := toString n
  String.ofList (List.replicate (4 - digits.length) '0') ++ digits

def backupName (index : Nat) (file : String) : String :=
  s!"{fourDigits index}-{(Path.ofString file).name}.bak"

/-- Save texts from the `index`-th on. The result is the list of the manifest. -/
def saveFrom (session : Path) (stamp : String) : (index : Nat) → Files → Action (List JsonValue)
  | _, [] => pure []
  | index, (file, text) :: rest => do
    let backup := (session.child (backupName index file)).render
    Action.writeText backup text
    let others ← saveFrom session stamp (index + 1) rest
    pure (entryJson file backup stamp :: others)

def sorted (files : Files) : Files :=
  files.mergeSort fun a b => decide (a.1 ≤ b.1)

/-- Save the texts of files. The result is the directory of the backup. There are fewer taken names
than entries on the disk, so the search for a free name ends. -/
def save (project : Path) (files : Files) : Action Path := do
  let _ ← home project
  let w ← get
  let stamp := w.clock.stamp
  let session ← freeSession (store project) stamp w.disk.length 0
  Action.makeDirectories session
  let manifest ← saveFrom session stamp 0 (sorted files)
  Action.writeText (manifestPath session).render (JsonValue.array manifest).render
  pure session

/-! ## Listing -/

def sessions (project : Path) : Action (List Path) := do
  let directory := store project
  if ← Action.exists? directory then
    let names := (← Action.list directory).mergeSort fun a b => decide (b ≤ a)
    (names.map directory.child).filterM fun session => Action.exists? (manifestPath session)
  else pure []

def entries (session : Path) : Action (List Entry) := do
  let text ← Action.readText (manifestPath session).render
  match ← Action.readJson text.unifyLineEnds with
  | .ok manifest => Action.lift (entriesOf manifest)
  | .error e => throw (.json e)

/-! ## Undoing -/

/-- Write saved texts back. An entry whose saved text is gone is passed over. -/
def restore : List Entry → Action (List Entry)
  | [] => pure []
  | entry :: rest => do
    if ← Action.exists? entry.backup then
      let text ← Action.readText entry.backup.render
      Action.writeText entry.file.render text
      let others ← restore rest
      pure (entry :: others)
    else restore rest

/-- Undo the newest backup. The result are the entries written back. -/
def undo (project : Path) : Action (List Entry) := do
  match ← sessions project with
  | [] => pure []
  | latest :: _ =>
    let restored ← restore (← entries latest)
    Action.rename (manifestPath latest) (restoredPath latest)
    pure restored

end ChainGuard.Backup
