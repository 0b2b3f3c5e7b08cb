import ChainGuard.Console.Highlight
import ChainGuard.Console.Layout
import ChainGuard.Console.Table
import ChainGuard.Dict
import ChainGuard.Diff

/-!
# Console output

What the command line prints: messages, the table of passes, the diffs, and the summary.

A printed message loses its control characters for sound and cursor, its tabs become blanks up to
the next tab stop, and its lines are broken where the console ends. A backslash in front of an
opening bracket is not printed: it says that the bracket starts no mark.

Printing fails on a line that cannot be cropped. What was printed before stays printed.
-/

namespace ChainGuard.Console

/-! ## Output -/

/-- What is printed, piece by piece, up to the first piece that fails. -/
abbrev Output := List (Except CropError Text)

/-- The text that comes out, and why no more does. -/
def Output.printed : Output → Text × Option CropError
  | [] => ([], none)
  | .error e :: _ => ([], some e)
  | .ok t :: rest =>
    let (others, e) := Output.printed rest
    (t ++ others, e)

def ended (line : Text) : Text :=
  line ++ ['\n']

/-- A control character that is not printed: bell, backspace, vertical tab, form feed, carriage
return. -/
def isUnprinted (c : Char) : Bool :=
  [7, 8, 11, 12, 13].contains c.toNat

def visible (t : Text) : Text :=
  t.filter fun c => !isUnprinted c

/-! ## Messages -/

/-- A message: its text, and the spans that are marked to be drawn in a style. -/
structure Message where
  text : Text
  marked : List Span := []

/-- The text without the backslashes in front of opening brackets. -/
def unescape : Text → Text
  | '\\' :: '[' :: rest => '[' :: unescape rest
  | c :: rest => c :: unescape rest
  | [] => []

namespace Message

def ofString (s : String) : Message :=
  { text := visible (unescape s.toList) }

/-- A message that begins with `lead`, the rest of which stands between marks for its style. Of the
marks, the closing one is given. The marks are not printed. Backslashes right in front of the
closing mark stand for half as many, and one that is left over makes plain text of the mark. -/
def between (lead body closing : String) : Message :=
  let front := Text.dropEndWhile (· == '\\') body.toList
  let backslashes := body.length - front.length
  let text := lead.toList ++ visible (unescape front) ++ List.replicate (backslashes / 2) '\\' ++
    if backslashes % 2 = 1 then closing.toList else []
  { text, marked := [⟨lead.length, text.length⟩] }

/-- A joiner or an emoji selector stands in the message, so that borders of style matter. -/
def needsStyles (m : Message) : Bool :=
  m.text.any fun c => c == Text.joiner || c == Text.emojiSelector

def inked (m : Message) : List Ink :=
  Ink.ofText (if m.needsStyles then highlights m.text ++ m.marked else []) m.text

/-- A message as it is printed, and a line end. Tab stops are eight cells apart. No line is printed
before all of them are laid out. -/
def print (m : Message) : Output :=
  match (Ink.lines m.inked).mapM fun line => wrap (Ink.expandTabs 8 line) with
  | .error e => [.error e]
  | .ok lines => lines.flatten.map fun line => (draw line).map ended

end Message

/-- A message without marks as it is printed. -/
def line (s : String) : Output :=
  (Message.ofString s).print

/-! ## Styles in a text -/

/-- The length of the sequence at the front of a text that sets a style: escape, a bracket,
parameters, a letter. -/
def styleLength? : Text → Option Nat
  | '\x1b' :: '[' :: rest =>
    let parameters := rest.takeWhile fun c => c.isDigit || c == ';' || c == '?'
    match rest[parameters.length]? with
    | some c => if c.isAlpha then some (parameters.length + 3) else none
    | none => none
  | _ => none

/-- The text without the sequences that set styles, and without its first `skip` characters. -/
def dropStylesFrom : (skip : Nat) → Text → Text
  | _, [] => []
  | skip + 1, _ :: rest => dropStylesFrom skip rest
  | 0, c :: rest =>
    match styleLength? (c :: rest) with
    | some length => dropStylesFrom (length - 1) rest
    | none => c :: dropStylesFrom 0 rest

def dropStyles (t : Text) : Text :=
  dropStylesFrom 0 t

/-! ## The table of passes -/

def passTable (rows : List PassRow) : Output :=
  (passLines rows).map fun line => .ok (ended line.toList)

/-! ## Diffs -/

/-- A diff as it is printed. Tab stops are four characters apart, and long lines are cropped. A
diff that ends with a line feed is followed by an empty line. -/
def listing (diff : Text) : Output :=
  let isEnded := diff.getLast? = some '\n'
  let lines := Text.splitOnChar '\n'
    (Text.unifyLineEnds (if isEnded then diff else diff ++ ['\n']))
  let shown := if isEnded then lines else lines.dropLast
  match shown.mapM fun line => Text.crop width (visible (expandTabs List.length 4 line)) with
  | .error e => [.error e]
  | .ok lines => lines.map fun line => .ok (ended line)

def diffs (changed : Dict (Text × Text)) : Output :=
  let sorted := changed.mergeSort fun a b => decide (a.1 ≤ b.1)
  sorted.flatMap fun (path, before, after) =>
    (Message.between "\n" path "[/bold]").print ++ listing (Diff.unified path before after)

/-! ## The summary -/

/-- What the summary tells. -/
structure Summary where
  changes : Int
  passes : Int
  files : Nat
  dry : Bool
  backup : Option String

def summaryLine (s : Summary) : String :=
  if s.dry then s!"DRY RUN: would apply {s.changes} edits" else s!"DONE: applied {s.changes} edits"

def summary (s : Summary) : Output :=
  line (summaryLine s) ++ line s!"  {s.files} file(s) changed in {s.passes} pass(es)" ++
    match s.backup with
    | some directory =>
      line s!"  Backups saved to {directory}" ++ line "  Run `chainfix undo` to revert."
    | none => []

def restoredLine (file : String) : Output :=
  ({ Message.ofString ("  ✅ " ++ file) with marked := [⟨2, 3⟩] } : Message).print

end ChainGuard.Console
