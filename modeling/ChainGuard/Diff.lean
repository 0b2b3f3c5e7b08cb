import ChainGuard.Diff.Matching
import ChainGuard.Path
import ChainGuard.Text.Lines

/-!
# Unified diffs

The difference of two texts, line by line, in the unified format. Lines keep their ends.

* `Run` is a stretch that both texts share, or one in which they differ; `runs` cuts two texts into
  runs.
* `Hunk` is a run of changes with up to three lines of context around them; `hunks` groups the runs.
* `unified` writes the hunks, and nothing for equal texts.
-/

namespace ChainGuard.Diff

/-! ## Runs -/

/-- A stretch of two sequences. -/
inductive Run (α : Type) where
  /-- Both have the same elements here. -/
  | same (items : List α)
  /-- The old elements give way to the new ones. -/
  | change (old new : List α)
  deriving DecidableEq, Repr

namespace Run

variable {α : Type}

def old : Run α → List α
  | same items => items
  | change old _ => old

def new : Run α → List α
  | same items => items
  | change _ new => new

def isChange : Run α → Bool
  | same _ => false
  | change _ _ => true

end Run

variable {α : Type}

/-- The elements of a list from `low` up to `high`. -/
def between (xs : List α) (low high : Nat) : List α :=
  (xs.take high).drop low

def changeOf (old new : List α) : List (Run α) :=
  if old.isEmpty && new.isEmpty then [] else [.change old new]

/-- The runs from two positions on, with the given blocks in common. -/
def runsFrom (old new : List α) : (i j : Nat) → List Block → List (Run α)
  | i, j, [] => changeOf (old.drop i) (new.drop j)
  | i, j, b :: rest =>
    changeOf (between old i b.old) (between new j b.new) ++
      .same (between old b.old (b.old + b.size)) ::
        runsFrom old new (b.old + b.size) (b.new + b.size) rest

/-- The runs of two sequences. -/
def runs [DecidableEq α] (old new : List α) : List (Run α) :=
  runsFrom old new 0 0 (Matching.blocks old new)

/-! ## Hunks -/

/-- Runs that follow each other, and where they start in either sequence. -/
structure Hunk (α : Type) where
  oldStart : Nat
  newStart : Nat
  runs : List (Run α)
  deriving DecidableEq, Repr

namespace Hunk

def old (h : Hunk α) : List α :=
  h.runs.flatMap Run.old

def new (h : Hunk α) : List α :=
  h.runs.flatMap Run.new

def push (h : Hunk α) (r : Run α) : Hunk α :=
  { h with runs := h.runs ++ [r] }

/-- The hunk after this one and `skipped` common elements, which starts with the common elements
`items`. -/
def next (h : Hunk α) (skipped : Nat) (items : List α) : Hunk α :=
  ⟨h.oldStart + h.old.length + skipped, h.newStart + h.new.length + skipped, [.same items]⟩

def isChange (h : Hunk α) : Bool :=
  h.runs.any Run.isChange

end Hunk

/-- The hunks of runs, the first of which is under way. A common run with more than twice the
context divides two hunks, and the last common run is cut to the context. -/
def hunksFrom (context : Nat) : (current : Hunk α) → List (Run α) → List (Hunk α)
  | current, [] => [current]
  | current, .change old new :: rest => hunksFrom context (current.push (.change old new)) rest
  | current, [.same items] => [current.push (.same (items.take context))]
  | current, .same items :: rest =>
    if 2 * context < items.length then
      let skipped := items.length - context
      current.push (.same (items.take context)) ::
        hunksFrom context (current.next skipped (items.drop skipped)) rest
    else hunksFrom context (current.push (.same items)) rest

/-- The hunks of runs. The first common run is cut to the context. -/
def hunks (context : Nat) (runs : List (Run α)) : List (Hunk α) :=
  let start : List (Hunk α) :=
    match runs with
    | .same items :: rest =>
      let skipped := items.length - context
      hunksFrom context ⟨skipped, skipped, [.same (items.drop skipped)]⟩ rest
    | _ => hunksFrom context ⟨0, 0, []⟩ runs
  start.filter Hunk.isChange

/-! ## The unified format -/

/-- The number of common lines around a change. -/
def contextLines : Nat := 3

/-- A range of lines, counted from one. A range of one line is its number. An empty range names the
line before it. -/
def rangeText (start length : Nat) : String :=
  if length = 1 then toString (start + 1)
  else if length = 0 then s!"{start},0"
  else s!"{start + 1},{length}"

def runLines : Run Text → List Text
  | .same items => items.map (' ' :: ·)
  | .change old new => old.map ('-' :: ·) ++ new.map ('+' :: ·)

def hunkLines (h : Hunk Text) : List Text :=
  s!"@@ -{rangeText h.oldStart h.old.length} +{rangeText h.newStart h.new.length} @@\n".toList ::
    h.runs.flatMap runLines

def unifiedLines (name : String) (old new : List Text) : List Text :=
  let found := hunks contextLines (runs old new)
  if found.isEmpty then []
  else
    s!"--- a/{name}\n".toList :: s!"+++ b/{name}\n".toList :: found.flatMap hunkLines

/-- The unified diff of two texts of a file. -/
def unified (path : String) (before after : Text) : Text :=
  (unifiedLines (Path.ofString path).name before.linesWithEnds after.linesWithEnds).flatten

end ChainGuard.Diff
