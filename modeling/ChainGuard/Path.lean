import ChainGuard.Text.Lines

/-!
# Paths

POSIX paths, taken lexically: no symbolic links. A path is an anchor and a list of parts. Empty
parts and the part `.` are dropped on reading. The part `..` stays until the path is made absolute.
Exactly two leading slashes are an anchor of their own.

* `absolute` makes a path absolute and removes `..`; `resolve` also turns two leading slashes into
  one.
* `commonBase` is the deepest directory that holds all given paths.
* `relativeTo` is the way from a directory to a path.
-/

namespace ChainGuard

/-- How a path starts. -/
inductive Anchor where
  | relative
  | root
  | doubleRoot
  deriving DecidableEq, Repr

/-- A path without empty parts and without the part `.`. -/
structure Path where
  anchor : Anchor
  parts : List String
  deriving DecidableEq, Repr

namespace Anchor

def slashes : Anchor → String
  | relative => ""
  | root => "/"
  | doubleRoot => "//"

end Anchor

namespace Path

/-! ## Reading and writing -/

def anchorOf : Text → Anchor
  | '/' :: '/' :: '/' :: _ => .root
  | '/' :: '/' :: _ => .doubleRoot
  | '/' :: _ => .root
  | _ => .relative

/-- The parts of a path in text form, empty parts and `.` included. -/
def pieces (t : Text) : List String :=
  (Text.splitOnChar '/' t).map String.ofList

def ofString (s : String) : Path :=
  ⟨anchorOf s.toList, (pieces s.toList).filter fun p => p != "" && p != "."⟩

/-- Write a path. The empty relative path is written as a dot. -/
def render (p : Path) : String :=
  if p.anchor = .relative ∧ p.parts = [] then "."
  else p.anchor.slashes ++ String.intercalate "/" p.parts

/-! ## Parts -/

/-- The path does not depend on a working directory. -/
def isAbsolute (p : Path) : Bool :=
  p.anchor != .relative

def name (p : Path) : String :=
  p.parts.getLast?.getD ""

/-- The directory that holds the path. The root holds itself. -/
def parent (p : Path) : Path :=
  { p with parts := p.parts.dropLast }

/-- The path `q` seen from `p`. -/
def join (p q : Path) : Path :=
  if q.isAbsolute then q else { p with parts := p.parts ++ q.parts }

def child (p : Path) (part : String) : Path :=
  { p with parts := p.parts ++ [part] }

/-- The path and all directories above it, the nearest first. -/
def upwards (p : Path) : List Path :=
  (List.range (p.parts.length + 1)).map fun k =>
    { p with parts := p.parts.take (p.parts.length - k) }

/-! ## Absolute paths -/

def follow (at_ : List String) (part : String) : List String :=
  if part = ".." then at_.dropLast else at_ ++ [part]

/-- Remove `..` from the parts of an absolute path. -/
def collapse (parts : List String) : List String :=
  parts.foldl follow []

/-- The absolute path without `..`, seen from the working directory. -/
def absolute (cwd p : Path) : Path :=
  let q := cwd.join p
  { q with parts := collapse q.parts }

/-- The place a path denotes: absolute, without `..`, and with a single leading slash. -/
def resolve (cwd p : Path) : Path :=
  ⟨.root, (absolute cwd p).parts⟩

/-- The directory, or one above it, is `dir`. -/
def isUnder (p dir : Path) : Bool :=
  p.anchor == dir.anchor && dir.parts.isPrefixOf p.parts

/-! ## Common directories -/

/-- The longest common beginning of two lists. -/
def commonStart : List String → List String → List String
  | a :: as, b :: bs => if a = b then a :: commonStart as bs else []
  | _, _ => []

def commonStartAll : List (List String) → List String
  | [] => []
  | [ps] => ps
  | ps :: rest => commonStart ps (commonStartAll rest)

/-- The deepest directory that holds every one of the given paths. Without paths it is the working
directory. -/
def commonBase (cwd : Path) : List Path → Path
  | [] => cwd
  | paths => ⟨.root, commonStartAll (paths.map fun p => ((absolute cwd p).parent).parts)⟩

/-- The deepest common directory of two paths, in text form. One of them being absolute and the
other relative, there is none. -/
def commonText? (p q : Path) : Option String :=
  if p.isAbsolute = q.isAbsolute then
    some ((if p.isAbsolute then "/" else "") ++
      String.intercalate "/" (commonStart p.parts q.parts))
  else none

/-- The way from the directory `base` to `p`: up to the common directory, then down. -/
def relativeTo (cwd p base : Path) : Path :=
  let target := (absolute cwd p).parts
  let start := (absolute cwd base).parts
  let shared := (commonStart start target).length
  ⟨.relative, List.replicate (start.length - shared) ".." ++ target.drop shared⟩

end Path

end ChainGuard
