import ChainGuard.Tree

/-!
# Access chains

An access chain is built from member accesses `a.b`, indexed accesses `a[k]` and invocations `f()`,
each resting on its base. The rules here say what a node is in a chain, and where a chain may not
become optional.

* A tagged template is parsed as a call whose arguments are a template string. It is no invocation.
* `isWritten`: the node is, or lies in, the target of an assignment, of `++` or `--`, or of
  `delete`.
* `asserts`: the chain that ends in this node uses a non-null assertion `!`.
* `isTemplateTag`: the node lies on the chain that a template string is tagged with.
-/

namespace ChainGuard

/-- The three forms of access, and everything else. -/
inductive Shape where
  | memberAccess
  | indexedAccess
  | invocation
  | other
  deriving DecidableEq, Repr

namespace Tree

/-! ## Single nodes -/

/-- A call whose arguments are a template string. -/
def isTaggedTemplate (t : Tree) : Bool :=
  t.kind == .callExpression &&
    match t.field? .arguments with
    | some args => args.kind == .templateString
    | none => false

def shape (t : Tree) : Shape :=
  if t.isTaggedTemplate then .other
  else
    match t.kind with
    | .memberExpression => .memberAccess
    | .subscriptExpression => .indexedAccess
    | .callExpression => .invocation
    | _ => .other

/-- The node is one of the three forms of access. -/
def isAccess (t : Tree) : Bool :=
  t.shape != .other

/-- The field that holds the base of a node. -/
def baseField? (t : Tree) : Option Field :=
  match t.kind with
  | .callExpression => some .function
  | .memberExpression | .subscriptExpression => some .object
  | _ => none

def baseIndex? (t : Tree) : Option Nat :=
  t.baseField?.bind t.fieldIndex?

/-- The expression that an access or a call is applied to. -/
def base? (t : Tree) : Option Tree :=
  t.baseField?.bind t.field?

/-- This very access carries `?.`. Only its own children count: in `a?.b.c` the outer access has no
marker. -/
def hasMarker (t : Tree) : Bool :=
  t.children.any fun c => c.kind == .optionalChain || c.kind == .optionalToken

/-- The child that a node writes to. -/
def writeTarget? (t : Tree) : Option Tree :=
  match t.kind with
  | .assignmentExpression | .augmentedAssignmentExpression => t.field? .left
  | .updateExpression => t.field? .argument
  | .unaryExpression =>
    match t.field? .operator with
    | some op => if op.kind == .deleteOperator then t.field? .argument else none
    | none => none
  | _ => none

/-- The node `t`, a child of `parent`, lies in what `parent` writes to. -/
def writtenBy (t parent : Tree) : Bool :=
  match parent.writeTarget? with
  | some target => t.within target
  | none => false

mutual

/-- The node is a non-null assertion, or the expression in its parentheses is, or the base it is
accessed through is. -/
def asserts : Tree → Bool
  | .node l cs =>
    if l.kind = .nonNullExpression then true
    else if l.kind = .parenthesizedExpression then
      firstAsserts (fun c => c.label.named && c.kind != .comment) cs
    else if (Tree.node l cs).isAccess then
      match (Tree.node l cs).baseField? with
      | some f => firstAsserts (hasField f) cs
      | none => false
    else false

/-- The first of the trees that is `chosen` asserts. -/
def firstAsserts (chosen : Tree → Bool) : List Tree → Bool
  | [] => false
  | c :: cs => if chosen c then c.asserts else firstAsserts chosen cs

end

end Tree

/-! ## Nodes in their surroundings -/

namespace Above

/-- The parent is an access, and the child below is its base. -/
def isBuiltOn (p : Above) : Bool :=
  p.tree.isAccess && p.tree.baseIndex? == some p.index

end Above

namespace Focus

/-- Some ancestor in `above` writes to its child on the way down to `cur`. -/
def writtenUnder (cur : Tree) : List Above → Bool
  | [] => false
  | p :: rest => cur.writtenBy p.tree || writtenUnder p.tree rest

/-- The node is, or lies in, a target of a write. An optional chain is no target, so nothing below
one may become optional. -/
def isWritten (f : Focus) : Bool :=
  writtenUnder f.here f.above

/-- Climbing from base to access ends at the tag of a template. -/
def tagsTemplate : List Above → Bool
  | [] => false
  | p :: rest =>
    if p.tree.isTaggedTemplate then p.tree.fieldIndex? .function == some p.index
    else if p.isBuiltOn then tagsTemplate rest
    else false

/-- The node lies on the chain that a template string is tagged with. An optional chain is no
tag. -/
def isTemplateTag (f : Focus) : Bool :=
  tagsTemplate f.above

/-! ## The node that a diagnostic is about -/

/-- The nearest access at or above a node. -/
def nearestAccess? (f : Focus) : Option Focus :=
  f.lineage.find? (·.here.isAccess)

/-- The nearest invocation at or above a node. -/
def enclosingCall? (f : Focus) : Option Focus :=
  f.lineage.find? fun g => g.here.kind == .callExpression && !g.here.isTaggedTemplate

/-- The access to guard when the value at a node may be missing. If the nearest access is already
optional the diagnostic is about the next segment of the chain, so the access built on it is
meant. -/
def nullishAccess? (f : Focus) : Option Focus :=
  match f.nearestAccess? with
  | none => none
  | some near =>
    if near.here.hasMarker then
      match near.above with
      | p :: rest => if p.isBuiltOn then some ⟨p.tree, rest⟩ else some near
      | [] => some near
    else some near

end Focus

end ChainGuard
