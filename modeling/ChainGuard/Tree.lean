/-!
# Syntax trees

A syntax tree of a TypeScript source as a parser delivers it: every node has a kind, a byte range in
the UTF-8 encoding of the source, and possibly the field under which its parent knows it. The tree
is plain data. No relation between the ranges of a node and its children is assumed.

A `Focus` is a node together with the way back to the root, so that a rule can look upwards.

* `Tree.field?` and `Tree.fieldIndex?` find the child known under a field.
* `Focus.parent?` and `Focus.child?` move the focus.
* `Focus.descend` walks from a node to the deepest node at a byte.
* `Focus.preorder` lists the nodes below a focus in the order of the source.
-/

namespace ChainGuard

/-! ## Nodes -/

/-- What a node is. The kinds that some rule mentions have a constructor of their own. -/
inductive Kind where
  | memberExpression
  | subscriptExpression
  | callExpression
  | templateString
  | assignmentExpression
  | augmentedAssignmentExpression
  | updateExpression
  | unaryExpression
  | deleteOperator
  | nonNullExpression
  | parenthesizedExpression
  | comment
  | superKeyword
  | newExpression
  | identifier
  | optionalChain
  | optionalToken
  | other (name : String)
  deriving DecidableEq, Repr

namespace Kind

def ofName (name : String) : Kind :=
  if name = "member_expression" then .memberExpression
  else if name = "subscript_expression" then .subscriptExpression
  else if name = "call_expression" then .callExpression
  else if name = "template_string" then .templateString
  else if name = "assignment_expression" then .assignmentExpression
  else if name = "augmented_assignment_expression" then .augmentedAssignmentExpression
  else if name = "update_expression" then .updateExpression
  else if name = "unary_expression" then .unaryExpression
  else if name = "delete" then .deleteOperator
  else if name = "non_null_expression" then .nonNullExpression
  else if name = "parenthesized_expression" then .parenthesizedExpression
  else if name = "comment" then .comment
  else if name = "super" then .superKeyword
  else if name = "new_expression" then .newExpression
  else if name = "identifier" then .identifier
  else if name = "optional_chain" then .optionalChain
  else if name = "?." then .optionalToken
  else .other name

def name : Kind → String
  | memberExpression => "member_expression"
  | subscriptExpression => "subscript_expression"
  | callExpression => "call_expression"
  | templateString => "template_string"
  | assignmentExpression => "assignment_expression"
  | augmentedAssignmentExpression => "augmented_assignment_expression"
  | updateExpression => "update_expression"
  | unaryExpression => "unary_expression"
  | deleteOperator => "delete"
  | nonNullExpression => "non_null_expression"
  | parenthesizedExpression => "parenthesized_expression"
  | comment => "comment"
  | superKeyword => "super"
  | newExpression => "new_expression"
  | identifier => "identifier"
  | optionalChain => "optional_chain"
  | optionalToken => "?."
  | other name => name

end Kind

/-- The role of a child in its parent, for the roles that some rule asks for. -/
inductive Field where
  | function
  | arguments
  | object
  | property
  | left
  | argument
  | operator
  deriving DecidableEq, Repr

namespace Field

def ofName? (name : String) : Option Field :=
  if name = "function" then some .function
  else if name = "arguments" then some .arguments
  else if name = "object" then some .object
  else if name = "property" then some .property
  else if name = "left" then some .left
  else if name = "argument" then some .argument
  else if name = "operator" then some .operator
  else none

end Field

/-- What is written at a node: its kind, its byte range, whether it is named, and its role in its
parent. -/
structure Label where
  kind : Kind
  start : Nat
  stop : Nat
  named : Bool
  field : Option Field := none
  deriving DecidableEq, Repr

/-- A syntax tree. -/
inductive Tree where
  | node (label : Label) (children : List Tree)

namespace Tree

def label : Tree → Label
  | node l _ => l

/-- The children of the top node, in the order of the source. -/
def children : Tree → List Tree
  | node _ cs => cs

def kind (t : Tree) : Kind :=
  t.label.kind

/-- The first byte of the top node. -/
def start (t : Tree) : Nat :=
  t.label.start

/-- The byte after the last byte of the top node. -/
def stop (t : Tree) : Nat :=
  t.label.stop

def hasField (f : Field) (c : Tree) : Bool :=
  c.label.field == some f

def fieldIndex? (t : Tree) (f : Field) : Option Nat :=
  t.children.findIdx? (hasField f)

def field? (t : Tree) (f : Field) : Option Tree :=
  t.children.find? (hasField f)

/-- The byte range of `t` lies in the byte range of `outer`. -/
def within (t outer : Tree) : Bool :=
  outer.start ≤ t.start && t.stop ≤ outer.stop

/-- The node ends before byte `b`. A node of no width still reaches the byte at which it stands. -/
def endsBefore (t : Tree) (b : Nat) : Bool :=
  if t.start = t.stop then t.stop < b else t.stop ≤ b

end Tree

/-! ## Focus -/

/-- One step of the way from a node to the root: the parent, and the position of the child below. -/
structure Above where
  tree : Tree
  index : Nat

/-- A node of a tree together with its ancestors, the parent first. -/
structure Focus where
  here : Tree
  above : List Above

namespace Focus

def ofRoot (t : Tree) : Focus :=
  ⟨t, []⟩

def isRoot (f : Focus) : Bool :=
  f.above.isEmpty

def parent? (f : Focus) : Option Focus :=
  match f.above with
  | [] => none
  | p :: rest => some ⟨p.tree, rest⟩

def child? (f : Focus) (i : Nat) : Option Focus :=
  f.here.children[i]?.map fun c => ⟨c, ⟨f.here, i⟩ :: f.above⟩

/-- The positions of the children to take from the root to the focus. -/
def path (f : Focus) : List Nat :=
  (f.above.map Above.index).reverse

/-- The foci on the given ancestors, the nearest first. -/
def ancestorsOf : List Above → List Focus
  | [] => []
  | p :: rest => ⟨p.tree, rest⟩ :: ancestorsOf rest

/-- The focus itself and then its ancestors up to the root. -/
def lineage (f : Focus) : List Focus :=
  f :: ancestorsOf f.above

mutual

/-- The deepest node at byte `b` that is reached from a node by taking, again and again, the first
child that does not end before `b`, as long as that child starts at or before `b`. -/
def descend (b : Nat) (above : List Above) : Tree → Focus
  | .node l cs => descendAmong b above (.node l cs) 0 cs

/-- The walk of `descend` over the children of `t` that remain, the first of which is at position
`i`. -/
def descendAmong (b : Nat) (above : List Above) (t : Tree) (i : Nat) : List Tree → Focus
  | [] => ⟨t, above⟩
  | c :: cs =>
    if c.endsBefore b then descendAmong b above t (i + 1) cs
    else if b < c.start then ⟨t, above⟩
    else descend b (⟨t, i⟩ :: above) c

end

mutual

def preorderFrom (above : List Above) : Tree → List Focus
  | .node l cs => ⟨.node l cs, above⟩ :: preorderAmong above (.node l cs) 0 cs

/-- The nodes below the children of `t` that remain, the first of which is at position `i`. -/
def preorderAmong (above : List Above) (t : Tree) (i : Nat) : List Tree → List Focus
  | [] => []
  | c :: cs => preorderFrom (⟨t, i⟩ :: above) c ++ preorderAmong above t (i + 1) cs

end

def preorder (t : Tree) : List Focus :=
  preorderFrom [] t

end Focus

end ChainGuard
