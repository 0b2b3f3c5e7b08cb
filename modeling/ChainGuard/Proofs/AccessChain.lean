import ChainGuard.Guard
import ChainGuard.Proofs.Text

/-!
# Access chains as syntax

A chain is a name followed by segments: properties `.b`, indices `[k]`, calls `(x)`, each plain or
with the marker, and assertions `!`. This file says how a chain is written, which tree it has, which
of its segments a diagnostic is about, and which segments may be guarded. None of this looks at
edits or positions in a text: it is the meaning of the rules, in terms of segments alone.

* `AccessChain.text`, `AccessChain.tree`: the chain as an expression statement.
* `AccessChain.target?`: the segment that a diagnostic asks to guard.
* `AccessChain.guardable`: the segment is guarded if asked for.
* `AccessChain.guard`: the chain with some of its segments guarded.
-/

namespace ChainGuard

/-! ## Segments -/

/-- Whether a segment carries the marker, and how its tree shows it: in a node of its own, or as a
bare token. -/
inductive Marking where
  | plain
  | wrapped
  | bare
  deriving DecidableEq

/-- One segment of a chain. What stands in an index or in a call is any text, with any nodes. -/
inductive Segment where
  | property (marking : Marking) (name : Text)
  | index (marking : Marking) (content : Text) (nodes : List Tree)
  | call (marking : Marking) (content : Text) (nodes : List Tree)
  | assertion

namespace Marking

/-- The marker in front of a bracket or a parenthesis. -/
def text : Marking → Text
  | plain => []
  | _ => Text.marker

/-- The dot of a property, or the marker in its place. -/
def dotText : Marking → Text
  | plain => ['.']
  | _ => Text.marker

end Marking

/-- A node without children that stands at byte `start` and has the text `t`. -/
def Tree.leaf (kind : Kind) (named : Bool) (field : Option Field) (start : Nat) (t : Text) : Tree :=
  .node ⟨kind, start, start + Text.utf8Length t, named, field⟩ []

namespace Marking

def nodes (start : Nat) : Marking → List Tree
  | plain => []
  | wrapped =>
    [.node ⟨.optionalChain, start, start + 2, true, none⟩
      [.leaf .optionalToken false none start Text.marker]]
  | bare => [.leaf .optionalToken false none start Text.marker]

/-- The nodes of the dot or the marker at byte `start`. -/
def dotNodes (start : Nat) : Marking → List Tree
  | plain => [.leaf (.other ".") false none start ['.']]
  | m => m.nodes start

end Marking

namespace Segment

def text : Segment → Text
  | property m name => m.dotText ++ name
  | index m content _ => m.text ++ ('[' :: content ++ [']'])
  | call m content _ => m.text ++ ('(' :: content ++ [')'])
  | assertion => ['!']

def isAssertion : Segment → Bool
  | assertion => true
  | _ => false

def isCall : Segment → Bool
  | call _ _ _ => true
  | _ => false

/-- How the segment is marked. An assertion never is. -/
def marking : Segment → Marking
  | property m _ => m
  | index m _ _ => m
  | call m _ _ => m
  | assertion => .plain

/-- The segment with the marker. An assertion has no place for it. -/
def guarded : Segment → Segment
  | property _ name => property .wrapped name
  | index _ content nodes => index .wrapped content nodes
  | call _ content nodes => call .bare content nodes
  | assertion => assertion

def label (s : Segment) (base : Tree) : Tree :=
  match s, base with
  | property _ _, .node l cs => .node { l with field := some .object } cs
  | index _ _ _, .node l cs => .node { l with field := some .object } cs
  | call _ _ _, .node l cs => .node { l with field := some .function } cs
  | assertion, base => base

/-- The children of the node of a segment behind the base, which ends at byte `start`. -/
def parts (start : Nat) : Segment → List Tree
  | property m name =>
    m.dotNodes start ++ [.leaf (.other "property_identifier") true (some .property)
      (start + Text.utf8Length m.dotText) name]
  | index m content nodes =>
    let open_ := start + Text.utf8Length m.text
    m.nodes start ++ .leaf (.other "[") false none open_ ['['] :: nodes ++
      [.leaf (.other "]") false none (open_ + 1 + Text.utf8Length content) [']']]
  | call m content nodes =>
    let open_ := start + Text.utf8Length m.text
    let close := open_ + 1 + Text.utf8Length content
    m.nodes start ++ [.node ⟨.other "arguments", open_, close + 1, true, some .arguments⟩
      (.leaf (.other "(") false none open_ ['('] :: nodes ++
        [.leaf (.other ")") false none close [')']])]
  | assertion => [.leaf (.other "!") false none start ['!']]

def kind : Segment → Kind
  | property _ _ => .memberExpression
  | index _ _ _ => .subscriptExpression
  | call _ _ _ => .callExpression
  | assertion => .nonNullExpression

def node (s : Segment) (base : Tree) : Tree :=
  .node ⟨s.kind, base.start, base.stop + Text.utf8Length s.text, true, none⟩
    (s.label base :: s.parts base.stop)

/-- A name has characters, and none of them is one of the marker. An index brings no marker of its
own. -/
def WellFormed : Segment → Prop
  | property _ name => name ≠ [] ∧ ∀ c ∈ name, c ∉ Text.marker
  | index _ _ nodes => ∀ n ∈ nodes, n.kind ≠ .optionalChain ∧ n.kind ≠ .optionalToken
  | _ => True

end Segment

/-! ## Chains -/

/-- A name and the segments behind it, as a statement with or without a semicolon. -/
structure AccessChain where
  root : Text
  segments : List Segment
  semicolon : Bool := true

namespace AccessChain

/-- The text of a chain up to its `k`-th segment, counted from zero. -/
def textTo (c : AccessChain) (k : Nat) : Text :=
  c.root ++ (c.segments.take k).flatMap Segment.text

def ending (c : AccessChain) : Text :=
  if c.semicolon then [';'] else []

def text (c : AccessChain) : Text :=
  c.root ++ c.segments.flatMap Segment.text ++ c.ending

/-- The node of a chain of segments on a base: each segment rests on the one before. -/
def nodeFrom (base : Tree) : List Segment → Tree
  | [] => base
  | s :: rest => nodeFrom (s.node base) rest

def rootNode (c : AccessChain) : Tree :=
  .leaf .identifier true none 0 c.root

def chainNode (c : AccessChain) : Tree :=
  nodeFrom c.rootNode c.segments

def statement (c : AccessChain) : Tree :=
  .node ⟨.other "expression_statement", 0, Text.utf8Length c.text, true, none⟩
    (c.chainNode ::
      if c.semicolon then [.leaf (.other ";") false none c.chainNode.stop [';']] else [])

def tree (c : AccessChain) : Tree :=
  .node ⟨.other "program", 0, Text.utf8Length c.text, true, none⟩ [c.statement]

def source (c : AccessChain) : Source :=
  ⟨c.text, c.tree⟩

/-- The names of a chain have characters, and none of them is one of the marker. -/
structure WellFormed (c : AccessChain) : Prop where
  root_ne_nil : c.root ≠ []
  root_chars : ∀ x ∈ c.root, x ∉ Text.marker
  segments : ∀ s ∈ c.segments, s.WellFormed

/-! ## Diagnostics -/

/-- The name that a diagnostic points at. -/
inductive Spot where
  | root
  | property (k : Nat)
  deriving DecidableEq

/-- A diagnostic on a name of a chain. -/
structure Complaint where
  code : Int
  spot : Spot
  offset : Nat

/-- The offset of a diagnostic lies inside the name that it points at. -/
def Covers (c : AccessChain) (d : Complaint) : Prop :=
  match d.spot with
  | .root => d.offset < c.root.length
  | .property k => ∃ m name, c.segments[k]? = some (.property m name) ∧
      (c.textTo k ++ m.dotText).length ≤ d.offset ∧
      d.offset < (c.textTo k ++ m.dotText).length + name.length

/-- The segment nearest to a name: that of a property, or the first behind the root that is no
assertion. -/
def nearest? (c : AccessChain) : Spot → Option Nat
  | .root => c.segments.findIdx? fun s => !s.isAssertion
  | .property k => some k

/-- The first call at or behind a name. -/
def call? (c : AccessChain) : Spot → Option Nat
  | .root => c.segments.findIdx? Segment.isCall
  | .property k => ((c.segments.drop k).findIdx? Segment.isCall).map (k + ·)

/-- The segment behind the `j`-th, if there is one and it is no assertion. -/
def next? (c : AccessChain) (j : Nat) : Option Nat :=
  match c.segments[j + 1]? with
  | some s => if s.isAssertion then none else some (j + 1)
  | none => none

/-- The segment that a diagnostic asks to guard: the next call for a missing function. Otherwise it
is the nearest segment, or the one behind it if the nearest has the marker already. -/
def target? (c : AccessChain) (d : Complaint) : Option Nat :=
  if d.code = invokeCode then c.call? d.spot
  else
    match c.nearest? d.spot with
    | none => none
    | some j =>
      if (c.segments[j]?.map Segment.marking) = some .plain then some j
      else some ((c.next? j).getD j)

/-! ## Guards -/

/-- A call is guarded on the root name, on a property and on an index only. -/
def callsPlainly (c : AccessChain) (k : Nat) : Bool :=
  match k with
  | 0 => true
  | k + 1 =>
    match c.segments[k]? with
    | some (.property _ _) | some (.index _ _ _) => true
    | _ => false

/-- The segment can be guarded: it is not marked yet, it rests on no assertion, and if it is a call
it calls a name or an access. -/
def guardable (c : AccessChain) (k : Nat) : Bool :=
  match c.segments[k]? with
  | none | some .assertion => false
  | some s =>
    s.marking == .plain && !(c.segments.take k).any Segment.isAssertion &&
      (!s.isCall || c.callsPlainly k)

/-- The chain with the given segments guarded. -/
def guard (c : AccessChain) (ks : List Nat) : AccessChain :=
  { c with segments := c.segments.mapIdx fun i s => if i ∈ ks then s.guarded else s }

/-- The segments that get the marker for some diagnostics. -/
def guards (c : AccessChain) (ds : List Complaint) : List Nat :=
  (ds.filterMap c.target?).filter c.guardable

end AccessChain

end ChainGuard
