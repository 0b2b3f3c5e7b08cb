import ChainGuard.Proofs.AccessChain
import ChainGuard.Proofs.Source
import ChainGuard.Proofs.Tree

/-!
# From an offset to a segment

In the tree of a chain each segment's node is the first child of the next segment's node. So the way
from a name of the chain to the root leads through the nodes of all segments behind it, one after
the other, and the rules that climb this way can be read off the list of segments.

1. Ranges of the nodes of a chain.
2. `AccessChain.spine`: the way up; `descend_nodeFrom`: looking up a byte goes down that way.
3. `tokenAt?_of_covers`: the token at an offset inside a name.
4. `target?_eq`: the node to guard is that of the segment to guard.
-/

namespace ChainGuard

/-! ## 1. Ranges -/

namespace Tree

theorem leaf_kind (k : Kind) (named : Bool) (f : Option Field) (start : Nat) (t : Text) :
    (leaf k named f start t).kind = k := rfl

@[simp]
theorem leaf_start (k : Kind) (named : Bool) (f : Option Field) (start : Nat) (t : Text) :
    (leaf k named f start t).start = start := rfl

@[simp]
theorem leaf_stop (k : Kind) (named : Bool) (f : Option Field) (start : Nat) (t : Text) :
    (leaf k named f start t).stop = start + Text.utf8Length t := rfl

end Tree

namespace Segment

@[simp]
theorem label_start (s : Segment) (base : Tree) : (s.label base).start = base.start := by
  cases base; cases s <;> rfl

@[simp]
theorem label_stop (s : Segment) (base : Tree) : (s.label base).stop = base.stop := by
  cases base; cases s <;> rfl

@[simp]
theorem label_kind (s : Segment) (base : Tree) : (s.label base).kind = base.kind := by
  cases base; cases s <;> rfl

theorem label_children (s : Segment) (base : Tree) : (s.label base).children = base.children := by
  cases base
  cases s <;> rfl

@[simp]
theorem node_start (s : Segment) (base : Tree) : (s.node base).start = base.start := rfl

@[simp]
theorem node_stop (s : Segment) (base : Tree) :
    (s.node base).stop = base.stop + Text.utf8Length s.text := rfl

@[simp]
theorem node_kind (s : Segment) (base : Tree) : (s.node base).kind = s.kind := rfl

@[simp]
theorem node_children (s : Segment) (base : Tree) :
    (s.node base).children = s.label base :: s.parts base.stop := rfl

end Segment

namespace AccessChain

@[simp]
theorem nodeFrom_start (base : Tree) (segs : List Segment) :
    (nodeFrom base segs).start = base.start := by
  induction segs generalizing base with
  | nil => rfl
  | cons s rest ih => rw [nodeFrom, ih, Segment.node_start]

@[simp]
theorem nodeFrom_stop (base : Tree) (segs : List Segment) :
    (nodeFrom base segs).stop = base.stop + Text.utf8Length (segs.flatMap Segment.text) := by
  induction segs generalizing base with
  | nil => rfl
  | cons s rest ih =>
    rw [nodeFrom, ih, Segment.node_stop, List.flatMap_cons, Text.utf8Length_append, Nat.add_assoc]

theorem nodeFrom_append (base : Tree) (a b : List Segment) :
    nodeFrom base (a ++ b) = nodeFrom (nodeFrom base a) b := by
  induction a generalizing base with
  | nil => rfl
  | cons s rest ih => exact ih (s.node base)

/-! ## 2. The way up -/

def labelled (base : Tree) : List Segment → Tree
  | [] => base
  | s :: _ => s.label base

@[simp]
theorem labelled_kind (base : Tree) (segs : List Segment) :
    (labelled base segs).kind = base.kind := by
  cases segs <;> simp [labelled]

@[simp]
theorem labelled_stop (base : Tree) (segs : List Segment) :
    (labelled base segs).stop = base.stop := by
  cases segs <;> simp [labelled]

@[simp]
theorem labelled_children (base : Tree) (segs : List Segment) :
    (labelled base segs).children = base.children := by
  cases segs <;> simp [labelled, Segment.label_children]

/-- The ancestors of a base: the nodes of the segments behind it, then those in `outer`. -/
def spine (outer : List Above) (base : Tree) : List Segment → List Above
  | [] => outer
  | s :: rest => ⟨labelled (s.node base) rest, 0⟩ :: spine outer (s.node base) rest

/-- The node of a base under the segments behind it, with its ancestors. -/
def focusOn (outer : List Above) (base : Tree) (segs : List Segment) : Focus :=
  ⟨labelled base segs, spine outer base segs⟩

def focusAt (outer : List Above) (base : Tree) (segs : List Segment) (k : Nat) : Focus :=
  focusOn outer (nodeFrom base (segs.take (k + 1))) (segs.drop (k + 1))

theorem focusAt_add (outer : List Above) (base : Tree) (segs : List Segment) (n k : Nat) :
    focusAt outer base segs (n + k) =
      focusAt outer (nodeFrom base (segs.take n)) (segs.drop n) k := by
  induction segs generalizing base n with
  | nil => simp [focusAt, nodeFrom]
  | cons s rest ih =>
    cases n with
    | zero => rw [Nat.zero_add]; rfl
    | succ n =>
      rw [Nat.succ_add_eq_add_succ]
      exact ih (s.node base) n

/-- Looking up a byte in a base goes down through the nodes of the segments behind it. -/
theorem descend_nodeFrom {b : Nat} {outer : List Above} {base : Tree} {segs : List Segment}
    (hstart : base.start ≤ b) (hstop : b < base.stop) :
    Focus.descend b outer (nodeFrom base segs) =
      Focus.descend b (spine outer base segs) (labelled base segs) := by
  induction segs generalizing base with
  | nil => rfl
  | cons s rest ih =>
    have hnode : b < (s.node base).stop := by
      rw [Segment.node_stop]
      omega
    have hdown := ih (show (s.node base).start ≤ b from hstart) hnode
    rw [nodeFrom, hdown, Focus.descend_eq, labelled_children, Segment.node_children,
      Focus.descendAmong_take (by rwa [Segment.label_start]) (by rwa [Segment.label_stop])]
    rfl

/-! ## 3. Tokens -/

def outer (c : AccessChain) : List Above :=
  [⟨c.statement, 0⟩, ⟨c.tree, 0⟩]

theorem text_eq (c : AccessChain) (k : Nat) :
    c.text = c.textTo k ++ ((c.segments.drop k).flatMap Segment.text ++ c.ending) := by
  have hsplit : c.segments.flatMap Segment.text =
      (c.segments.take k).flatMap Segment.text ++ (c.segments.drop k).flatMap Segment.text := by
    rw [← List.flatMap_append, List.take_append_drop]
  unfold text textTo
  rw [hsplit, List.append_assoc, List.append_assoc, List.append_assoc]

theorem drop_eq_cons {c : AccessChain} {k : Nat} {s : Segment} (h : c.segments[k]? = some s) :
    c.segments.drop k = s :: c.segments.drop (k + 1) := by
  obtain ⟨hlt, rfl⟩ := List.getElem?_eq_some_iff.mp h
  exact List.drop_eq_getElem_cons hlt

theorem text_eq_of_getElem? {c : AccessChain} {k : Nat} {s : Segment}
    (h : c.segments[k]? = some s) :
    c.text = c.textTo k ++ (s.text ++
      ((c.segments.drop (k + 1)).flatMap Segment.text ++ c.ending)) := by
  rw [c.text_eq k, drop_eq_cons h, List.flatMap_cons, List.append_assoc]

def baseAt (c : AccessChain) (k : Nat) : Tree :=
  nodeFrom c.rootNode (c.segments.take k)

theorem baseAt_start (c : AccessChain) (k : Nat) : (c.baseAt k).start = 0 := by
  rw [baseAt, nodeFrom_start]
  rfl

theorem baseAt_stop (c : AccessChain) (k : Nat) :
    (c.baseAt k).stop = Text.utf8Length (c.textTo k) := by
  unfold baseAt textTo rootNode
  rw [nodeFrom_stop, Tree.leaf_stop, Text.utf8Length_append, Nat.zero_add]

theorem chainNode_eq (c : AccessChain) (k : Nat) :
    c.chainNode = nodeFrom (c.baseAt k) (c.segments.drop k) := by
  unfold chainNode baseAt
  rw [← nodeFrom_append, List.take_append_drop]

theorem textTo_succ {c : AccessChain} {k : Nat} {s : Segment} (h : c.segments[k]? = some s) :
    c.textTo (k + 1) = c.textTo k ++ s.text := by
  unfold textTo
  rw [List.take_add_one, h, List.flatMap_append, List.append_assoc]
  simp

theorem baseAt_succ {c : AccessChain} {k : Nat} {s : Segment} (h : c.segments[k]? = some s) :
    c.baseAt (k + 1) = s.node (c.baseAt k) := by
  unfold baseAt
  rw [List.take_add_one, h, nodeFrom_append]
  rfl

/-- Looking up a byte of a base goes through the statement, the chain and the nodes behind it. -/
theorem deepestAt_base {c : AccessChain} {b k : Nat} (h : b < (c.baseAt k).stop) :
    c.source.deepestAt b =
      Focus.descend b (spine c.outer (c.baseAt k) (c.segments.drop k))
        (labelled (c.baseAt k) (c.segments.drop k)) := by
  have hchain : b < c.chainNode.stop := by
    rw [c.chainNode_eq k, nodeFrom_stop]
    omega
  have hbelow : c.chainNode.stop ≤ Text.utf8Length c.text := by
    unfold chainNode text rootNode
    rw [nodeFrom_stop, Tree.leaf_stop, Text.utf8Length_append, Text.utf8Length_append]
    omega
  have hstart : c.chainNode.start ≤ b := by
    rw [c.chainNode_eq 0, nodeFrom_start, baseAt_start]
    exact Nat.zero_le b
  have hstatement : b < c.statement.stop := Nat.lt_of_lt_of_le hchain hbelow
  calc c.source.deepestAt b
      = Focus.descend b [⟨c.tree, 0⟩] c.statement := by
        unfold Source.deepestAt
        rw [Focus.descend_eq]
        exact Focus.descendAmong_take (Nat.zero_le b) hstatement
    _ = Focus.descend b c.outer c.chainNode := by
        rw [Focus.descend_eq]
        exact Focus.descendAmong_take hstart hchain
    _ = _ := by
        rw [c.chainNode_eq k]
        exact descend_nodeFrom (by rw [baseAt_start]; exact Nat.zero_le b) h

/-- The node at the name, from which a diagnostic starts: no access itself, and above it the nodes
of all segments from the `n`-th on. -/
structure StandsBefore (c : AccessChain) (n : Nat) (f : Focus) : Prop where
  not_access : f.here.isAccess = false
  ancestors : Focus.ancestorsOf f.above =
    Focus.ancestorsOf (spine c.outer (c.baseAt n) (c.segments.drop n))

theorem isRoot_of_spine (c : AccessChain) (t : Tree) (base : Tree) (segs : List Segment) :
    (Focus.mk t (spine c.outer base segs)).isRoot = false := by
  cases segs <;> rfl

theorem tokenAt?_root {c : AccessChain} {offset : Nat} (h : offset < c.root.length) :
    ∃ f, c.source.tokenAt? offset = some f ∧ c.StandsBefore 0 f := by
  let front := c.root.take offset
  have hlength : front.length = offset := List.length_take_of_le (Nat.le_of_lt h)
  have htext : c.source.text =
      front ++ (c.root.drop offset ++ (c.segments.flatMap Segment.text ++ c.ending)) := by
    show c.text = _
    rw [← List.append_assoc, List.take_append_drop]
    exact List.append_assoc ..
  have hbyte : Text.utf8Length front < (c.baseAt 0).stop := by
    rw [baseAt_stop, textTo, List.take_zero, List.flatMap_nil, List.append_nil]
    exact Text.utf8Length_take_lt h
  have hdeepest := deepestAt_base hbyte
  rw [Focus.descend_of_children_nil (by rw [labelled_children]; rfl)] at hdeepest
  have htoken := Source.tokenAt?_length htext (by rw [hdeepest]; exact isRoot_of_spine ..)
  rw [hlength, hdeepest] at htoken
  refine ⟨_, htoken, ?_, rfl⟩
  show (labelled c.rootNode _).isAccess = false
  rw [Tree.isAccess, Tree.shape, Tree.isTaggedTemplate, labelled_kind]
  rfl

theorem dotNodes_eq (m : Marking) (start : Nat) :
    ∃ dot, m.dotNodes start = [dot] ∧ dot.start = start ∧
      dot.stop = start + Text.utf8Length m.dotText := by
  cases m with
  | plain => exact ⟨_, rfl, rfl, rfl⟩
  | wrapped => exact ⟨_, rfl, rfl, rfl⟩
  | bare => exact ⟨_, rfl, rfl, rfl⟩

theorem dotText_pos (m : Marking) : 0 < Text.utf8Length m.dotText := by
  cases m <;> decide

/-- Looking up a byte of a name in the node of its property finds the name. -/
theorem descend_property {m : Marking} {name : Text} {base : Tree} {rest : List Segment}
    {above : List Above} {b : Nat} (hwide : base.start < base.stop)
    (hstart : base.stop + Text.utf8Length m.dotText ≤ b)
    (hstop : b < base.stop + Text.utf8Length m.dotText + Text.utf8Length name) :
    Focus.descend b above (labelled ((Segment.property m name).node base) rest) =
      ⟨.leaf (.other "property_identifier") true (some .property)
          (base.stop + Text.utf8Length m.dotText) name,
        ⟨labelled ((Segment.property m name).node base) rest, 2⟩ :: above⟩ := by
  obtain ⟨dot, hdots, hdotStart, hdotStop⟩ := dotNodes_eq m base.stop
  have hdotPos := dotText_pos m
  rw [Focus.descend_eq, labelled_children, Segment.node_children, Segment.parts, hdots]
  rw [Focus.descendAmong_skip (by simpa using hwide) (by rw [Segment.label_stop]; omega)]
  rw [List.singleton_append, Focus.descendAmong_skip (by omega) (by omega)]
  rw [Focus.descendAmong_take hstart (by rw [Tree.leaf_stop]; exact hstop)]
  exact Focus.descend_of_children_nil rfl

theorem tokenAt?_property {c : AccessChain} (hc : c.WellFormed) {k offset : Nat} {m : Marking}
    {name : Text} (hk : c.segments[k]? = some (.property m name))
    (hlo : (c.textTo k ++ m.dotText).length ≤ offset)
    (hhi : offset < (c.textTo k ++ m.dotText).length + name.length) :
    ∃ f, c.source.tokenAt? offset = some f ∧ c.StandsBefore k f := by
  obtain ⟨i, rfl⟩ := Nat.exists_eq_add_of_le hlo
  have hi : i < name.length := by omega
  let front := c.textTo k ++ m.dotText ++ name.take i
  have hlength : front.length = (c.textTo k ++ m.dotText).length + i := by
    rw [List.length_append, List.length_take_of_le (Nat.le_of_lt hi)]
  have htext : c.source.text = front ++
      (name.drop i ++ ((c.segments.drop (k + 1)).flatMap Segment.text ++ c.ending)) := by
    have hname : m.dotText ++ name = m.dotText ++ (name.take i ++ name.drop i) := by
      rw [List.take_append_drop]
    show c.text = _
    rw [text_eq_of_getElem? hk, Segment.text, hname]
    simp only [front, List.append_assoc]
  have hfront : Text.utf8Length front =
      (c.baseAt k).stop + Text.utf8Length m.dotText + Text.utf8Length (name.take i) := by
    rw [baseAt_stop, Text.utf8Length_append, Text.utf8Length_append]
  have hname := Text.utf8Length_take_lt hi
  have hbyte : Text.utf8Length front < (c.baseAt (k + 1)).stop := by
    rw [baseAt_succ hk, Segment.node_stop, Segment.text, hfront, Text.utf8Length_append]
    omega
  have hwide : (c.baseAt k).start < (c.baseAt k).stop := by
    rw [baseAt_start, baseAt_stop, textTo, Text.utf8Length_append]
    exact Nat.add_pos_left (Text.utf8Length_pos hc.root_ne_nil) _
  have hdeepest := deepestAt_base hbyte
  rw [baseAt_succ hk, descend_property hwide (by omega) (by omega)] at hdeepest
  have htoken := Source.tokenAt?_length htext (by rw [hdeepest]; rfl)
  rw [hlength, hdeepest] at htoken
  refine ⟨_, htoken, rfl, ?_⟩
  rw [drop_eq_cons hk]
  rfl

def Spot.first : Spot → Nat
  | .root => 0
  | .property k => k

/-- Inside a name there is a token, and it stands before the segments behind the name. -/
theorem tokenAt?_of_covers {c : AccessChain} (hc : c.WellFormed) {d : Complaint}
    (hd : c.Covers d) :
    ∃ f, c.source.tokenAt? d.offset = some f ∧ c.StandsBefore d.spot.first f := by
  obtain ⟨code, spot, offset⟩ := d
  cases spot with
  | root => exact tokenAt?_root hd
  | property k =>
    obtain ⟨m, name, hk, hlo, hhi⟩ := hd
    exact tokenAt?_property hc hk hlo hhi

end AccessChain

/-! ## 4. Targets -/

namespace Tree

/-- A link of a chain: the root name or the node of a segment. -/
def IsLink (t : Tree) : Prop :=
  t.kind = .identifier ∨ ∃ s : Segment, t.kind = s.kind

theorem IsLink.kind_ne {t : Tree} (h : t.IsLink) :
    t.kind ≠ .optionalChain ∧ t.kind ≠ .optionalToken ∧ t.kind ≠ .superKeyword := by
  rcases h with h | ⟨s, h⟩
  · rw [h]
    decide
  · rw [h]
    cases s <;> simp [Segment.kind]

theorem isInvocation_eq (t : Tree) :
    (t.kind == .callExpression && !t.isTaggedTemplate) = (t.shape == .invocation) := by
  unfold shape
  cases t.isTaggedTemplate with
  | true => rw [Bool.not_true, Bool.and_false]; rfl
  | false =>
    rw [Bool.not_false, Bool.and_true]
    cases t.kind <;> rfl

end Tree

namespace Segment

def shape : Segment → Shape
  | property _ _ => .memberAccess
  | index _ _ _ => .indexedAccess
  | call _ _ _ => .invocation
  | assertion => .other

/-- The role of what a segment rests on. -/
def baseField? : Segment → Option Field
  | property _ _ | index _ _ _ => some .object
  | call _ _ _ => some .function
  | assertion => none

theorem hasField_label {s : Segment} {f : Field} (h : s.baseField? = some f) (base : Tree) :
    (s.label base).hasField f = true := by
  cases base
  cases s with
  | property => cases h; rfl
  | index => cases h; rfl
  | call => cases h; rfl
  | assertion => cases h

theorem isTaggedTemplate_node (s : Segment) (base : Tree) :
    (s.node base).isTaggedTemplate = false := by
  cases s with
  | property => rfl
  | index => rfl
  | assertion => rfl
  | call m content nodes =>
    have hargs : (((call m content nodes).node base).field? .arguments).map Tree.kind =
        some (.other "arguments") := by
      cases base
      cases m <;> rfl
    obtain ⟨args, hfield, hkind⟩ := Option.map_eq_some_iff.mp hargs
    rw [Tree.isTaggedTemplate, hfield]
    show (_ && args.kind == .templateString) = false
    rw [hkind]
    rfl

end Segment

namespace AccessChain

@[simp]
theorem isTaggedTemplate_labelled (s : Segment) (base : Tree) (rest : List Segment) :
    (labelled (s.node base) rest).isTaggedTemplate = false := by
  have h := s.isTaggedTemplate_node base
  unfold Tree.isTaggedTemplate Tree.field? at h ⊢
  rwa [labelled_kind, labelled_children]

@[simp]
theorem shape_labelled (s : Segment) (base : Tree) (rest : List Segment) :
    (labelled (s.node base) rest).shape = s.shape := by
  rw [Tree.shape, isTaggedTemplate_labelled, if_neg Bool.false_ne_true, labelled_kind,
    Segment.node_kind]
  cases s <;> rfl

theorem isAccess_labelled (s : Segment) (base : Tree) (rest : List Segment) :
    (labelled (s.node base) rest).isAccess = !s.isAssertion := by
  rw [Tree.isAccess, shape_labelled]
  cases s <;> rfl

theorem baseField?_labelled (s : Segment) (base : Tree) (rest : List Segment) :
    (labelled (s.node base) rest).baseField? = s.baseField? := by
  rw [Tree.baseField?, labelled_kind, Segment.node_kind]
  cases s <;> rfl

theorem base?_labelled {s : Segment} {f : Field} (h : s.baseField? = some f) (base : Tree)
    (rest : List Segment) : (labelled (s.node base) rest).base? = some (s.label base) := by
  rw [Tree.base?, baseField?_labelled, h, Option.bind_some, Tree.field?, labelled_children,
    Segment.node_children, List.find?_cons_of_pos (Segment.hasField_label h base)]

/-- The base of a segment is the first child of its node. -/
theorem isBuiltOn_labelled (s : Segment) (base : Tree) (rest : List Segment) :
    Above.isBuiltOn ⟨labelled (s.node base) rest, 0⟩ = !s.isAssertion := by
  rw [Above.isBuiltOn, isAccess_labelled, Tree.baseIndex?, baseField?_labelled]
  cases hfield : s.baseField? with
  | none =>
    cases s with
    | assertion => rfl
    | _ => cases hfield
  | some f =>
    rw [Option.bind_some, Tree.fieldIndex?, labelled_children, Segment.node_children,
      List.findIdx?_cons, Segment.hasField_label hfield, if_pos rfl, beq_self_eq_true,
      Bool.and_true]

theorem isLink_nodeFrom {base : Tree} (h : base.IsLink) (segs : List Segment) :
    (nodeFrom base segs).IsLink := by
  induction segs generalizing base with
  | nil => exact h
  | cons s rest ih => exact ih (Or.inr ⟨s, rfl⟩)

theorem isLink_baseAt (c : AccessChain) (k : Nat) : (c.baseAt k).IsLink :=
  isLink_nodeFrom (Or.inl rfl) _

theorem hasMarker_labelled {s : Segment} {base : Tree} (hs : s.WellFormed) (hbase : base.IsLink)
    (rest : List Segment) :
    (labelled (s.node base) rest).hasMarker = (s.marking != .plain) := by
  obtain ⟨hchain, htoken, -⟩ := hbase.kind_ne
  have hlabel : ((s.label base).kind == .optionalChain || (s.label base).kind == .optionalToken) =
      false := by
    rw [Segment.label_kind, Bool.or_eq_false_iff, beq_eq_false_iff_ne, beq_eq_false_iff_ne]
    exact ⟨hchain, htoken⟩
  rw [Tree.hasMarker, labelled_children, Segment.node_children, List.any_cons, hlabel,
    Bool.false_or]
  cases s with
  | property m name => cases m <;> rfl
  | call m content nodes => cases m <;> rfl
  | assertion => rfl
  | index m content nodes =>
    have hnodes : nodes.any (fun n => n.kind == .optionalChain || n.kind == .optionalToken) =
        false := by
      rw [List.any_eq_false]
      intro n hn
      obtain ⟨h₁, h₂⟩ := hs n hn
      simp [h₁, h₂]
    cases m with
    | wrapped => rfl
    | _ => simp [Segment.parts, Marking.nodes, Segment.marking, Tree.leaf_kind, hnodes]

/-- Climbing from a base finds the first of the segments behind it that is looked for. -/
theorem find?_spine {outer : List Above} {p : Tree → Bool} {q : Segment → Bool}
    (hsegment : ∀ s base rest, p (labelled (s.node base) rest) = q s)
    (houter : (Focus.ancestorsOf outer).find? (fun f => p f.here) = none)
    (base : Tree) (segs : List Segment) :
    (Focus.ancestorsOf (spine outer base segs)).find? (fun f => p f.here) =
      (segs.findIdx? q).map (focusAt outer base segs) := by
  induction segs generalizing base with
  | nil => exact houter
  | cons s rest ih =>
    rw [spine, Focus.ancestorsOf, List.findIdx?_cons]
    simp only [List.find?_cons, hsegment]
    cases q s with
    | true => rfl
    | false =>
      show (Focus.ancestorsOf (spine outer (s.node base) rest)).find? _ = _
      rw [ih, if_neg Bool.false_ne_true, Option.map_map]
      rfl

def focus (c : AccessChain) (k : Nat) : Focus :=
  focusAt c.outer c.rootNode c.segments k

theorem focus_of_getElem? {c : AccessChain} {k : Nat} {s : Segment} (h : c.segments[k]? = some s) :
    c.focus k = focusOn c.outer (s.node (c.baseAt k)) (c.segments.drop (k + 1)) := by
  rw [← baseAt_succ h]
  rfl

theorem find?_lineage {c : AccessChain} {n : Nat} {f : Focus} (hf : c.StandsBefore n f)
    {p : Tree → Bool} {q : Segment → Bool}
    (hsegment : ∀ s base rest, p (labelled (s.node base) rest) = q s)
    (houter : (Focus.ancestorsOf c.outer).find? (fun f => p f.here) = none)
    (hhere : p f.here = false) :
    f.lineage.find? (fun f => p f.here) =
      ((c.segments.drop n).findIdx? q).map fun i => c.focus (n + i) := by
  rw [Focus.lineage, List.find?_cons, hhere]
  show (Focus.ancestorsOf f.above).find? _ = _
  rw [hf.ancestors, find?_spine hsegment houter]
  congr 1
  funext i
  exact (focusAt_add c.outer c.rootNode c.segments n i).symm

theorem nearest?_segment {c : AccessChain} {d : Complaint} {j : Nat} (hd : c.Covers d)
    (hj : c.nearest? d.spot = some j) : ∃ s, c.segments[j]? = some s := by
  obtain ⟨code, spot, offset⟩ := d
  cases spot with
  | root =>
    obtain ⟨hlt, -⟩ := List.findIdx?_eq_some_iff_getElem.mp hj
    exact ⟨_, List.getElem?_eq_getElem hlt⟩
  | property k =>
    obtain ⟨m, name, hk, -, -⟩ := hd
    cases hj
    exact ⟨_, hk⟩

theorem nearestAccess?_eq {c : AccessChain} {d : Complaint} {f : Focus} (hd : c.Covers d)
    (hf : c.StandsBefore d.spot.first f) :
    f.nearestAccess? = (c.nearest? d.spot).map c.focus := by
  have hfind := find?_lineage hf isAccess_labelled rfl hf.not_access
  refine hfind.trans ?_
  obtain ⟨code, spot, offset⟩ := d
  cases spot with
  | root =>
    show Option.map (fun i => c.focus (0 + i)) _ = _
    simp only [Nat.zero_add]
    rfl
  | property k =>
    obtain ⟨m, name, hk, -, -⟩ := hd
    show Option.map _ ((c.segments.drop k).findIdx? _) = _
    rw [drop_eq_cons hk]
    rfl

theorem enclosingCall?_eq {c : AccessChain} {d : Complaint} {f : Focus}
    (hf : c.StandsBefore d.spot.first f) :
    f.enclosingCall? = (c.call? d.spot).map c.focus := by
  have hsegment : ∀ (s : Segment) base rest,
      ((labelled (s.node base) rest).shape == .invocation) = s.isCall := by
    intro s base rest
    rw [shape_labelled]
    cases s <;> rfl
  have hhere : (f.here.shape == .invocation) = false := by
    have hshape := hf.not_access
    unfold Tree.isAccess at hshape
    cases h : f.here.shape <;> simp [h] at hshape ⊢
  have hfind := find?_lineage hf (p := fun t => t.shape == .invocation) hsegment rfl hhere
  unfold Focus.enclosingCall?
  simp only [Tree.isInvocation_eq]
  refine hfind.trans ?_
  obtain ⟨code, spot, offset⟩ := d
  cases spot with
  | root =>
    show Option.map (fun i => c.focus (0 + i)) _ = _
    simp only [Nat.zero_add]
    rfl
  | property k =>
    show _ = Option.map c.focus (Option.map _ _)
    rw [Option.map_map]
    rfl

theorem focus_above (c : AccessChain) (j : Nat) :
    (c.focus j).above = spine c.outer (c.baseAt (j + 1)) (c.segments.drop (j + 1)) := rfl

/-- If the access of a segment is optional, the access built on it is meant: that of the next
segment, if there is one that is no assertion. -/
theorem nullishAccess?_of_nearest {c : AccessChain} {f : Focus} {j : Nat}
    (hnear : f.nearestAccess? = some (c.focus j)) (hmarker : (c.focus j).here.hasMarker = true) :
    f.nullishAccess? = some (c.focus ((c.next? j).getD j)) := by
  unfold Focus.nullishAccess?
  rw [hnear]
  show (if (c.focus j).here.hasMarker then _ else _) = _
  rw [if_pos hmarker, focus_above]
  cases hnext : c.segments[j + 1]? with
  | none =>
    have hstay : c.next? j = none := by
      rw [next?, hnext]
    rw [hstay, List.drop_eq_nil_of_le (List.getElem?_eq_none_iff.mp hnext)]
    rfl
  | some s =>
    have hnode : Focus.mk (labelled (s.node (c.baseAt (j + 1))) (c.segments.drop (j + 2)))
        (spine c.outer (s.node (c.baseAt (j + 1))) (c.segments.drop (j + 2))) = c.focus (j + 1) :=
      (focus_of_getElem? hnext).symm
    have hgo : c.next? j = if s.isAssertion then none else some (j + 1) := by
      rw [next?, hnext]
    rw [drop_eq_cons hnext, spine]
    show (if Above.isBuiltOn _ then _ else _) = _
    rw [isBuiltOn_labelled, hnode, hgo]
    cases s.isAssertion <;> rfl

theorem nullishAccess?_eq {c : AccessChain} (hc : c.WellFormed) {d : Complaint} {f : Focus}
    (hd : c.Covers d) (hf : c.StandsBefore d.spot.first f) (hcode : d.code ≠ invokeCode) :
    f.nullishAccess? = (c.target? d).map c.focus := by
  have hnear := nearestAccess?_eq hd hf
  rw [target?, if_neg hcode]
  cases hj : c.nearest? d.spot with
  | none =>
    rw [Focus.nullishAccess?, hnear, hj]
    rfl
  | some j =>
    rw [hj] at hnear
    obtain ⟨s, hs⟩ := nearest?_segment hd hj
    have hmarker : (c.focus j).here.hasMarker = (s.marking != .plain) := by
      rw [focus_of_getElem? hs]
      exact hasMarker_labelled (hc.segments s (List.mem_of_getElem? hs)) (c.isLink_baseAt j) _
    show _ = Option.map c.focus (if c.segments[j]?.map Segment.marking = some .plain then _ else _)
    rw [hs, Option.map_some]
    cases hm : s.marking with
    | plain =>
      rw [hm] at hmarker
      rw [if_pos rfl, Focus.nullishAccess?, hnear]
      exact if_neg (by rw [hmarker]; decide)
    | wrapped =>
      rw [if_neg (by decide), nullishAccess?_of_nearest hnear (by rw [hmarker, hm]; rfl)]
      rfl
    | bare =>
      rw [if_neg (by decide), nullishAccess?_of_nearest hnear (by rw [hmarker, hm]; rfl)]
      rfl

/-- The node to guard is that of the segment to guard. -/
theorem target?_eq {c : AccessChain} (hc : c.WellFormed) {d : Complaint} {f : Focus}
    (hd : c.Covers d) (hf : c.StandsBefore d.spot.first f) :
    f.target? d.code = (c.target? d).map c.focus := by
  unfold Focus.target?
  split
  · next hcode =>
    rw [enclosingCall?_eq hf, target?, if_pos hcode]
  · next hcode => exact nullishAccess?_eq hc hd hf hcode

end AccessChain

end ChainGuard
