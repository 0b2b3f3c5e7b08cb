import ChainGuard.Proofs.Tree.Ranges
import ChainGuard.Proofs.WriteSafety

/-!
# Trees with other positions

A tree keeps its shape when its positions are counted in another way. Most rules look at the shape
alone, so they say the same about both trees. Two look at positions:

* the walk to the deepest node compares a position with the ranges of nodes
  (`Focus.descend_mapPositions`);
* the rule about writes compares the ranges of two nodes (`Focus.isWritten_mapPositions`).

They agree as long as the new positions stand in the same order.
-/

namespace ChainGuard

variable (g : Nat → Nat)

/-! ## Nodes -/

namespace Tree

mutual

/-- The tree with every position changed by `g`. -/
def mapPositions : Tree → Tree
  | .node l cs => .node { l with start := g l.start, stop := g l.stop } (mapPositionsAll cs)

def mapPositionsAll : List Tree → List Tree
  | [] => []
  | c :: cs => c.mapPositions :: mapPositionsAll cs

end

mutual

/-- One function changes starts and stops alike. -/
theorem mapPositions_eq : ∀ t : Tree, t.mapPositions g = t.mapRanges g g
  | .node l cs => by rw [mapPositions, mapRanges, mapPositionsAll_eq cs]

theorem mapPositionsAll_eq : ∀ cs : List Tree, mapPositionsAll g cs = mapRangesAll g g cs
  | [] => rfl
  | c :: cs => by rw [mapPositionsAll, mapRangesAll, mapPositions_eq c, mapPositionsAll_eq cs]

end

theorem mapRanges_eq : mapRanges g g = mapPositions g :=
  funext fun t => (mapPositions_eq g t).symm

theorem mapPositionsAll_eq_map (cs : List Tree) :
    mapPositionsAll g cs = cs.map (mapPositions g) := by
  rw [mapPositionsAll_eq, mapRangesAll_eq_map, mapRanges_eq]

@[simp]
theorem children_mapPositions (t : Tree) :
    (t.mapPositions g).children = t.children.map (mapPositions g) := by
  rw [mapPositions_eq, children_mapRanges, mapRanges_eq]

@[simp]
theorem kind_mapPositions (t : Tree) : (t.mapPositions g).kind = t.kind := by
  rw [mapPositions_eq, kind_mapRanges]

@[simp]
theorem start_mapPositions (t : Tree) : (t.mapPositions g).start = g t.start := by
  rw [mapPositions_eq, start_mapRanges]

@[simp]
theorem stop_mapPositions (t : Tree) : (t.mapPositions g).stop = g t.stop := by
  rw [mapPositions_eq, stop_mapRanges]

@[simp]
theorem named_mapPositions (t : Tree) : (t.mapPositions g).label.named = t.label.named := by
  obtain ⟨l, cs⟩ := t
  rfl

@[simp]
theorem hasField_mapPositions (f : Field) (t : Tree) :
    hasField f (t.mapPositions g) = hasField f t := by
  rw [mapPositions_eq, hasField_mapRanges]

@[simp]
theorem field?_mapPositions (t : Tree) (f : Field) :
    (t.mapPositions g).field? f = (t.field? f).map (mapPositions g) := by
  rw [mapPositions_eq, field?_mapRanges, mapRanges_eq]

@[simp]
theorem fieldIndex?_mapPositions (t : Tree) (f : Field) :
    (t.mapPositions g).fieldIndex? f = t.fieldIndex? f := by
  unfold fieldIndex?
  rw [children_mapPositions, List.findIdx?_map]
  congr 1
  funext c
  exact hasField_mapPositions g f c

@[simp]
theorem isTaggedTemplate_mapPositions (t : Tree) :
    (t.mapPositions g).isTaggedTemplate = t.isTaggedTemplate := by
  rw [mapPositions_eq, isTaggedTemplate_mapRanges]

@[simp]
theorem shape_mapPositions (t : Tree) : (t.mapPositions g).shape = t.shape := by
  rw [mapPositions_eq, shape_mapRanges]

@[simp]
theorem isAccess_mapPositions (t : Tree) : (t.mapPositions g).isAccess = t.isAccess := by
  simp only [isAccess, shape_mapPositions]

@[simp]
theorem baseField?_mapPositions (t : Tree) : (t.mapPositions g).baseField? = t.baseField? := by
  simp only [baseField?, kind_mapPositions]

@[simp]
theorem baseIndex?_mapPositions (t : Tree) : (t.mapPositions g).baseIndex? = t.baseIndex? := by
  unfold baseIndex?
  rw [baseField?_mapPositions]
  congr 1
  funext f
  exact fieldIndex?_mapPositions g t f

@[simp]
theorem base?_mapPositions (t : Tree) :
    (t.mapPositions g).base? = t.base?.map (mapPositions g) := by
  rw [mapPositions_eq, base?_mapRanges, mapRanges_eq]

@[simp]
theorem hasMarker_mapPositions (t : Tree) : (t.mapPositions g).hasMarker = t.hasMarker := by
  unfold hasMarker
  rw [children_mapPositions, List.any_map]
  congr 1
  funext c
  simp only [Function.comp_apply, kind_mapPositions]

@[simp]
theorem writeTarget?_mapPositions (t : Tree) :
    (t.mapPositions g).writeTarget? = t.writeTarget?.map (mapPositions g) := by
  unfold writeTarget?
  rw [kind_mapPositions]
  cases t.kind <;> simp only [field?_mapPositions, Option.map_none]
  cases t.field? .operator with
  | none => rfl
  | some op =>
    simp only [Option.map_some, kind_mapPositions]
    split <;> rfl

mutual

@[simp]
theorem asserts_mapPositions : ∀ t : Tree, (t.mapPositions g).asserts = t.asserts
  | .node l cs => by
    have haccess := isAccess_mapPositions g (.node l cs)
    have hbase := baseField?_mapPositions g (.node l cs)
    rw [mapPositions] at haccess hbase ⊢
    rw [asserts, asserts, haccess, hbase, mapPositionsAll_eq_map]
    have hinner : firstAsserts (fun c => c.label.named && c.kind != .comment)
        (cs.map (mapPositions g)) = firstAsserts (fun c => c.label.named && c.kind != .comment) cs :=
      firstAsserts_mapPositions (fun c => by rw [named_mapPositions, kind_mapPositions]) cs
    have hfields : ∀ f, firstAsserts (hasField f) (cs.map (mapPositions g)) =
        firstAsserts (hasField f) cs := fun f =>
      firstAsserts_mapPositions (hasField_mapPositions g f) cs
    simp only [hinner, hfields]

theorem firstAsserts_mapPositions {chosen : Tree → Bool}
    (h : ∀ c, chosen (mapPositions g c) = chosen c) :
    ∀ cs : List Tree, firstAsserts chosen (cs.map (mapPositions g)) = firstAsserts chosen cs
  | [] => rfl
  | c :: cs => by
    rw [List.map_cons, firstAsserts, firstAsserts, h, asserts_mapPositions c,
      firstAsserts_mapPositions h cs]

end

end Tree

/-! ## Foci -/

def Above.mapPositions (p : Above) : Above :=
  ⟨p.tree.mapPositions g, p.index⟩

@[simp]
theorem Above.isBuiltOn_mapPositions (p : Above) : (p.mapPositions g).isBuiltOn = p.isBuiltOn := by
  simp only [isBuiltOn, mapPositions, Tree.isAccess_mapPositions, Tree.baseIndex?_mapPositions]

namespace Focus

def mapPositions (f : Focus) : Focus :=
  ⟨f.here.mapPositions g, f.above.map (Above.mapPositions g)⟩

@[simp]
theorem here_mapPositions (f : Focus) : (f.mapPositions g).here = f.here.mapPositions g := rfl

@[simp]
theorem isRoot_mapPositions (f : Focus) : (f.mapPositions g).isRoot = f.isRoot := by
  unfold isRoot mapPositions
  rw [List.isEmpty_map]

@[simp]
theorem path_mapPositions (f : Focus) : (f.mapPositions g).path = f.path := by
  unfold path mapPositions
  rw [List.map_map]
  rfl

@[simp]
theorem parent?_mapPositions (f : Focus) :
    (f.mapPositions g).parent? = f.parent?.map (mapPositions g) := by
  obtain ⟨here, above⟩ := f
  cases above with
  | nil => rfl
  | cons p rest => rfl

theorem ancestorsOf_mapPositions (above : List Above) :
    ancestorsOf (above.map (Above.mapPositions g)) = (ancestorsOf above).map (mapPositions g) := by
  induction above with
  | nil => rfl
  | cons p rest ih =>
    rw [List.map_cons, ancestorsOf, ancestorsOf, ih, List.map_cons]
    rfl

@[simp]
theorem lineage_mapPositions (f : Focus) :
    (f.mapPositions g).lineage = f.lineage.map (mapPositions g) := by
  rw [lineage, lineage, List.map_cons, mapPositions, ancestorsOf_mapPositions]

@[simp]
theorem nearestAccess?_mapPositions (f : Focus) :
    (f.mapPositions g).nearestAccess? = f.nearestAccess?.map (mapPositions g) := by
  unfold nearestAccess?
  rw [lineage_mapPositions, List.find?_map]
  congr 2
  funext f
  exact Tree.isAccess_mapPositions g f.here

@[simp]
theorem enclosingCall?_mapPositions (f : Focus) :
    (f.mapPositions g).enclosingCall? = f.enclosingCall?.map (mapPositions g) := by
  unfold enclosingCall?
  rw [lineage_mapPositions, List.find?_map]
  congr 2
  funext f
  simp only [Function.comp_apply, here_mapPositions, Tree.kind_mapPositions,
    Tree.isTaggedTemplate_mapPositions]

@[simp]
theorem nullishAccess?_mapPositions (f : Focus) :
    (f.mapPositions g).nullishAccess? = f.nullishAccess?.map (mapPositions g) := by
  unfold nullishAccess?
  rw [nearestAccess?_mapPositions]
  cases f.nearestAccess? with
  | none => rfl
  | some near =>
    obtain ⟨here, above⟩ := near
    simp only [Option.map_some, mapPositions, Tree.hasMarker_mapPositions]
    split
    · cases above with
      | nil => rfl
      | cons p rest =>
        simp only [List.map_cons, Above.isBuiltOn_mapPositions]
        split <;> rfl
    · rfl

@[simp]
theorem target?_mapPositions (f : Focus) (code : Int) :
    (f.mapPositions g).target? code = (f.target? code).map (mapPositions g) := by
  unfold target?
  split
  · exact enclosingCall?_mapPositions g f
  · exact nullishAccess?_mapPositions g f

@[simp]
theorem isTemplateTag_mapPositions (f : Focus) :
    (f.mapPositions g).isTemplateTag = f.isTemplateTag := by
  obtain ⟨here, above⟩ := f
  unfold isTemplateTag mapPositions
  dsimp only
  induction above with
  | nil => rfl
  | cons p rest ih =>
    rw [List.map_cons, tagsTemplate, tagsTemplate, ih, Above.isBuiltOn_mapPositions]
    simp only [Above.mapPositions, Tree.isTaggedTemplate_mapPositions,
      Tree.fieldIndex?_mapPositions]

/-! ### Preorder -/

theorem preorderFrom_eq (above : List Above) (t : Tree) :
    preorderFrom above t = ⟨t, above⟩ :: preorderAmong above t 0 t.children := by
  cases t
  rw [preorderFrom]
  rfl

mutual

theorem preorderFrom_mapPositions (above : List Above) :
    ∀ t : Tree, preorderFrom (above.map (Above.mapPositions g)) (t.mapPositions g) =
      (preorderFrom above t).map (mapPositions g)
  | .node l cs => by
    rw [preorderFrom_eq, preorderFrom_eq, Tree.children_mapPositions, List.map_cons]
    exact congrArg _ (preorderAmong_mapPositions above (.node l cs) 0 cs)

theorem preorderAmong_mapPositions (above : List Above) (t : Tree) (i : Nat) :
    ∀ cs : List Tree, preorderAmong (above.map (Above.mapPositions g)) (t.mapPositions g) i
      (cs.map (Tree.mapPositions g)) = (preorderAmong above t i cs).map (mapPositions g)
  | [] => rfl
  | c :: cs => by
    have hfirst := preorderFrom_mapPositions (⟨t, i⟩ :: above) c
    rw [List.map_cons] at hfirst ⊢
    rw [preorderAmong, preorderAmong, List.map_append, ← hfirst,
      preorderAmong_mapPositions above t (i + 1) cs]
    rfl

end

/-- The nodes stand in the same order. -/
theorem preorder_mapPositions (t : Tree) :
    preorder (t.mapPositions g) = (preorder t).map (mapPositions g) :=
  preorderFrom_mapPositions g [] t

/-! ### Walks -/

/-- The position `b'` stands to the new range of a node as `b` stands to the old one. -/
structure Corresponds (b b' : Nat) (t : Tree) : Prop where
  endsBefore : (t.mapPositions g).endsBefore b' = t.endsBefore b
  lt_start : b' < g t.start ↔ b < t.start

variable {g} {b b' : Nat}

mutual

/-- The walk takes the same way, if the two positions correspond at all nodes below the top. -/
theorem descend_mapPositions (above : List Above) :
    ∀ t : Tree, (∀ node child : Tree, node.Below t → child ∈ node.children →
        Corresponds g b b' child) →
      descend b' (above.map (Above.mapPositions g)) (t.mapPositions g) =
        (descend b above t).mapPositions g
  | .node l cs, h => by
    rw [descend_eq, descend_eq, Tree.children_mapPositions]
    exact descendAmong_mapPositions above (.node l cs) 0 cs fun c hc =>
      ⟨h _ c .refl hc, fun node child hnode => h node child (.child hc hnode)⟩

theorem descendAmong_mapPositions (above : List Above) (t : Tree) (i : Nat) :
    ∀ cs : List Tree, (∀ c ∈ cs, Corresponds g b b' c ∧ ∀ node child : Tree, node.Below c →
        child ∈ node.children → Corresponds g b b' child) →
      descendAmong b' (above.map (Above.mapPositions g)) (t.mapPositions g) i
        (cs.map (Tree.mapPositions g)) = (descendAmong b above t i cs).mapPositions g
  | [], _ => by
    rw [List.map_nil, descendAmong, descendAmong]
    rfl
  | c :: cs, h => by
    obtain ⟨hc, hbelow⟩ := h c List.mem_cons_self
    rw [List.map_cons, descendAmong, descendAmong, hc.endsBefore, Tree.start_mapPositions]
    split
    · exact descendAmong_mapPositions above t (i + 1) cs fun d hd =>
        h d (List.mem_cons_of_mem _ hd)
    · simp only [hc.lt_start]
      split
      · rfl
      · exact descend_mapPositions (⟨t, i⟩ :: above) c hbelow

end

/-! ### Writes -/

/-- The rule about writes says the same, if the positions of the tree keep their order. The target
of a write is a child, so its range belongs to the tree. -/
theorem isWritten_mapPositions {root : Tree} {f : Focus} (hf : f.IsIn root)
    (hwithin : ∀ t outer : Tree, t.Below root → outer.Below root →
      (t.mapPositions g).within (outer.mapPositions g) = t.within outer) :
    (f.mapPositions g).isWritten = f.isWritten := by
  unfold isWritten mapPositions
  induction hf with
  | root => rfl
  | @child t c above i ht hc ih =>
    have hbelow : t.Below root := ht.here_below
    have hwritten : (c.mapPositions g).writtenBy (t.mapPositions g) = c.writtenBy t := by
      unfold Tree.writtenBy
      rw [Tree.writeTarget?_mapPositions]
      cases htarget : t.writeTarget? with
      | none => rfl
      | some target =>
        obtain ⟨_, hmem⟩ := WriteSafetyLemmas.writeTarget?_eq_some htarget
        exact hwithin c target (hbelow.of_mem_children (List.mem_of_getElem? hc))
          (hbelow.of_mem_children (List.mem_of_getElem? hmem))
    rw [List.map_cons, writtenUnder, writtenUnder, Above.mapPositions, hwritten]
    exact congrArg (c.writtenBy t || ·) ih

end Focus

end ChainGuard
