import ChainGuard.Proofs.Tree

namespace ChainGuard

variable (g h : Nat → Nat)

namespace Tree

mutual

/-- The tree with every start changed by `g` and every stop by `h`. -/
def mapRanges : Tree → Tree
  | .node l cs => .node { l with start := g l.start, stop := h l.stop } (mapRangesAll cs)

/-- The trees with every start changed by `g` and every stop by `h`. -/
def mapRangesAll : List Tree → List Tree
  | [] => []
  | c :: cs => c.mapRanges :: mapRangesAll cs

end

theorem mapRangesAll_eq_map (cs : List Tree) : mapRangesAll g h cs = cs.map (mapRanges g h) := by
  induction cs with
  | nil => rfl
  | cons c cs ih => rw [mapRangesAll, ih, List.map_cons]

@[simp]
theorem children_mapRanges (t : Tree) :
    (t.mapRanges g h).children = t.children.map (mapRanges g h) := by
  obtain ⟨l, cs⟩ := t
  exact mapRangesAll_eq_map g h cs

@[simp]
theorem kind_mapRanges (t : Tree) : (t.mapRanges g h).kind = t.kind := by
  obtain ⟨l, cs⟩ := t
  rfl

@[simp]
theorem start_mapRanges (t : Tree) : (t.mapRanges g h).start = g t.start := by
  obtain ⟨l, cs⟩ := t
  rfl

@[simp]
theorem stop_mapRanges (t : Tree) : (t.mapRanges g h).stop = h t.stop := by
  obtain ⟨l, cs⟩ := t
  rfl

@[simp]
theorem hasField_mapRanges (f : Field) (t : Tree) :
    hasField f (t.mapRanges g h) = hasField f t := by
  obtain ⟨l, cs⟩ := t
  rfl

@[simp]
theorem field?_mapRanges (t : Tree) (f : Field) :
    (t.mapRanges g h).field? f = (t.field? f).map (mapRanges g h) := by
  unfold field?
  rw [children_mapRanges, List.find?_map]
  congr 2
  funext c
  exact hasField_mapRanges g h f c

@[simp]
theorem isTaggedTemplate_mapRanges (t : Tree) :
    (t.mapRanges g h).isTaggedTemplate = t.isTaggedTemplate := by
  unfold isTaggedTemplate
  rw [kind_mapRanges, field?_mapRanges]
  cases t.field? .arguments with
  | none => rfl
  | some args => simp only [Option.map_some, kind_mapRanges]

@[simp]
theorem shape_mapRanges (t : Tree) : (t.mapRanges g h).shape = t.shape := by
  simp only [shape, isTaggedTemplate_mapRanges, kind_mapRanges]

@[simp]
theorem base?_mapRanges (t : Tree) : (t.mapRanges g h).base? = t.base?.map (mapRanges g h) := by
  unfold base? baseField?
  rw [kind_mapRanges, Option.map_bind]
  congr 1
  funext f
  exact field?_mapRanges g h t f

end Tree

namespace Focus

/-- The focus with every start changed by `g` and every stop by `h`. -/
def mapRanges (f : Focus) : Focus :=
  ⟨f.here.mapRanges g h, f.above.map fun p => ⟨p.tree.mapRanges g h, p.index⟩⟩

@[simp]
theorem here_mapRanges (f : Focus) : (f.mapRanges g h).here = f.here.mapRanges g h := rfl

theorem IsIn.mapRanges {root : Tree} {f : Focus} (hf : f.IsIn root) :
    (f.mapRanges g h).IsIn (root.mapRanges g h) := by
  induction hf with
  | root => exact .root
  | @child t c above i ht hc ih =>
    refine .child ih ?_
    rw [Tree.children_mapRanges, List.getElem?_map, hc, Option.map_some]

end Focus

end ChainGuard
