import ChainGuard.Guard

/-!
# Foci and the trees they stand in

A `Focus` is plain data, so it may hold a way to the root that no tree has. The foci that the rules
work with all stand in one tree:

1. `Focus.IsIn root f`: the focus `f` stands in the tree `root`.
2. `tokenAt?_isIn`, `target?_isIn`: looking up a token and climbing from it stay in the tree.
   `descendAmong_take`, `descendAmong_skip`, `descendAmong_stop`: one step of the walk down.
3. `Tree.Below`: the nodes of a tree; `exists_preorder_iff`: `Focus.preorder` lists exactly them.
-/

namespace ChainGuard

/-! ## 1. Foci of a tree -/

namespace Focus

/-- The focus is on a node of the tree `root`, and its ancestors are those of that node. -/
inductive IsIn (root : Tree) : Focus → Prop
  | root : IsIn root ⟨root, []⟩
  | child {t c : Tree} {above : List Above} {i : Nat} :
      IsIn root ⟨t, above⟩ → t.children[i]? = some c → IsIn root ⟨c, ⟨t, i⟩ :: above⟩

theorem IsIn.child? {root : Tree} {f g : Focus} (h : IsIn root f) {i : Nat}
    (hg : f.child? i = some g) : IsIn root g := by
  obtain ⟨c, hc, rfl⟩ := Option.map_eq_some_iff.mp hg
  exact .child h hc

theorem IsIn.ancestors {root : Tree} {above : List Above} {t : Tree} (h : IsIn root ⟨t, above⟩) :
    ∀ g ∈ ancestorsOf above, IsIn root g := by
  induction above generalizing t with
  | nil => exact fun _ hg => nomatch hg
  | cons p rest ih =>
    intro g hg
    cases h with
    | child hp _ =>
      rw [ancestorsOf, List.mem_cons] at hg
      rcases hg with rfl | hg
      · exact hp
      · exact ih hp g hg

theorem IsIn.lineage {root : Tree} {f : Focus} (h : IsIn root f) :
    ∀ g ∈ f.lineage, IsIn root g := by
  intro g hg
  rw [Focus.lineage, List.mem_cons] at hg
  rcases hg with rfl | hg
  · exact h
  · exact h.ancestors g hg

/-! ## 2. Moving in a tree -/

theorem descend_eq (b : Nat) (above : List Above) (t : Tree) :
    descend b above t = descendAmong b above t 0 t.children := by
  cases t
  rw [descend]
  rfl

theorem endsBefore_of_lt {c : Tree} (h : c.start < c.stop) (b : Nat) :
    c.endsBefore b = decide (c.stop ≤ b) := by
  rw [Tree.endsBefore, if_neg (Nat.ne_of_lt h)]

/-- A child that holds the byte is taken. -/
theorem descendAmong_take {b i : Nat} {above : List Above} {t c : Tree} {cs : List Tree}
    (hstart : c.start ≤ b) (hstop : b < c.stop) :
    descendAmong b above t i (c :: cs) = descend b (⟨t, i⟩ :: above) c := by
  rw [descendAmong, endsBefore_of_lt (Nat.lt_of_le_of_lt hstart hstop),
    decide_eq_false (Nat.not_le.mpr hstop), if_neg Bool.false_ne_true,
    if_neg (Nat.not_lt.mpr hstart)]

/-- A child that ends before the byte is passed over. -/
theorem descendAmong_skip {b i : Nat} {above : List Above} {t c : Tree} {cs : List Tree}
    (hwide : c.start < c.stop) (hstop : c.stop ≤ b) :
    descendAmong b above t i (c :: cs) = descendAmong b above t (i + 1) cs := by
  rw [descendAmong, endsBefore_of_lt hwide, decide_eq_true hstop, if_pos rfl]

/-- A child that starts behind the byte ends the search. -/
theorem descendAmong_stop {b i : Nat} {above : List Above} {t c : Tree} {cs : List Tree}
    (hwide : c.start < c.stop) (hstart : b < c.start) :
    descendAmong b above t i (c :: cs) = ⟨t, above⟩ := by
  rw [descendAmong, endsBefore_of_lt hwide,
    decide_eq_false (Nat.not_le.mpr (Nat.lt_trans hstart hwide)), if_neg Bool.false_ne_true,
    if_pos hstart]

theorem descend_of_children_nil {b : Nat} {above : List Above} {t : Tree} (h : t.children = []) :
    descend b above t = ⟨t, above⟩ := by
  rw [descend_eq, h, descendAmong]

mutual

theorem descend_isIn (root : Tree) (b : Nat) (above : List Above) :
    ∀ t : Tree, IsIn root ⟨t, above⟩ → IsIn root (descend b above t)
  | .node l cs, h => by
    rw [descend]
    exact descendAmong_isIn root b above (.node l cs) 0 cs rfl h

theorem descendAmong_isIn (root : Tree) (b : Nat) (above : List Above) (t : Tree) (i : Nat) :
    ∀ cs : List Tree, t.children.drop i = cs → IsIn root ⟨t, above⟩ →
      IsIn root (descendAmong b above t i cs)
  | [], _, h => by
    rw [descendAmong]
    exact h
  | c :: cs, hcs, h => by
    have hchild : t.children[i]? = some c := by
      have hget : (t.children.drop i)[0]? = some c := by rw [hcs]; rfl
      rwa [List.getElem?_drop] at hget
    have hrest : t.children.drop (i + 1) = cs := by
      rw [← List.drop_drop, hcs, List.drop_succ_cons, List.drop_zero]
    rw [descendAmong]
    split
    · exact descendAmong_isIn root b above t (i + 1) cs hrest h
    · split
      · exact h
      · exact descend_isIn root b (⟨t, i⟩ :: above) c (.child h hchild)

end

theorem nearestAccess?_isIn {root : Tree} {f g : Focus} (h : IsIn root f)
    (hg : f.nearestAccess? = some g) : IsIn root g :=
  h.lineage g (List.mem_of_find?_eq_some hg)

theorem nullishAccess?_isIn {root : Tree} {f g : Focus} (h : IsIn root f)
    (hg : f.nullishAccess? = some g) : IsIn root g := by
  unfold nullishAccess? at hg
  split at hg
  · cases hg
  · next near hnear =>
    have hin : IsIn root near := nearestAccess?_isIn h hnear
    split at hg
    · split at hg
      · next p rest hab =>
        have hparent : ⟨p.tree, rest⟩ ∈ ancestorsOf near.above := by
          rw [hab]
          exact List.mem_cons_self
        split at hg
        · cases hg
          exact hin.ancestors _ hparent
        · cases hg
          exact hin
      · cases hg
        exact hin
    · cases hg
      exact hin

/-- The node to guard lies in the tree of the node that a diagnostic names. -/
theorem target?_isIn {root : Tree} {f g : Focus} {code : Int} (h : IsIn root f)
    (hg : f.target? code = some g) : IsIn root g := by
  unfold target? at hg
  split at hg
  · exact h.lineage g (List.mem_of_find?_eq_some hg)
  · exact nullishAccess?_isIn h hg

end Focus

namespace Source

theorem tokenAt?_isIn {s : Source} {offset : Int} {f : Focus} (h : s.tokenAt? offset = some f) :
    f.IsIn s.root := by
  have hdeep : ∀ byte, (s.deepestAt byte).IsIn s.root := fun byte =>
    Focus.descend_isIn s.root byte [] s.root .root
  unfold tokenAt? at h
  split at h
  · cases h
  · dsimp only at h
    split at h
    · cases h
      exact hdeep _
    · split at h
      · cases h
      · split at h
        · cases h
        · cases h
          exact hdeep _

/-- The edit for a diagnostic guards a node of the tree. -/
theorem fix?_isIn {s : Source} {code offset : Int} {e : Edit} (h : s.fix? code offset = some e) :
    ∃ f : Focus, f.IsIn s.root ∧ s.guard? f = some e := by
  obtain ⟨f, hf, hguard⟩ := Option.bind_eq_some_iff.mp h
  obtain ⟨token, htoken, htarget⟩ := Option.bind_eq_some_iff.mp hf
  exact ⟨f, Focus.target?_isIn (tokenAt?_isIn htoken) htarget, hguard⟩

end Source

/-! ## 3. The nodes of a tree -/

namespace Tree

/-- The tree `d` is `t`, or stands below it. -/
inductive Below (d : Tree) : Tree → Prop
  | refl : Below d d
  | child {c t : Tree} : c ∈ t.children → Below d c → Below d t

theorem Below.trans {a b c : Tree} (hab : a.Below b) (hbc : b.Below c) : a.Below c := by
  induction hbc with
  | refl => exact hab
  | child hc _ ih => exact .child hc ih

theorem Below.of_mem_children {root t c : Tree} (ht : t.Below root) (hc : c ∈ t.children) :
    c.Below root :=
  (Below.child hc .refl).trans ht

end Tree

namespace Focus

theorem IsIn.here_below {root : Tree} {f : Focus} (h : IsIn root f) : f.here.Below root := by
  induction h with
  | root => exact .refl
  | child _ hc ih => exact ih.of_mem_children (List.mem_of_getElem? hc)

mutual

theorem exists_preorderFrom_of_below (d : Tree) (above : List Above) :
    ∀ t : Tree, d.Below t → ∃ f ∈ preorderFrom above t, f.here = d
  | .node l cs, h => by
    rw [preorderFrom]
    cases h with
    | refl => exact ⟨_, List.mem_cons_self, rfl⟩
    | child hc h =>
      obtain ⟨f, hf, hd⟩ := exists_preorderAmong_of_below d above (.node l cs) 0 cs ⟨_, hc, h⟩
      exact ⟨f, List.mem_cons_of_mem _ hf, hd⟩

theorem exists_preorderAmong_of_below (d : Tree) (above : List Above) (t : Tree) (i : Nat) :
    ∀ cs : List Tree, (∃ c ∈ cs, d.Below c) → ∃ f ∈ preorderAmong above t i cs, f.here = d
  | [], h => by simp at h
  | c :: cs, h => by
    rw [preorderAmong]
    obtain ⟨c', hc', h⟩ := h
    rcases List.mem_cons.mp hc' with heq | hc'
    · obtain ⟨f, hf, hd⟩ := exists_preorderFrom_of_below d (⟨t, i⟩ :: above) c (heq ▸ h)
      exact ⟨f, List.mem_append_left _ hf, hd⟩
    · obtain ⟨f, hf, hd⟩ := exists_preorderAmong_of_below d above t (i + 1) cs ⟨c', hc', h⟩
      exact ⟨f, List.mem_append_right _ hf, hd⟩

end

mutual

theorem below_of_mem_preorderFrom (f : Focus) (above : List Above) :
    ∀ t : Tree, f ∈ preorderFrom above t → f.here.Below t
  | .node l cs, h => by
    rw [preorderFrom, List.mem_cons] at h
    rcases h with rfl | h
    · exact .refl
    · obtain ⟨c, hc, h⟩ := below_of_mem_preorderAmong f above (.node l cs) 0 cs h
      exact .child hc h

theorem below_of_mem_preorderAmong (f : Focus) (above : List Above) (t : Tree) (i : Nat) :
    ∀ cs : List Tree, f ∈ preorderAmong above t i cs → ∃ c ∈ cs, f.here.Below c
  | [], h => by
    rw [preorderAmong] at h
    cases h
  | c :: cs, h => by
    rw [preorderAmong, List.mem_append] at h
    rcases h with h | h
    · exact ⟨c, List.mem_cons_self, below_of_mem_preorderFrom f (⟨t, i⟩ :: above) c h⟩
    · obtain ⟨c', hc', h⟩ := below_of_mem_preorderAmong f above t (i + 1) cs h
      exact ⟨c', List.mem_cons_of_mem _ hc', h⟩

end

/-- The preorder of a tree lists its nodes. -/
theorem exists_preorder_iff {root d : Tree} :
    (∃ f ∈ preorder root, f.here = d) ↔ d.Below root := by
  constructor
  · rintro ⟨f, hf, rfl⟩
    exact below_of_mem_preorderFrom f [] root hf
  · exact exists_preorderFrom_of_below d [] root

end Focus

end ChainGuard
