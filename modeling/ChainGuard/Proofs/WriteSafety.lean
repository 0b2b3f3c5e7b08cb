import ChainGuard.Proofs.Guard
import ChainGuard.Proofs.Source
import ChainGuard.Proofs.Tree

/-!
# Guards stay out of what is written to

An optional chain cannot be written to, so no edit may reach into the target of an assignment, of
`++` or `--`, or of `delete`. The rule in `Focus.isWritten` looks at the ancestors of the guarded
node only. In a tree whose ranges nest this is enough for all targets of the tree:

* a target that holds the guarded node is one of those ancestors or their siblings;
* a target inside the guarded node lies in its base, in its property or behind its bracket, because
  what stands in between has no children, and the edit lies exactly there.

1. `Source.NodeFits`, `Source.FitsBelow`: nested ranges.
2. `Guarding.inside`, `Guarding.spares_below`: the edit and the node it guards.
3. `spares_of_child`: from a node to its parent.
4. `fix?_spares_write_targets`: the edit and all targets of the tree.
-/

namespace ChainGuard

/-! ## 1. Trees with nested ranges -/

namespace Tree

/-- The children strictly between two positions. -/
def between (t : Tree) (i j : Nat) : List Tree :=
  (t.children.take j).drop (i + 1)

/-- Some node of the tree `t` writes to `target`. -/
def Writes (t target : Tree) : Prop :=
  ∃ node : Tree, node.Below t ∧ node.writeTarget? = some target

end Tree

namespace Source

/-- The ranges of the children of a node lie in its own range, one after the other. Between the
object and the property of a member access, and between the object and the bracket of an indexed
access, stand only nodes without children. -/
structure NodeFits (s : Source) (t : Tree) : Prop where
  ordered : t.start ≤ t.stop
  inside : ∀ c ∈ t.children, t.start ≤ c.start ∧ c.stop ≤ t.stop
  siblings : t.children.Pairwise fun a b => a.stop ≤ b.start
  member : t.kind = .memberExpression →
    ∀ i ∈ t.fieldIndex? .object, ∀ j ∈ t.fieldIndex? .property,
      ∀ c ∈ t.between i j, c.children.isEmpty = true
  subscript : t.kind = .subscriptExpression →
    ∀ i ∈ t.fieldIndex? .object, ∃ j ∈ List.range t.children.length, i < j ∧
      t.children[j]?.map s.textOf = some ['['] ∧ ∀ c ∈ t.between i j, c.children.isEmpty = true

instance (s : Source) (t : Tree) : Decidable (s.NodeFits t) :=
  decidable_of_iff
    (t.start ≤ t.stop ∧ (∀ c ∈ t.children, t.start ≤ c.start ∧ c.stop ≤ t.stop) ∧
      (t.children.Pairwise fun a b => a.stop ≤ b.start) ∧
      (t.kind = .memberExpression →
        ∀ i ∈ t.fieldIndex? .object, ∀ j ∈ t.fieldIndex? .property,
          ∀ c ∈ t.between i j, c.children.isEmpty = true) ∧
      (t.kind = .subscriptExpression →
        ∀ i ∈ t.fieldIndex? .object, ∃ j ∈ List.range t.children.length, i < j ∧
          t.children[j]?.map s.textOf = some ['['] ∧
          ∀ c ∈ t.between i j, c.children.isEmpty = true))
    ⟨fun ⟨h₁, h₂, h₃, h₄, h₅⟩ => ⟨h₁, h₂, h₃, h₄, h₅⟩,
      fun ⟨h₁, h₂, h₃, h₄, h₅⟩ => ⟨h₁, h₂, h₃, h₄, h₅⟩⟩

/-- All nodes of the tree `t` fit. -/
def FitsBelow (s : Source) (t : Tree) : Prop :=
  ∀ node : Tree, node.Below t → s.NodeFits node

end Source

namespace Edit

/-- The edit reaches into the range from `lo` to `hi`: it replaces a character of the range, or
inserts strictly between its ends. -/
def ReachesInto (e : Edit) (lo hi : Nat) : Prop :=
  e.start < hi ∧ lo < e.stop

end Edit

namespace WriteSafetyLemmas

/-! ## Nodes and children -/

theorem field?_eq_some {t c : Tree} {f : Field} (h : t.field? f = some c) :
    ∃ i, t.fieldIndex? f = some i ∧ t.children[i]? = some c := by
  unfold Tree.field? at h
  rw [List.find?_eq_bind_findIdx?_getElem?] at h
  exact Option.bind_eq_some_iff.mp h

/-- The base of an access is the child at the position of its base. -/
theorem base?_eq_some {t base : Tree} (h : t.base? = some base) :
    ∃ f i, t.baseField? = some f ∧ t.fieldIndex? f = some i ∧ t.children[i]? = some base := by
  obtain ⟨f, hf, hbase⟩ := Option.bind_eq_some_iff.mp h
  obtain ⟨i, hi, hchild⟩ := field?_eq_some hbase
  exact ⟨f, i, hf, hi, hchild⟩

theorem writeTarget?_eq_some {t target : Tree} (h : t.writeTarget? = some target) :
    ∃ i : Nat, t.children[i]? = some target := by
  have hfield : ∀ f, t.field? f = some target → ∃ i : Nat, t.children[i]? = some target := by
    intro f hf
    obtain ⟨i, _, hi⟩ := field?_eq_some hf
    exact ⟨i, hi⟩
  unfold Tree.writeTarget? at h
  split at h
  · exact hfield _ h
  · exact hfield _ h
  · exact hfield _ h
  · split at h
    · split at h
      · exact hfield _ h
      · cases h
    · cases h
  · cases h

theorem writeTarget?_of_isAccess {t : Tree} (h : t.shape ≠ .other) : t.writeTarget? = none := by
  unfold Tree.shape at h
  split at h
  · exact absurd rfl h
  · unfold Tree.writeTarget?
    cases hk : t.kind <;> simp_all

theorem mem_between {t c : Tree} {i j k : Nat} (hik : i < k) (hkj : k < j)
    (hc : t.children[k]? = some c) : c ∈ t.between i j := by
  unfold Tree.between
  apply List.mem_of_getElem? (i := k - (i + 1))
  rw [List.getElem?_drop, List.getElem?_take, Nat.add_sub_cancel' (by omega), if_pos hkj, hc]

/-! ## Ranges -/

theorem fitsBelow_child {s : Source} {t c : Tree} {i : Nat} (h : s.FitsBelow t)
    (hc : t.children[i]? = some c) : s.FitsBelow c :=
  fun d hd => h d (.child (List.mem_of_getElem? hc) hd)

/-- A target of a write is a child of the node, or lies below one of its children. -/
theorem writes_child {t target : Tree} (h : t.Writes target) :
    t.writeTarget? = some target ∨
      ∃ (i : Nat) (c : Tree), t.children[i]? = some c ∧ c.Writes target := by
  obtain ⟨d, hd, hwrite⟩ := h
  cases hd with
  | refl => exact .inl hwrite
  | child hc hd =>
    obtain ⟨i, hi⟩ := List.mem_iff_getElem?.mp hc
    exact .inr ⟨i, _, hi, d, hd, hwrite⟩

theorem children_ne_nil_of_writes {t target : Tree} (h : t.Writes target) :
    t.children.isEmpty = false := by
  have hne : ∀ {i : Nat} {c : Tree}, t.children[i]? = some c → t.children.isEmpty = false := by
    intro i c hc
    cases hcs : t.children with
    | nil => simp [hcs] at hc
    | cons _ _ => rfl
  rcases writes_child h with hwrite | ⟨i, c, hc, _⟩
  · obtain ⟨i, hi⟩ := writeTarget?_eq_some hwrite
    exact hne hi
  · exact hne hc

/-- What a node of the tree writes to lies in the range of the tree. -/
theorem inside_of_writes {s : Source} {t target : Tree} (hfit : s.FitsBelow t)
    (h : t.Writes target) : t.start ≤ target.start ∧ target.stop ≤ t.stop := by
  obtain ⟨d, hd, hwrite⟩ := h
  induction hd with
  | refl =>
    obtain ⟨i, hi⟩ := writeTarget?_eq_some hwrite
    exact (hfit d .refl).inside target (List.mem_of_getElem? hi)
  | child hc _ ih =>
    have hin := (hfit _ .refl).inside _ hc
    have hdeep := ih fun d' hd' => hfit d' (.child hc hd')
    omega

/-- The children of a node stand in the order of their positions. -/
theorem children_ordered {s : Source} {t a b : Tree} {i j : Nat} (hfit : s.FitsBelow t)
    (ha : t.children[i]? = some a) (hb : t.children[j]? = some b) (hij : i < j) :
    a.stop ≤ b.start := by
  obtain ⟨hi, rfl⟩ := List.getElem?_eq_some_iff.mp ha
  obtain ⟨hj, rfl⟩ := List.getElem?_eq_some_iff.mp hb
  exact List.pairwise_iff_getElem.mp (hfit t .refl).siblings i j hi hj hij

theorem children_start_le {s : Source} {t a b : Tree} {i j : Nat} (hfit : s.FitsBelow t)
    (ha : t.children[i]? = some a) (hb : t.children[j]? = some b) (hij : i ≤ j) :
    a.start ≤ b.start := by
  rcases Nat.lt_or_eq_of_le hij with h | rfl
  · have hord := children_ordered hfit ha hb h
    have ha' := (fitsBelow_child hfit ha a .refl).ordered
    omega
  · exact Nat.le_of_eq (congrArg _ (Option.some.inj (ha.symm.trans hb)))

theorem children_stop_le {s : Source} {t a b : Tree} {i j : Nat} (hfit : s.FitsBelow t)
    (ha : t.children[i]? = some a) (hb : t.children[j]? = some b) (hij : i ≤ j) :
    a.stop ≤ b.stop := by
  rcases Nat.lt_or_eq_of_le hij with h | rfl
  · have hord := children_ordered hfit ha hb h
    have hb' := (fitsBelow_child hfit hb b .refl).ordered
    omega
  · exact Nat.le_of_eq (congrArg _ (Option.some.inj (ha.symm.trans hb)))

/-- A target to the left of a child ends before that child does. -/
theorem stopOf_le_of_writes_left {s : Source} {t a c target : Tree} {i k : Nat}
    (hfit : s.FitsBelow t) (ha : t.children[i]? = some a) (hc : t.children[k]? = some c)
    (hki : k ≤ i) (hwrite : c.Writes target) : s.stopOf target ≤ s.stopOf a := by
  have hin := (inside_of_writes (fitsBelow_child hfit hc) hwrite).2
  exact s.charAt_mono (Nat.le_trans hin (children_stop_le hfit hc ha hki))

/-- A target to the right of a child starts after that child does. -/
theorem startOf_le_of_writes_right {s : Source} {t a c target : Tree} {i k : Nat}
    (hfit : s.FitsBelow t) (ha : t.children[i]? = some a) (hc : t.children[k]? = some c)
    (hik : i ≤ k) (hwrite : c.Writes target) : s.startOf a ≤ s.startOf target := by
  have hin := (inside_of_writes (fitsBelow_child hfit hc) hwrite).1
  exact s.charAt_mono (Nat.le_trans (children_start_le hfit ha hc hik) hin)

/-! ## 2. The edit and the node it guards -/

/-- The edit lies in the range of `t`. -/
def Inside (s : Source) (e : Edit) (t : Tree) : Prop :=
  s.startOf t ≤ e.start ∧ e.stop ≤ s.stopOf t

/-- The edit reaches into no target at or below `t`. -/
def Spares (s : Source) (e : Edit) (t : Tree) : Prop :=
  ∀ target : Tree, t.Writes target → ¬e.ReachesInto (s.startOf target) (s.stopOf target)

theorem stopOf_child_le {s : Source} {t c : Tree} {i : Nat} (hfit : s.FitsBelow t)
    (hc : t.children[i]? = some c) : s.startOf t ≤ s.stopOf c ∧ s.stopOf c ≤ s.stopOf t := by
  have hin := (hfit t .refl).inside c (List.mem_of_getElem? hc)
  have hord := (fitsBelow_child hfit hc c .refl).ordered
  exact ⟨s.charAt_mono (Nat.le_trans hin.1 hord), s.charAt_mono hin.2⟩

theorem startOf_child_le {s : Source} {t c : Tree} {i : Nat} (hfit : s.FitsBelow t)
    (hc : t.children[i]? = some c) : s.startOf c ≤ s.stopOf t := by
  have hin := (hfit t .refl).inside c (List.mem_of_getElem? hc)
  have hord := (fitsBelow_child hfit hc c .refl).ordered
  exact s.charAt_mono (Nat.le_trans hord hin.2)

/-- The edit lies in the range of the node it guards. -/
theorem inside_of_guarding {s : Source} {f : Focus} {base : Tree} {e : Edit}
    (hfit : s.FitsBelow f.here) (hbase : f.here.base? = some base) (h : s.Guarding f base e) :
    Inside s e f.here := by
  obtain ⟨_, _, _, _, hchild⟩ := base?_eq_some hbase
  have hstop := stopOf_child_le hfit hchild
  cases h with
  | @member property dot _ field after_base before_property _ _ _ =>
    obtain ⟨_, _, hprop⟩ := field?_eq_some field
    have hstart := startOf_child_le hfit hprop
    exact ⟨Nat.le_trans hstop.1 after_base, Nat.le_trans before_property hstart⟩
  | @indexed bracket _ after_base before_end _ _ _ =>
    exact ⟨Nat.le_trans hstop.1 after_base, Nat.le_of_lt before_end⟩
  | invocation _ _ _ _ => exact hstop

theorem kind_of_shape {t : Tree} :
    (t.shape = .memberAccess → t.kind = .memberExpression) ∧
    (t.shape = .indexedAccess → t.kind = .subscriptExpression) := by
  unfold Tree.shape
  split
  · exact ⟨nofun, nofun⟩
  · cases hk : t.kind <;> simp

/-- A character found at the start of a node whose text is a bracket. -/
theorem getElem?_of_textOf {s : Source} {t : Tree} {c : Char} (h : s.textOf t = [c]) :
    s.text[s.startOf t]? = some c := by
  have hget : (s.textOf t)[0]? = some c := by rw [h]; rfl
  exact (Text.getElem?_of_slice hget).2

theorem stopOf_base_le {s : Source} {f : Focus} {base : Tree} {e : Edit}
    (h : s.Guarding f base e) : s.stopOf base ≤ e.start := by
  cases h with
  | member _ _ after_base _ _ _ _ => exact after_base
  | indexed _ after_base _ _ _ _ => exact after_base
  | invocation _ _ _ _ => exact Nat.le_refl _

/-- A target to the right of the base starts behind the edit: the property and the bracket do, and
no child before them has anything below it. -/
theorem stop_le_of_writes_right {s : Source} {f : Focus} {base c target : Tree} {e : Edit}
    {field : Field} {i k : Nat} (hfit : s.FitsBelow f.here) (h : s.Guarding f base e)
    (hfield : f.here.baseField? = some field) (hi : f.here.fieldIndex? field = some i)
    (hbase : f.here.children[i]? = some base) (hc : f.here.children[k]? = some c) (hik : i < k)
    (hwrite : c.Writes target) : e.stop ≤ s.startOf target := by
  have beyond : ∀ j, (∀ d ∈ f.here.between i j, d.children.isEmpty = true) → j ≤ k := by
    intro j hempty
    apply Nat.le_of_not_lt
    intro hkj
    have hc := hempty c (mem_between hik hkj hc)
    rw [children_ne_nil_of_writes hwrite] at hc
    cases hc
  cases h with
  | @member property dot shape hprop _ before_property _ _ _ =>
    have hkind := kind_of_shape.1 shape
    simp only [Tree.baseField?, hkind, Option.some.injEq] at hfield
    subst hfield
    obtain ⟨j, hj, hpropchild⟩ := field?_eq_some hprop
    have hjk := beyond j ((hfit _ .refl).member hkind i hi j hj)
    have hstart := startOf_le_of_writes_right hfit hpropchild hc hjk hwrite
    exact Nat.le_trans before_property hstart
  | @indexed bracket shape _ _ _ first _ =>
    have hkind := kind_of_shape.2 shape
    simp only [Tree.baseField?, hkind, Option.some.injEq] at hfield
    subst hfield
    obtain ⟨j, _, hij, htoken, hempty⟩ := (hfit _ .refl).subscript hkind i hi
    obtain ⟨token, htoken, htext⟩ := Option.map_eq_some_iff.mp htoken
    have hstart := startOf_le_of_writes_right hfit htoken hc (beyond j hempty) hwrite
    have hafter : s.stopOf base ≤ s.startOf token :=
      s.charAt_mono (children_ordered hfit hbase htoken hij)
    have hfirst : bracket ≤ s.startOf token := by
      apply Nat.le_of_not_lt
      intro hlt
      exact first _ hafter hlt (getElem?_of_textOf htext)
    exact Nat.le_trans hfirst hstart
  | invocation _ _ _ _ =>
    have hord := children_ordered hfit hbase hc hik
    have hin := (inside_of_writes (fitsBelow_child hfit hc) hwrite).1
    exact s.charAt_mono (Nat.le_trans hord hin)

/-- The edit reaches into no target at or below the node it guards. -/
theorem spares_of_guarding {s : Source} {f : Focus} {base : Tree} {e : Edit}
    (hfit : s.FitsBelow f.here) (hbase : f.here.base? = some base) (h : s.Guarding f base e) :
    Spares s e f.here := by
  intro target hwrite hreach
  obtain ⟨field, i, hfield, hi, hchild⟩ := base?_eq_some hbase
  have hshape : f.here.shape ≠ .other := by
    cases h with
    | member shape _ _ _ _ _ _ => rw [shape]; nofun
    | indexed shape _ _ _ _ _ => rw [shape]; nofun
    | invocation shape _ _ _ => rw [shape]; nofun
  rcases writes_child hwrite with hself | ⟨k, c, hc, hbelow⟩
  · rw [writeTarget?_of_isAccess hshape] at hself
    cases hself
  · rcases Nat.lt_or_ge i k with hik | hki
    · have hright := stop_le_of_writes_right hfit h hfield hi hchild hc hik hbelow
      exact absurd hreach.2 (Nat.not_lt.mpr hright)
    · have hleft := stopOf_le_of_writes_left hfit hchild hc hki hbelow
      exact absurd hreach.1 (Nat.not_lt.mpr (Nat.le_trans hleft (stopOf_base_le h)))

/-! ## 3. From a node to its parent -/

theorem inside_of_child {s : Source} {t c : Tree} {i : Nat} {e : Edit} (hfit : s.FitsBelow t)
    (hc : t.children[i]? = some c) (h : Inside s e c) : Inside s e t := by
  have hin := (hfit t .refl).inside c (List.mem_of_getElem? hc)
  exact ⟨Nat.le_trans (s.charAt_mono hin.1) h.1, Nat.le_trans h.2 (s.charAt_mono hin.2)⟩

/-- An edit in one child reaches into nothing that lies in another child. -/
theorem not_reachesInto_sibling {s : Source} {t c d target : Tree} {i k : Nat} {e : Edit}
    (hfit : s.FitsBelow t) (hc : t.children[i]? = some c) (hd : t.children[k]? = some d)
    (hne : k ≠ i) (h : Inside s e c) (hin : d.start ≤ target.start ∧ target.stop ≤ d.stop) :
    ¬e.ReachesInto (s.startOf target) (s.stopOf target) := by
  rintro ⟨hstop, hstart⟩
  rcases Nat.lt_or_gt_of_ne hne with hki | hik
  · have hord := s.charAt_mono (Nat.le_trans hin.2 (children_ordered hfit hd hc hki))
    exact absurd hstop (Nat.not_lt.mpr (Nat.le_trans hord h.1))
  · have hord := s.charAt_mono (Nat.le_trans (children_ordered hfit hc hd hik) hin.1)
    exact absurd hstart (Nat.not_lt.mpr (Nat.le_trans h.2 hord))

/-- If the parent does not write to the child that holds the edit, what holds below the child holds
below the parent. -/
theorem spares_of_child {s : Source} {t c : Tree} {i : Nat} {e : Edit} (hfit : s.FitsBelow t)
    (hc : t.children[i]? = some c) (hinside : Inside s e c) (hspares : Spares s e c)
    (hunwritten : c.writtenBy t = false) : Spares s e t := by
  intro target hwrite
  rcases writes_child hwrite with hself | ⟨k, d, hd, hbelow⟩
  · obtain ⟨k, hk⟩ := writeTarget?_eq_some hself
    by_cases hki : k = i
    · subst hki
      have hsame : target = c := Option.some.inj (hk.symm.trans hc)
      subst hsame
      simp [Tree.writtenBy, hself, Tree.within] at hunwritten
    · exact not_reachesInto_sibling hfit hc hk hki hinside ⟨Nat.le_refl _, Nat.le_refl _⟩
  · by_cases hki : k = i
    · subst hki
      have hsame : d = c := Option.some.inj (hd.symm.trans hc)
      subst hsame
      exact hspares target hbelow
    · exact not_reachesInto_sibling hfit hc hd hki hinside
        (inside_of_writes (fitsBelow_child hfit hd) hbelow)

/-- What holds below a node that lies in no target holds below the root. -/
theorem spares_root {s : Source} {root t : Tree} {above : List Above} {e : Edit}
    (hfit : s.FitsBelow root) (hin : Focus.IsIn root ⟨t, above⟩) (hinside : Inside s e t)
    (hspares : Spares s e t) (hunwritten : Focus.writtenUnder t above = false) :
    Spares s e root := by
  induction above generalizing t with
  | nil =>
    cases hin
    exact hspares
  | cons p rest ih =>
    cases hin with
    | @child t' c _ i hp hc =>
      rw [Focus.writtenUnder, Bool.or_eq_false_iff] at hunwritten
      have hfit' : s.FitsBelow t' := fun d hd => hfit d (hd.trans hp.here_below)
      exact ih hp (inside_of_child hfit' hc hinside)
        (spares_of_child hfit' hc hinside hspares hunwritten.1) hunwritten.2

end WriteSafetyLemmas

open WriteSafetyLemmas

/-! ## 4. The edit and all targets -/

/-- In a tree with nested ranges, the edit for any diagnostic reaches into no target of a write: it
replaces no character of one, and inserts nothing strictly between its ends. -/
theorem Source.fix?_spares_write_targets {s : Source} (hfit : s.FitsBelow s.root)
    {code offset : Int} {e : Edit} (h : s.fix? code offset = some e) {target : Tree}
    (hwrite : s.root.Writes target) :
    ¬e.ReachesInto (s.startOf target) (s.stopOf target) := by
  obtain ⟨f, hin, hguard⟩ := fix?_isIn h
  obtain ⟨base, hbase, hunwritten, _, _, _, guarding⟩ := guard?_guarding hguard
  have hfit' : s.FitsBelow f.here := fun d hd => hfit d (hd.trans hin.here_below)
  exact spares_root hfit hin (inside_of_guarding hfit' hbase guarding)
    (spares_of_guarding hfit' hbase guarding) hunwritten target hwrite

namespace WriteSafetyLemmas

/-- The target `a.b` in `f(a.b = 1)[c]`. -/
def written : Tree :=
  .node ⟨.memberExpression, 2, 5, true, some .left⟩
    [.node ⟨.identifier, 2, 3, true, some .object⟩ [], .node ⟨.other ".", 3, 4, false, none⟩ [],
      .node ⟨.other "property_identifier", 4, 5, true, some .property⟩ []]

/-- The assignment in `f(a.b = 1)[c]`. -/
def writing : Tree :=
  .node ⟨.assignmentExpression, 2, 9, true, none⟩
    [written, .node ⟨.other "=", 6, 7, false, none⟩ [],
      .node ⟨.other "number", 8, 9, true, none⟩ []]

def writeInArguments : Source where
  text := "f(a.b = 1)[c]".toList
  root :=
    .node ⟨.other "program", 0, 13, true, none⟩
      [.node ⟨.subscriptExpression, 0, 13, true, none⟩
        [.node ⟨.callExpression, 0, 10, true, some .object⟩
          [.node ⟨.identifier, 0, 1, true, some .function⟩ [],
            .node ⟨.other "arguments", 1, 10, true, some .arguments⟩
              [.node ⟨.other "(", 1, 2, false, none⟩ [], writing,
                .node ⟨.other ")", 9, 10, false, none⟩ []]],
          .node ⟨.other "[", 10, 11, false, none⟩ [], .node ⟨.identifier, 11, 12, true, none⟩ [],
          .node ⟨.other "]", 12, 13, false, none⟩ []]]

theorem fits_writeInArguments : writeInArguments.FitsBelow writeInArguments.root := by
  have hall : ∀ f ∈ Focus.preorder writeInArguments.root, writeInArguments.NodeFits f.here := by
    decide +kernel
  intro node hnode
  obtain ⟨f, hf, rfl⟩ := Focus.exists_preorder_iff.mpr hnode
  exact hall f hf

theorem writes_writeInArguments : writeInArguments.root.Writes written := by
  refine ⟨writing, ?_, rfl⟩
  exact .child (.head _) (.child (.head _) (.child (.tail _ (.head _))
    (.child (.tail _ (.head _)) .refl)))

end WriteSafetyLemmas

/-- In `f(a.b = 1)[c]` the call can be guarded, and the edit stays out of `a.b`. -/
theorem Source.guarded_call_spares_its_arguments :
    writeInArguments.fix? 2532 0 = some (Edit.insertMarker 1) ∧
      ¬(Edit.insertMarker 1).ReachesInto (writeInArguments.startOf written)
        (writeInArguments.stopOf written) := by
  have hfix : writeInArguments.fix? 2532 0 = some (Edit.insertMarker 1) := by decide +kernel
  exact ⟨hfix, fix?_spares_write_targets fits_writeInArguments hfix writes_writeInArguments⟩

end ChainGuard
