import ChainGuard.Proofs.Tree

/-!
# The token at a position

The walk to a byte takes, again and again, the first child that does not end before the byte. In a
tree with nested ranges it comes through every node at the byte, so it ends at the deepest of them.

1. `Tree.NestsBelow`: nested ranges, none of them empty below the root.
2. `Focus.Covers`, `Focus.IsDeepestAt`: the nodes at a byte, and the deepest one.
3. `Focus.descend_eq_of_covers`: the walk comes through every node at the byte.
   `Focus.descend_cases`: it ends where it starts, or at a node at the byte.
4. Main statement: `Source.tokenAt?_is_deepest`.
-/

namespace ChainGuard

/-! ## 1. Nested ranges -/

namespace Tree

/-- The ranges of the children of a node lie in its own range, one after the other, and none of them
is empty. -/
structure Nests (t : Tree) : Prop where
  inside : ∀ c ∈ t.children, t.start ≤ c.start ∧ c.stop ≤ t.stop
  siblings : t.children.Pairwise fun a b => a.stop ≤ b.start
  wide : ∀ c ∈ t.children, c.start < c.stop

instance (t : Tree) : Decidable t.Nests :=
  decidable_of_iff
    ((∀ c ∈ t.children, t.start ≤ c.start ∧ c.stop ≤ t.stop) ∧
      (t.children.Pairwise fun a b => a.stop ≤ b.start) ∧ ∀ c ∈ t.children, c.start < c.stop)
    ⟨fun ⟨h₁, h₂, h₃⟩ => ⟨h₁, h₂, h₃⟩, fun ⟨h₁, h₂, h₃⟩ => ⟨h₁, h₂, h₃⟩⟩

/-- All nodes of the tree nest. The root itself may be empty. -/
def NestsBelow (t : Tree) : Prop :=
  ∀ node : Tree, node.Below t → node.Nests

theorem NestsBelow.child {t c : Tree} (h : t.NestsBelow) (hc : c ∈ t.children) : c.NestsBelow :=
  fun node hnode => h node (.child hc hnode)

end Tree

namespace Focus

/-! ## 2. Nodes at a byte -/

/-- The byte is in the range of the node. -/
def Covers (f : Focus) (b : Nat) : Prop :=
  f.here.start ≤ b ∧ b < f.here.stop

/-- The focus is on the deepest node of the tree at a byte: all other nodes there have fewer
ancestors. -/
structure IsDeepestAt (root : Tree) (b : Nat) (f : Focus) : Prop where
  isIn : f.IsIn root
  covers : f.Covers b
  deepest : ∀ g : Focus, g.IsIn root → g.Covers b → g ≠ f → g.above.length < f.above.length

theorem IsDeepestAt.unique {root : Tree} {b : Nat} {f g : Focus} (hf : IsDeepestAt root b f)
    (hg : IsDeepestAt root b g) : f = g := by
  refine Classical.byContradiction fun hne => ?_
  have hless := hg.deepest f hf.isIn hf.covers hne
  have hmore := hf.deepest g hg.isIn hg.covers (Ne.symm hne)
  exact absurd hless (Nat.lt_asymm hmore)

/-! ## 3. The walk -/

variable {b : Nat}

/-- Among children in order the one at the byte is taken, as all before it end before the byte. -/
theorem descendAmong_of_getElem? {above : List Above} {t c : Tree} {i j : Nat} {cs : List Tree}
    (hsiblings : cs.Pairwise fun a b => a.stop ≤ b.start) (hwide : ∀ d ∈ cs, d.start < d.stop)
    (hc : cs[j]? = some c) (hstart : c.start ≤ b) (hstop : b < c.stop) :
    descendAmong b above t i cs = descend b (⟨t, i + j⟩ :: above) c := by
  induction cs generalizing i j with
  | nil => cases hc
  | cons d ds ih =>
    cases j with
    | zero =>
      cases hc
      exact descendAmong_take hstart hstop
    | succ j =>
      obtain ⟨hbefore, hrest⟩ := List.pairwise_cons.mp hsiblings
      have hends := hbefore c (List.mem_of_getElem? hc)
      rw [descendAmong_skip (hwide d List.mem_cons_self) (Nat.le_trans hends hstart),
        ih hrest (fun e he => hwide e (List.mem_cons_of_mem d he)) hc, Nat.add_right_comm,
        Nat.add_assoc]

/-- The walk to a byte comes through every node at the byte. -/
theorem descend_eq_of_covers {root : Tree} (h : root.NestsBelow) {g : Focus} (hg : g.IsIn root)
    (hb : g.Covers b) : descend b [] root = descend b g.above g.here := by
  induction hg with
  | root => rfl
  | @child t c above i ht hc ih =>
    have hnests := h t ht.here_below
    obtain ⟨hstart, hstop⟩ := hnests.inside c (List.mem_of_getElem? hc)
    rw [ih ⟨Nat.le_trans hstart hb.1, Nat.lt_of_lt_of_le hb.2 hstop⟩, descend_eq,
      descendAmong_of_getElem? hnests.siblings hnests.wide hc hb.1 hb.2, Nat.zero_add]

mutual

/-- The walk ends where it starts, or further down at a node at the byte. -/
theorem descend_cases (b : Nat) (above : List Above) : ∀ t : Tree, t.NestsBelow →
    descend b above t = ⟨t, above⟩ ∨
      (descend b above t).Covers b ∧ above.length < (descend b above t).above.length
  | .node l cs, h => by
    have hnests := h _ .refl
    rw [descend]
    exact descendAmong_cases b above (.node l cs) 0 cs hnests.wide fun _ hc => h.child hc

theorem descendAmong_cases (b : Nat) (above : List Above) (t : Tree) (i : Nat) :
    ∀ cs : List Tree, (∀ c ∈ cs, c.start < c.stop) → (∀ c ∈ cs, c.NestsBelow) →
    descendAmong b above t i cs = ⟨t, above⟩ ∨
      (descendAmong b above t i cs).Covers b ∧
        above.length < (descendAmong b above t i cs).above.length
  | [], _, _ => by
    rw [descendAmong]
    exact .inl rfl
  | c :: cs, hwide, hnests => by
    have hc := hwide c List.mem_cons_self
    rcases Nat.lt_or_ge b c.stop with hstop | hstop
    · rcases Nat.lt_or_ge b c.start with hstart | hstart
      · exact .inl (descendAmong_stop hc hstart)
      · rw [descendAmong_take hstart hstop]
        refine .inr ?_
        rcases descend_cases b (⟨t, i⟩ :: above) c (hnests c List.mem_cons_self) with
          hend | ⟨hcovers, hlength⟩
        · rw [hend]
          exact ⟨⟨hstart, hstop⟩, Nat.lt_succ_self _⟩
        · exact ⟨hcovers, Nat.lt_of_succ_lt hlength⟩
    · rw [descendAmong_skip hc hstop]
      exact descendAmong_cases b above t (i + 1) cs
        (fun d hd => hwide d (List.mem_cons_of_mem c hd))
        fun d hd => hnests d (List.mem_cons_of_mem c hd)

end

/-- Where there is a node at the byte, the walk ends at the deepest one. It passes every node at the
byte, and so goes on from there. -/
theorem isDeepestAt_descend {root : Tree} (h : root.NestsBelow) {g : Focus} (hg : g.IsIn root)
    (hb : g.Covers b) : IsDeepestAt root b (descend b [] root) := by
  have hfrom : ∀ d : Focus, d.IsIn root → d.Covers b → descend b [] root = d ∨
      (descend b [] root).Covers b ∧ d.above.length < (descend b [] root).above.length := by
    intro d hd hcovers
    rw [descend_eq_of_covers h hd hcovers]
    exact descend_cases b d.above d.here fun node hnode => h node (hnode.trans hd.here_below)
  refine ⟨descend_isIn root b [] root .root, ?_, fun d hd hcovers hne => ?_⟩
  · rcases hfrom g hg hb with hend | ⟨hcovers, -⟩
    · rw [hend]
      exact hb
    · exact hcovers
  · exact ((hfrom d hd hcovers).resolve_left (Ne.symm hne)).2

end Focus

/-! ## 4. Tokens -/

namespace Source

variable {s : Source}

/-- Some node other than the root is at the byte. -/
def IsCovered (s : Source) (b : Nat) : Prop :=
  ∃ f : Focus, f.IsIn s.root ∧ f.isRoot = false ∧ f.Covers b

/-- The walk leaves the root exactly where another node is at the byte. -/
theorem isRoot_deepestAt_iff (h : s.root.NestsBelow) {b : Nat} :
    (s.deepestAt b).isRoot = true ↔ ¬s.IsCovered b := by
  constructor
  · rintro hroot ⟨f, hf, hbelow, hcovers⟩
    obtain ⟨here, above⟩ := f
    have hdeepest := Focus.isDeepestAt_descend h hf hcovers
    have hnil : (s.deepestAt b).above = [] := List.isEmpty_iff.mp hroot
    have hcons : above ≠ [] := fun hempty => nomatch hbelow.symm.trans (List.isEmpty_iff.mpr hempty)
    by_cases heq : ⟨here, above⟩ = s.deepestAt b
    · exact hcons ((congrArg Focus.above heq).trans hnil)
    · have hlength := hdeepest.deepest _ hf hcovers heq
      exact absurd (Nat.lt_of_lt_of_eq hlength (congrArg List.length hnil)) (Nat.not_lt_zero _)
  · intro hnone
    rcases Focus.descend_cases b [] s.root h with hend | ⟨hcovers, hlength⟩
    · rw [deepestAt, hend]
      rfl
    · refine absurd ⟨_, Focus.descend_isIn s.root b [] s.root .root, ?_, hcovers⟩ hnone
      exact List.isEmpty_eq_false_iff.mpr (List.ne_nil_of_length_pos hlength)

theorem eq_deepestAt_iff (h : s.root.NestsBelow) {b : Nat} (hcovered : s.IsCovered b) {f : Focus} :
    s.deepestAt b = f ↔ f.IsDeepestAt s.root b := by
  obtain ⟨g, hg, -, hcovers⟩ := hcovered
  have hdeepest := Focus.isDeepestAt_descend h hg hcovers
  exact ⟨fun heq => heq ▸ hdeepest, hdeepest.unique⟩

section

variable (h : s.root.NestsBelow) {offset : Int} (hlo : 0 ≤ offset) (hhi : offset ≤ s.text.length)
include h hlo hhi

theorem tokenAt?_of_isCovered (hcovered : s.IsCovered (s.byteOffset offset).toNat) :
    s.tokenAt? offset = some (s.deepestAt (s.byteOffset offset).toNat) := by
  have hroot : (s.deepestAt (s.byteOffset offset).toNat).isRoot = false :=
    Bool.eq_false_iff.mpr fun hroot => (isRoot_deepestAt_iff h).mp hroot hcovered
  unfold tokenAt?
  rw [if_neg (by omega)]
  dsimp only
  rw [hroot, if_pos (by rfl)]

/-- Where only the root is at the byte, the byte before it decides. -/
theorem tokenAt?_of_not_isCovered (hbare : ¬s.IsCovered (s.byteOffset offset).toNat) :
    ((s.byteOffset offset).toNat = 0 ∨ ¬s.IsCovered ((s.byteOffset offset).toNat - 1)) ∧
        s.tokenAt? offset = none ∨
      0 < (s.byteOffset offset).toNat ∧ s.IsCovered ((s.byteOffset offset).toNat - 1) ∧
        s.tokenAt? offset = some (s.deepestAt ((s.byteOffset offset).toNat - 1)) := by
  have hroot := (isRoot_deepestAt_iff h).mpr hbare
  unfold tokenAt?
  rw [if_neg (by omega)]
  dsimp only
  rw [hroot, if_neg (by decide)]
  split
  · next hzero => exact .inl ⟨.inl hzero, rfl⟩
  · next hpos =>
    split
    · next hleft => exact .inl ⟨.inr ((isRoot_deepestAt_iff h).mp hleft), rfl⟩
    · next hleft =>
      refine .inr ⟨Nat.pos_of_ne_zero hpos, Classical.not_not.mp fun hnone => ?_, rfl⟩
      exact hleft ((isRoot_deepestAt_iff h).mpr hnone)

end

/-- In a tree with nested ranges, let `b` be the byte at a position.

* There is no token if the position is not one of the text, or if nothing but the root is at `b` and
  at the byte before it.
* Otherwise the token is the deepest node at `b`, or the deepest node at the byte before where
  nothing but the root is at `b`. -/
theorem tokenAt?_is_deepest (h : s.root.NestsBelow) (offset : Int) :
    let b := (s.byteOffset offset).toNat
    (s.tokenAt? offset = none ↔ offset < 0 ∨ (s.text.length : Int) < offset ∨
      ¬s.IsCovered b ∧ (b = 0 ∨ ¬s.IsCovered (b - 1))) ∧
    (0 ≤ offset → offset ≤ s.text.length → s.IsCovered b →
      ∀ f, s.tokenAt? offset = some f ↔ f.IsDeepestAt s.root b) ∧
    (0 ≤ offset → offset ≤ s.text.length → ¬s.IsCovered b → 0 < b → s.IsCovered (b - 1) →
      ∀ f, s.tokenAt? offset = some f ↔ f.IsDeepestAt s.root (b - 1)) := by
  intro b
  refine ⟨⟨fun hnone => ?_, fun hnone => ?_⟩, fun hlo hhi hcovered f => ?_,
    fun hlo hhi hbare hpos hleft f => ?_⟩
  · rcases Int.lt_or_le offset 0 with hneg | hlo
    · exact .inl hneg
    rcases Int.lt_or_le s.text.length offset with hlong | hhi
    · exact .inr (.inl hlong)
    have hbare : ¬s.IsCovered b := fun hcovered =>
      nomatch hnone.symm.trans (tokenAt?_of_isCovered h hlo hhi hcovered)
    rcases tokenAt?_of_not_isCovered h hlo hhi hbare with ⟨hleft, -⟩ | ⟨-, -, hsome⟩
    · exact .inr (.inr ⟨hbare, hleft⟩)
    · exact nomatch hnone.symm.trans hsome
  · rcases Int.lt_or_le offset 0 with hneg | hlo
    · exact if_pos (.inl hneg)
    rcases Int.lt_or_le s.text.length offset with hlong | hhi
    · exact if_pos (.inr hlong)
    obtain ⟨hbare, hleft⟩ := (hnone.resolve_left (by omega)).resolve_left (by omega)
    rcases tokenAt?_of_not_isCovered h hlo hhi hbare with ⟨-, hnone⟩ | ⟨hpos, hcovered, -⟩
    · exact hnone
    · exact absurd hcovered (hleft.resolve_left (Nat.ne_of_gt hpos))
  · rw [tokenAt?_of_isCovered h hlo hhi hcovered, Option.some.injEq]
    exact eq_deepestAt_iff h hcovered
  · rcases tokenAt?_of_not_isCovered h hlo hhi hbare with ⟨hnone, -⟩ | ⟨-, -, hsome⟩
    · exact absurd hleft (hnone.resolve_left (Nat.ne_of_gt hpos))
    · rw [hsome, Option.some.injEq]
      exact eq_deepestAt_iff h hleft

/-- The source `é b` with its two names, the first of which is alone in its statement. -/
def twoNames : Source where
  text := "é b".toList
  root :=
    .node ⟨.other "program", 0, 4, true, none⟩
      [.node ⟨.other "expression_statement", 0, 2, true, none⟩
        [.node ⟨.identifier, 0, 2, true, none⟩ []],
      .node ⟨.identifier, 3, 4, true, none⟩ []]

theorem nestsBelow_twoNames : twoNames.root.NestsBelow := by
  have hall : ∀ f ∈ Focus.preorder twoNames.root, f.here.Nests := by decide +kernel
  intro node hnode
  obtain ⟨f, hf, rfl⟩ := Focus.exists_preorder_iff.mpr hnode
  exact hall f hf

/-- Between the names of `é b` only the root is at the byte, and the byte before is the second one
of the letter: the token is the name to the left, and not its statement. -/
theorem name_left_of_blank :
    ¬twoNames.IsCovered 2 ∧ twoNames.IsCovered 1 ∧
      ∃ f, twoNames.tokenAt? 1 = some f ∧ f.IsDeepestAt twoNames.root 1 ∧
        f.here.kind = .identifier := by
  have hbare : ¬twoNames.IsCovered 2 :=
    (isRoot_deepestAt_iff nestsBelow_twoNames).mp (by decide +kernel)
  have hleft : twoNames.IsCovered 1 := Classical.not_not.mp fun hnone =>
    absurd ((isRoot_deepestAt_iff nestsBelow_twoNames).mpr hnone) (by decide +kernel)
  have hbyte : (twoNames.byteOffset 1).toNat = 2 := by decide +kernel
  have hkind : (twoNames.tokenAt? 1).map (·.here.kind) = some .identifier := by decide +kernel
  obtain ⟨f, hf, hkind⟩ := Option.map_eq_some_iff.mp hkind
  obtain ⟨-, -, hgap⟩ := tokenAt?_is_deepest nestsBelow_twoNames 1
  rw [hbyte] at hgap
  have hdeepest := (hgap (by decide) (by decide) hbare (by decide) hleft f).mp hf
  exact ⟨hbare, hleft, f, hf, hdeepest, hkind⟩

end Source

end ChainGuard
