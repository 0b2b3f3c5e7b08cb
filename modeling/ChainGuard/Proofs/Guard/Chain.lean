import ChainGuard.Proofs.Guard

/-!
# Guards below `new` and below templates

TypeScript takes no optional chain as the operand of `new` or as the tag of a template. Both concern
a whole chain: from a node of it the way up leads over the accesses built on it, for a tag over the
assertions around it as well, to the `new` or to the template.

The rules see less than that. For `new` only the parent of an invocation is looked at, and the climb
to a template ends at the first assertion. Everywhere else on these chains a node is guarded as if
the `new` or the template were a pair of parentheses.

1. `Source.guard?_congr`: all that a guard takes from the ancestors of a node.
2. `Focus.tagsTemplate_iff`: the climb to a template. `Focus.writtenUnder_inParentheses`: the same
   writes with parentheses in the place of an ancestor.
3. `Source.guard?_inParentheses`: the same guard.
   Main statements: `Source.operands_guarded_unless_invoked`, `Source.tags_stay_unless_asserted`.
-/

namespace ChainGuard

/-! ## 1. What a guard takes from the ancestors -/

namespace Focus

/-- The parent is a `new` expression. -/
def isUnderNew (f : Focus) : Bool :=
  f.parent?.any fun p => p.here.kind == .newExpression

end Focus

namespace Source

/-- The guard of a node depends on the node, and on its ancestors only in three respects. -/
theorem guard?_congr {s : Source} {here : Tree} {above above' : List Above}
    (hwritten : (Focus.mk here above).isWritten = (Focus.mk here above').isWritten)
    (htag : (Focus.mk here above).isTemplateTag = (Focus.mk here above').isTemplateTag)
    (hnew : here.shape = .invocation →
      (Focus.mk here above).isUnderNew = (Focus.mk here above').isUnderNew) :
    s.guard? ⟨here, above⟩ = s.guard? ⟨here, above'⟩ := by
  unfold guard?
  rw [hwritten, htag]
  dsimp only
  cases hbase : here.base? with
  | none => rfl
  | some base =>
    dsimp only
    split
    · rfl
    · cases hshape : here.shape with
      | memberAccess => rfl
      | indexedAccess => rfl
      | other => rfl
      | invocation =>
        have hnew := hnew hshape
        unfold Focus.isUnderNew at hnew
        dsimp only
        unfold guardInvocation?
        rw [hnew]

theorem guard?_of_isTemplateTag {s : Source} {f : Focus} (h : f.isTemplateTag = true) :
    s.guard? f = none := by
  rw [Option.eq_none_iff_forall_ne_some]
  intro e he
  obtain ⟨_, _, _, _, _, htag, _⟩ := guard?_guarding he
  rw [h] at htag
  cases htag

theorem guard?_of_isUnderNew {s : Source} {f : Focus} (hshape : f.here.shape = .invocation)
    (h : f.isUnderNew = true) : s.guard? f = none := by
  rw [Option.eq_none_iff_forall_ne_some]
  intro e he
  obtain ⟨_, _, _, _, _, _, guarding⟩ := guard?_guarding he
  cases guarding with
  | member shape => exact nomatch hshape.symm.trans shape
  | indexed shape => exact nomatch hshape.symm.trans shape
  | invocation _ not_new _ _ =>
    rw [Focus.isUnderNew, not_new] at h
    cases h

end Source

/-! ## 2. Climbing -/

namespace Above

variable {p : Above}

theorem isAccess_of_isBuiltOn (h : p.isBuiltOn = true) : p.tree.isAccess = true := by
  rw [isBuiltOn, Bool.and_eq_true] at h
  exact h.1

theorem isTaggedTemplate_of_isBuiltOn (h : p.isBuiltOn = true) :
    p.tree.isTaggedTemplate = false := by
  have haccess := isAccess_of_isBuiltOn h
  rw [Bool.eq_false_iff]
  intro htagged
  rw [Tree.isAccess, Tree.shape, if_pos htagged] at haccess
  cases haccess

/-- The parent tags a template with the child below. -/
def isTagged (p : Above) : Bool :=
  p.tree.isTaggedTemplate && p.tree.fieldIndex? .function == some p.index

def inParentheses : Above → Above
  | ⟨.node l cs, i⟩ => ⟨.node { l with kind := .parenthesizedExpression } cs, i⟩

@[simp]
theorem kind_inParentheses (p : Above) :
    p.inParentheses.tree.kind = .parenthesizedExpression := by
  obtain ⟨⟨l, cs⟩, i⟩ := p
  rfl

@[simp]
theorem start_inParentheses (p : Above) : p.inParentheses.tree.start = p.tree.start := by
  obtain ⟨⟨l, cs⟩, i⟩ := p
  rfl

@[simp]
theorem stop_inParentheses (p : Above) : p.inParentheses.tree.stop = p.tree.stop := by
  obtain ⟨⟨l, cs⟩, i⟩ := p
  rfl

end Above

namespace Focus

variable {links rest : List Above} {p top : Above}

/-- The climb passes the accesses of a chain. -/
theorem tagsTemplate_append (hlinks : ∀ link ∈ links, link.isBuiltOn = true) :
    tagsTemplate (links ++ rest) = tagsTemplate rest := by
  induction links with
  | nil => rfl
  | cons link links ih =>
    have hlink := hlinks link List.mem_cons_self
    rw [List.cons_append, tagsTemplate, Above.isTaggedTemplate_of_isBuiltOn hlink,
      if_neg Bool.false_ne_true, if_pos hlink]
    exact ih fun other hother => hlinks other (List.mem_cons_of_mem link hother)

/-- The climb ends at a node that has no base. -/
theorem tagsTemplate_of_baseField? (h : p.tree.baseField? = none) :
    tagsTemplate (p :: rest) = false := by
  have hcall : p.tree.kind ≠ .callExpression := by
    intro hkind
    rw [Tree.baseField?, hkind] at h
    cases h
  have htagged : p.tree.isTaggedTemplate = false := by
    rw [Tree.isTaggedTemplate, beq_false_of_ne hcall, Bool.false_and]
  have hbuilt : p.isBuiltOn = false := by
    rw [Above.isBuiltOn, Tree.baseIndex?, h]
    exact Bool.and_false _
  rw [tagsTemplate, htagged, if_neg Bool.false_ne_true, hbuilt, if_neg Bool.false_ne_true]

/-- The climb reaches a template exactly if only accesses lie between the node and the tag. -/
theorem tagsTemplate_iff {above : List Above} :
    tagsTemplate above = true ↔ ∃ links tag rest, above = links ++ tag :: rest ∧
      (∀ link ∈ links, link.isBuiltOn = true) ∧ tag.isTagged = true := by
  constructor
  · intro h
    induction above with
    | nil => cases h
    | cons p above ih =>
      rw [tagsTemplate] at h
      split at h
      · next htagged =>
        exact ⟨[], p, above, rfl, nofun, by rw [Above.isTagged, htagged, h]; rfl⟩
      · split at h
        · next hbuilt =>
          obtain ⟨links, tag, rest, rfl, hlinks, htag⟩ := ih h
          exact ⟨p :: links, tag, rest, rfl, List.forall_mem_cons.mpr ⟨hbuilt, hlinks⟩, htag⟩
        · cases h
  · rintro ⟨links, tag, rest, rfl, hlinks, htag⟩
    rw [Above.isTagged, Bool.and_eq_true] at htag
    rw [tagsTemplate_append hlinks, tagsTemplate, if_pos htag.1]
    exact htag.2

/-- An assertion on the way ends the climb, whatever stands above it. -/
theorem tagsTemplate_of_assertion
    (hlinks : ∀ link ∈ links, link.isBuiltOn = true ∨ link.tree.kind = .nonNullExpression)
    (hassertion : ∃ link ∈ links, link.tree.kind = .nonNullExpression) :
    tagsTemplate (links ++ rest) = false := by
  induction links with
  | nil =>
    obtain ⟨_, hmem, _⟩ := hassertion
    cases hmem
  | cons link links ih =>
    rcases hlinks link List.mem_cons_self with hbuilt | hkind
    · rw [List.cons_append, ← List.singleton_append, tagsTemplate_append (by simpa using hbuilt)]
      refine ih (fun other hother => hlinks other (List.mem_cons_of_mem link hother)) ?_
      obtain ⟨other, hmem, hother⟩ := hassertion
      rcases List.mem_cons.mp hmem with rfl | hmem
      · have haccess := Above.isAccess_of_isBuiltOn hbuilt
        unfold Tree.isAccess Tree.shape at haccess
        rw [hother] at haccess
        split at haccess <;> cases haccess
      · exact ⟨other, hmem, hother⟩
    · exact tagsTemplate_of_baseField? (by rw [Tree.baseField?, hkind])

/-- Whether a node is written to depends on its range only. -/
theorem writtenUnder_congr {t t' : Tree} (hstart : t.start = t'.start) (hstop : t.stop = t'.stop)
    (above : List Above) : writtenUnder t above = writtenUnder t' above := by
  cases above with
  | nil => rfl
  | cons p rest =>
    rw [writtenUnder, writtenUnder]
    congr 1
    unfold Tree.writtenBy Tree.within
    rw [hstart, hstop]

/-- Parentheses in the place of an ancestor that writes to nothing change no targets of writes. -/
theorem writtenUnder_inParentheses {t : Tree} (htop : top.tree.writeTarget? = none) :
    writtenUnder t (links ++ top :: rest) =
      writtenUnder t (links ++ top.inParentheses :: rest) := by
  induction links generalizing t with
  | nil =>
    have hparentheses : top.inParentheses.tree.writeTarget? = none := by
      rw [Tree.writeTarget?, Above.kind_inParentheses]
    rw [List.nil_append, List.nil_append, writtenUnder, writtenUnder, Tree.writtenBy,
      Tree.writtenBy, htop, hparentheses]
    exact writtenUnder_congr top.start_inParentheses.symm top.stop_inParentheses.symm rest
  | cons link links ih => rw [List.cons_append, List.cons_append, writtenUnder, writtenUnder, ih]

theorem tagsTemplate_inParentheses : tagsTemplate (top.inParentheses :: rest) = false :=
  tagsTemplate_of_baseField? (by rw [Tree.baseField?, Above.kind_inParentheses])

end Focus

/-! ## 3. Operands and tags -/

namespace Source

/-- Parentheses in the place of an ancestor leave the guard as it is, if the ancestor writes to
nothing, makes no difference for the climb to a template, and is not the `new` of an invocation. -/
theorem guard?_inParentheses {s : Source} {here : Tree} {links rest : List Above} {top : Above}
    (hwrites : top.tree.writeTarget? = none)
    (htag : Focus.tagsTemplate (links ++ top :: rest) =
      Focus.tagsTemplate (links ++ top.inParentheses :: rest))
    (hnew : links = [] → here.shape = .invocation → top.tree.kind ≠ .newExpression) :
    s.guard? ⟨here, links ++ top :: rest⟩ =
      s.guard? ⟨here, links ++ top.inParentheses :: rest⟩ := by
  refine guard?_congr (Focus.writtenUnder_inParentheses hwrites) htag fun hshape => ?_
  cases links with
  | nil =>
    have hparentheses : top.inParentheses.tree.kind ≠ .newExpression := by
      rw [Above.kind_inParentheses]
      nofun
    exact (beq_false_of_ne (hnew rfl hshape)).trans (beq_false_of_ne hparentheses).symm
  | cons link links => rfl

/-- On the chain that is the operand of `new`, an invocation right below `new` gets no guard, and
every other node the one that it has when the chain stands in parentheses instead. -/
theorem operands_guarded_unless_invoked {s : Source} {here : Tree} {links rest : List Above}
    {top : Above} (hlinks : ∀ link ∈ links, link.isBuiltOn = true)
    (hnew : top.tree.kind = .newExpression) :
    (links = [] → here.shape = .invocation → s.guard? ⟨here, links ++ top :: rest⟩ = none) ∧
      (¬(links = [] ∧ here.shape = .invocation) →
        s.guard? ⟨here, links ++ top :: rest⟩ =
          s.guard? ⟨here, links ++ top.inParentheses :: rest⟩) := by
  constructor
  · rintro rfl hshape
    exact guard?_of_isUnderNew hshape (beq_iff_eq.mpr hnew)
  · intro hother
    refine guard?_inParentheses (by rw [Tree.writeTarget?, hnew]) ?_ fun hlinks hshape =>
      absurd ⟨hlinks, hshape⟩ hother
    rw [Focus.tagsTemplate_append hlinks, Focus.tagsTemplate_append hlinks,
      Focus.tagsTemplate_inParentheses]
    exact Focus.tagsTemplate_of_baseField? (by rw [Tree.baseField?, hnew])

namespace ChainLemmas

/-- The access `a.b` in `new a.b.c()`. -/
def operandStart : Tree :=
  .node ⟨.memberExpression, 4, 7, true, some .object⟩
    [.node ⟨.identifier, 4, 5, true, some .object⟩ [], .node ⟨.other ".", 5, 6, false, none⟩ [],
      .node ⟨.other "property_identifier", 6, 7, true, some .property⟩ []]

/-- The operand `a.b.c` in `new a.b.c()`. -/
def operand : Tree :=
  .node ⟨.memberExpression, 4, 9, true, none⟩
    [operandStart, .node ⟨.other ".", 7, 8, false, none⟩ [],
      .node ⟨.other "property_identifier", 8, 9, true, some .property⟩ []]

/-- The expression `new a.b.c()`. -/
def creation : Tree :=
  .node ⟨.newExpression, 0, 11, true, none⟩
    [.node ⟨.other "new", 0, 3, false, none⟩ [], operand,
      .node ⟨.other "arguments", 9, 11, true, none⟩ []]

def creationSource : Source where
  text := "new a.b.c()".toList
  root := .node ⟨.other "program", 0, 11, true, none⟩ [creation]

end ChainLemmas

open ChainLemmas in
/-- In `new a.b.c()` the access `a.b` is guarded as it is in parentheses. -/
theorem operand_start_is_guarded :
    let rest : List Above := [⟨creationSource.root, 0⟩]
    creationSource.guard? ⟨operandStart, ⟨operand, 0⟩ :: ⟨creation, 1⟩ :: rest⟩ =
      some (.replaceByMarker 5) := by
  intro rest
  have hlinks : ∀ link ∈ [(⟨operand, 0⟩ : Above)], link.isBuiltOn = true := by decide
  calc creationSource.guard? ⟨operandStart, [⟨operand, 0⟩] ++ ⟨creation, 1⟩ :: rest⟩
      = creationSource.guard?
          ⟨operandStart, [⟨operand, 0⟩] ++ Above.inParentheses ⟨creation, 1⟩ :: rest⟩ :=
        (operands_guarded_unless_invoked hlinks rfl).2 (by decide)
    _ = some (.replaceByMarker 5) := by decide +kernel

/-- On the chain that a template is tagged with, a node gets no guard if no assertion stands between
it and the tag. Otherwise it gets the one that it has when the chain stands in parentheses
instead. -/
theorem tags_stay_unless_asserted {s : Source} {here : Tree} {links rest : List Above}
    {tag : Above}
    (hlinks : ∀ link ∈ links, link.isBuiltOn = true ∨ link.tree.kind = .nonNullExpression)
    (htag : tag.isTagged = true) :
    ((∀ link ∈ links, link.tree.kind ≠ .nonNullExpression) →
        s.guard? ⟨here, links ++ tag :: rest⟩ = none) ∧
      ((∃ link ∈ links, link.tree.kind = .nonNullExpression) →
        s.guard? ⟨here, links ++ tag :: rest⟩ =
          s.guard? ⟨here, links ++ tag.inParentheses :: rest⟩) := by
  constructor
  · intro hplain
    refine guard?_of_isTemplateTag (Focus.tagsTemplate_iff.mpr ⟨links, tag, rest, rfl, ?_, htag⟩)
    exact fun link hlink => (hlinks link hlink).resolve_right (hplain link hlink)
  · intro hassertion
    have hkind : tag.tree.kind = .callExpression := by
      rw [Above.isTagged, Tree.isTaggedTemplate, Bool.and_eq_true, Bool.and_eq_true] at htag
      exact beq_iff_eq.mp htag.1.1
    refine guard?_inParentheses (by rw [Tree.writeTarget?, hkind]) ?_ fun _ _ => by
      rw [hkind]
      nofun
    rw [Focus.tagsTemplate_of_assertion hlinks hassertion,
      Focus.tagsTemplate_of_assertion hlinks hassertion]

namespace ChainLemmas

/-- The access `o.a` in `o.a!.t` with a template. -/
def assertedAccess : Tree :=
  .node ⟨.memberExpression, 0, 3, true, none⟩
    [.node ⟨.identifier, 0, 1, true, some .object⟩ [], .node ⟨.other ".", 1, 2, false, none⟩ [],
      .node ⟨.other "property_identifier", 2, 3, true, some .property⟩ []]

/-- The assertion `o.a!` in `o.a!.t` with a template. -/
def assertion : Tree :=
  .node ⟨.nonNullExpression, 0, 4, true, some .object⟩
    [assertedAccess, .node ⟨.other "!", 3, 4, false, none⟩ []]

def tag : Tree :=
  .node ⟨.memberExpression, 0, 6, true, some .function⟩
    [assertion, .node ⟨.other ".", 4, 5, false, none⟩ [],
      .node ⟨.other "property_identifier", 5, 6, true, some .property⟩ []]

def tagged : Tree :=
  .node ⟨.callExpression, 0, 9, true, none⟩
    [tag, .node ⟨.templateString, 6, 9, true, some .arguments⟩ []]

def taggedSource : Source where
  text := "o.a!.t`x`".toList
  root := .node ⟨.other "program", 0, 9, true, none⟩ [tagged]

end ChainLemmas

open ChainLemmas in
/-- In the tag `o.a!.t` the whole access stays, and `o.a` is guarded as it is in parentheses. -/
theorem asserted_access_is_guarded :
    let rest : List Above := [⟨taggedSource.root, 0⟩]
    taggedSource.guard? ⟨tag, ⟨tagged, 0⟩ :: rest⟩ = none ∧
      taggedSource.guard? ⟨assertedAccess, ⟨assertion, 0⟩ :: ⟨tag, 0⟩ :: ⟨tagged, 0⟩ :: rest⟩ =
        some (.replaceByMarker 1) := by
  intro rest
  have htag : (⟨tagged, 0⟩ : Above).isTagged = true := by decide
  have hlinks : ∀ link ∈ [(⟨assertion, 0⟩ : Above), ⟨tag, 0⟩],
      link.isBuiltOn = true ∨ link.tree.kind = .nonNullExpression := by
    decide
  constructor
  · show taggedSource.guard? ⟨tag, [] ++ ⟨tagged, 0⟩ :: rest⟩ = none
    exact (tags_stay_unless_asserted (by nofun) htag).1 (by nofun)
  · calc taggedSource.guard? ⟨assertedAccess, [⟨assertion, 0⟩, ⟨tag, 0⟩] ++ ⟨tagged, 0⟩ :: rest⟩
        = taggedSource.guard? ⟨assertedAccess,
            [⟨assertion, 0⟩, ⟨tag, 0⟩] ++ Above.inParentheses ⟨tagged, 0⟩ :: rest⟩ :=
          (tags_stay_unless_asserted hlinks htag).2 ⟨⟨assertion, 0⟩, .head _, rfl⟩
      _ = some (.replaceByMarker 1) := by decide +kernel

end Source

end ChainGuard
