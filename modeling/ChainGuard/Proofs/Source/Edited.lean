import ChainGuard.Proofs.Edit.Batch
import ChainGuard.Proofs.Guard.Start
import ChainGuard.Proofs.Source.Characters

/-!
# Guarded sites stay as they are

A batch of guards changes the text, and the ranges of the tree move along. A node that got one of
the guards gets none in the new source: each form of access finds its own marker again, wherever
the other guards of the batch have pushed it, and even if the character that it looked for stood in
a comment.

1. `Source.edited`: the source after a batch, with the same tree but for the ranges.
2. `Source.startOf_edited`, `Source.stopOf_edited`: its nodes start and stop where the batch has
   moved the positions of the old ones.
3. `Source.guard?_edited`: a guarded node gets no second guard.
   Main statement: `Source.edited_sites_stay`.
-/

namespace ChainGuard.Source

/-! ## 1. Sources after a batch -/

/-- Where a node starts after a batch that counts characters, in bytes. Whatever a guard adds has
one byte a character. -/
def movedStart (s : Source) (es : List Edit) (byte : Nat) : Nat :=
  byte + Edit.growthOf (es.filter fun e => e.stop ≤ s.charAt byte)

/-- Where a node stops after a batch that counts characters, in bytes. -/
def movedStop (s : Source) (es : List Edit) (byte : Nat) : Nat :=
  byte + Edit.growthOf (es.filter fun e => e.start < s.charAt byte)

/-- The source after a batch. -/
def edited (s : Source) (es : List Edit) : Source where
  text := Edit.applyAll s.text es
  root := s.root.mapRanges (s.movedStart es) (s.movedStop es)

/-- All nodes of the tree start and stop between characters of the text. -/
def OnBoundaries (s : Source) : Prop :=
  ∀ node : Tree, node.Below s.root → s.text.IsBoundary node.start ∧ s.text.IsBoundary node.stop

/-- The guards of the given nodes, each of them once. -/
def guardsOf (s : Source) (nodes : List Focus) : List Edit :=
  Edit.distinct (nodes.filterMap s.guard?)

theorem mem_guardsOf {s : Source} {nodes : List Focus} {e : Edit} :
    e ∈ s.guardsOf nodes ↔ ∃ f ∈ nodes, s.guard? f = some e := by
  rw [guardsOf, Edit.mem_distinct, List.mem_filterMap]

/-! ## 2. Positions -/

/-- A boundary is the end of a beginning of the text. -/
theorem charAt_utf8Length_take {s : Source} {byte : Nat} (h : s.text.IsBoundary byte) :
    s.charAt byte ≤ s.text.length ∧ Text.utf8Length (s.text.take (s.charAt byte)) = byte := by
  obtain ⟨k, hk, rfl⟩ := h
  rw [charAt_of_isBoundary ⟨k, hk, rfl⟩, Text.wholeChars_utf8Length_take hk]
  exact ⟨hk, rfl⟩

section

variable {s : Source} {es : List Edit}

theorem charAt_edited (h : Edit.IsBatch s.text es) {byte : Nat} (hbyte : s.text.IsBoundary byte)
    {before : Edit → Bool} (hbefore : ∀ e ∈ es, before e = true → e.stop ≤ s.charAt byte)
    (hbehind : ∀ e ∈ es, before e = false → s.charAt byte ≤ e.start) :
    (s.edited es).charAt (byte + Edit.growthOf (es.filter before)) =
      s.charAt byte + Edit.growthOf (es.filter before) := by
  obtain ⟨hle, htake⟩ := charAt_utf8Length_take hbyte
  obtain ⟨a, b, happend, hchars, hbytes⟩ := h.exists_applyAll_eq_append hle hbefore hbehind
  rw [htake] at hbytes
  rw [← hbytes, ← hchars]
  exact charAt_utf8Length happend

theorem startOf_edited (h : Edit.IsBatch s.text es) (hbounds : s.OnBoundaries) {t : Tree}
    (ht : t.Below s.root) :
    (s.edited es).startOf (t.mapRanges (s.movedStart es) (s.movedStop es)) =
      Edit.movedStart es (s.startOf t) := by
  rw [startOf, Tree.start_mapRanges]
  refine charAt_edited h (hbounds t ht).1 (fun e _ hstop => by simpa using hstop)
    fun e he hstop => ?_
  have hnarrow := (h.guards e he).stop_le
  simp only [decide_eq_false_iff_not] at hstop
  omega

theorem stopOf_edited (h : Edit.IsBatch s.text es) (hbounds : s.OnBoundaries) {t : Tree}
    (ht : t.Below s.root) :
    (s.edited es).stopOf (t.mapRanges (s.movedStart es) (s.movedStop es)) =
      Edit.movedStop es (s.stopOf t) := by
  rw [stopOf, Tree.stop_mapRanges]
  refine charAt_edited h (hbounds t ht).2 (fun e he hstart => ?_) fun e _ hstart => ?_
  · have hnarrow := (h.guards e he).stop_le
    simp only [decide_eq_true_eq] at hstart
    omega
  · simpa using hstart

/-! ## 3. Guards -/

theorem marker_edited (h : Edit.IsBatch s.text es) {e : Edit} (he : e ∈ es) :
    (s.edited es).text[Edit.movedStop es e.start]? = some '?' ∧
      (s.edited es).text[Edit.movedStop es e.start + 1]? = some '.' :=
  ⟨h.getElem?_applyAll.mpr (.put (i := 0) he rfl), h.getElem?_applyAll.mpr (.put (i := 1) he rfl)⟩

/-- A dot of the new text is an old one that is not replaced, or stands behind a question mark. -/
theorem dot_edited (h : Edit.IsBatch s.text es) {q : Nat}
    (hq : (s.edited es).text[q]? = some '.') :
    (∃ p, s.text[p]? = some '.' ∧ Edit.replaceByMarker p ∉ es ∧ q = Edit.movedStart es p) ∨
      (0 < q ∧ (s.edited es).text.slice (q - 1) (q + 1) = Text.marker) := by
  cases h.getElem?_applyAll.mp hq with
  | @kept p _ found free =>
    refine .inl ⟨p, found, fun hmem => ?_, rfl⟩
    have hfree := free _ hmem
    simp only [Edit.replaceByMarker] at hfree
    omega
  | @put e i _ mem found =>
    obtain rfl : i = 1 := by
      rcases i with _ | _ | i
      · cases found
      · rfl
      · cases found
    obtain ⟨hquestion, hdot⟩ := marker_edited h mem
    exact .inr ⟨Nat.succ_pos _, Text.slice_eq_marker hquestion hdot⟩

/-- A bracket of the new text is an old one. -/
theorem bracket_edited (h : Edit.IsBatch s.text es) {q : Nat}
    (hq : (s.edited es).text[q]? = some '[') :
    ∃ p, s.text[p]? = some '[' ∧ q = Edit.movedStart es p := by
  cases h.getElem?_applyAll.mp hq with
  | @kept p _ found _ => exact ⟨p, found, rfl⟩
  | @put e i _ mem found =>
    rcases i with _ | _ | i
    · cases found
    · cases found
    · cases found

theorem bracket_stays (h : Edit.IsBatch s.text es) {p : Nat} (hp : s.text[p]? = some '[') :
    (s.edited es).text[Edit.movedStart es p]? = some '[' := by
  refine h.getElem?_applyAll.mpr (.kept hp fun e he => ?_)
  cases h.guards e he with
  | insert pos => exact (Nat.lt_or_ge p pos).symm
  | @replace pos c found mem =>
    have hne : pos ≠ p := by
      rintro rfl
      rw [hp] at found
      cases found
      exact absurd mem (by decide)
    simp only [Edit.replaceByMarker]
    omega

/-- The last dot in front of `hi` belongs to a marker, if a guard replaces the last one of the old
text. -/
theorem last_dot_edited (h : Edit.IsBatch s.text es) {dot hi q : Nat}
    (hmem : Edit.replaceByMarker dot ∈ es) (hdot : dot < hi)
    (last : ∀ i, dot < i → i < hi → s.text[i]? ≠ some '.') (hq : q < Edit.movedStart es hi)
    (found : (s.edited es).text[q]? = some '.')
    (last' : ∀ i, q < i → i < Edit.movedStart es hi → (s.edited es).text[i]? ≠ some '.') :
    0 < q ∧ (s.edited es).text.slice (q - 1) (q + 1) = Text.marker := by
  rcases dot_edited h found with ⟨p, hp, hkept, rfl⟩ | hmarker
  · exfalso
    have hroom : Edit.movedStop es dot + 1 < Edit.movedStart es hi := by
      have hsucc := h.movedStop_succ hmem
      have hle := h.movedStop_le_movedStart (p := dot + 1)
      have hmono : Edit.movedStart es (dot + 1) ≤ Edit.movedStart es hi :=
        Edit.movedStart_mono es hdot
      omega
    have hphi : p < hi := Nat.lt_of_not_le fun hle =>
      Nat.not_le_of_lt hq (Edit.movedStart_mono es hle)
    rcases Nat.lt_trichotomy p dot with hlt | rfl | hgt
    · have hbefore := Edit.movedStart_lt_movedStop es hlt
      exact last' _ (by omega) hroom (marker_edited h hmem).2
    · exact hkept hmem
    · exact last p hgt hphi hp
  · exact hmarker

/-- The first bracket behind `lo` stands behind a marker, if a guard puts one in front of the first
bracket of the old text. -/
theorem first_bracket_edited (h : Edit.IsBatch s.text es) {lo bracket q : Nat}
    (hmem : Edit.insertMarker bracket ∈ es) (hlo : lo ≤ bracket)
    (found : s.text[bracket]? = some '[')
    (first : ∀ i, lo ≤ i → i < bracket → s.text[i]? ≠ some '[') (hq : Edit.movedStop es lo ≤ q)
    (found' : (s.edited es).text[q]? = some '[')
    (first' : ∀ i, Edit.movedStop es lo ≤ i → i < q → (s.edited es).text[i]? ≠ some '[') :
    (s.edited es).text.slice (q - 2) q = Text.marker := by
  have hsplit := h.movedStart_eq_of_insertMarker hmem
  have hmono := Edit.movedStop_mono es hlo
  obtain ⟨p, hp, rfl⟩ := bracket_edited h found'
  rcases Nat.lt_trichotomy p bracket with hlt | rfl | hgt
  · have hlop : lo ≤ p := Nat.le_of_not_lt fun hplo =>
      Nat.not_le_of_lt (Edit.movedStart_lt_movedStop es hplo) hq
    exact absurd hp (first p hlop hlt)
  · obtain ⟨hquestion, hdot⟩ := marker_edited h hmem
    rw [hsplit]
    exact Text.slice_eq_marker hquestion hdot
  · have hbefore := Edit.movedStart_lt_movedStop es hgt
    have hle := h.movedStop_le_movedStart (p := p)
    exact absurd (bracket_stays h found) (first' _ (by omega) (by omega))

/-- A node with a guard of the batch gets none in the new source. -/
theorem guard?_edited (h : Edit.IsBatch s.text es) (hbounds : s.OnBoundaries) {f : Focus}
    (hf : f.IsIn s.root) {e : Edit} (he : s.guard? f = some e) (hmem : e ∈ es) :
    (s.edited es).guard? (f.mapRanges (s.movedStart es) (s.movedStop es)) = none := by
  rw [Option.eq_none_iff_forall_ne_some]
  intro e' he'
  obtain ⟨base, hbase, -, -, -, -, guarding⟩ := guard?_guarding he
  obtain ⟨base', hbase', -, -, -, -, guarding'⟩ := guard?_guarding he'
  have hhere : f.here.Below s.root := hf.here_below
  have hbelow : base.Below s.root := by
    obtain ⟨_, _, -, -, hchild⟩ := WriteSafetyLemmas.base?_eq_some hbase
    exact hhere.of_mem_children (List.mem_of_getElem? hchild)
  rw [Focus.here_mapRanges, Tree.base?_mapRanges, hbase, Option.map_some] at hbase'
  obtain rfl := Option.some.inj hbase'
  have hstop := stopOf_edited h hbounds hbelow
  have hshape := Tree.shape_mapRanges (s.movedStart es) (s.movedStop es) f.here
  cases guarding with
  | @member property dot shape field after_base before_property found last unmarked =>
    cases guarding' with
    | indexed shape' => exact nomatch (hshape.trans shape).symm.trans shape'
    | invocation shape' => exact nomatch (hshape.trans shape).symm.trans shape'
    | member _ field' _ before_property' found' last' unmarked' =>
      have hproperty : property.Below s.root := by
        obtain ⟨_, -, hchild⟩ := WriteSafetyLemmas.field?_eq_some field
        exact hhere.of_mem_children (List.mem_of_getElem? hchild)
      rw [Focus.here_mapRanges, Tree.field?_mapRanges, field, Option.map_some] at field'
      obtain rfl := Option.some.inj field'
      rw [startOf_edited h hbounds hproperty] at before_property' last'
      exact unmarked' (last_dot_edited h hmem before_property last before_property' found' last')
  | indexed shape after_base before_end found first unmarked =>
    cases guarding' with
    | member shape' => exact nomatch (hshape.trans shape).symm.trans shape'
    | invocation shape' => exact nomatch (hshape.trans shape).symm.trans shape'
    | indexed _ after_base' _ found' first' unmarked' =>
      rw [hstop] at after_base' first'
      exact unmarked' (first_bracket_edited h hmem after_base found first after_base' found' first')
  | invocation shape not_new plain unmarked =>
    cases guarding' with
    | member shape' => exact nomatch (hshape.trans shape).symm.trans shape'
    | indexed shape' => exact nomatch (hshape.trans shape).symm.trans shape'
    | invocation _ _ _ unmarked' =>
      obtain ⟨hquestion, hdot⟩ := marker_edited h hmem
      rw [hstop] at unmarked'
      have hmarker := Text.hasMarker_slice hquestion hdot
        (Nat.sub_le (Edit.movedStop es (s.stopOf base)) 2) (Nat.le_refl _)
      exact Bool.false_ne_true (unmarked'.symm.trans hmarker)

end

/-- The guards of some nodes of the tree have different starts and lie within the text. -/
theorem isBatch_guardsOf {s : Source} (hbounds : s.OnBoundaries) (hundotted : s.CalleesUndotted)
    {nodes : List Focus} (hin : ∀ f ∈ nodes, f.IsIn s.root) :
    Edit.IsBatch s.text (s.guardsOf nodes) where
  guards e he := by
    obtain ⟨f, -, hguard⟩ := mem_guardsOf.mp he
    obtain ⟨_, _, _, _, _, _, guarding⟩ := guard?_guarding hguard
    exact guarding.isGuard
  inside e he := by
    obtain ⟨f, hf, hguard⟩ := mem_guardsOf.mp he
    obtain ⟨base, hbase, _, _, _, _, guarding⟩ := guard?_guarding hguard
    cases guarding with
    | member _ _ _ _ found _ _ => exact (List.getElem?_eq_some_iff.mp found).1
    | indexed _ _ _ found _ _ => exact Nat.le_of_lt (List.getElem?_eq_some_iff.mp found).1
    | invocation _ _ _ _ =>
      obtain ⟨_, _, -, -, hchild⟩ := WriteSafetyLemmas.base?_eq_some hbase
      have hbelow : base.Below s.root :=
        (hin f hf).here_below.of_mem_children (List.mem_of_getElem? hchild)
      exact (charAt_utf8Length_take (hbounds base hbelow).2).1
  nodup := Edit.nodup_distinct _
  apart a ha b hb hstart := by
    obtain ⟨f, hf, hguard⟩ := mem_guardsOf.mp ha
    obtain ⟨f', hf', hguard'⟩ := mem_guardsOf.mp hb
    rw [guard?_eq_guardAt hundotted (hin f hf) hguard,
      guard?_eq_guardAt hundotted (hin f' hf') hguard', hstart]

/-- After all guards of some nodes are applied together, each node that got one is a node of the new
source and gets no other. -/
theorem edited_sites_stay {s : Source} (hbounds : s.OnBoundaries) (hundotted : s.CalleesUndotted)
    {nodes : List Focus} (hin : ∀ f ∈ nodes, f.IsIn s.root) :
    ∀ f ∈ nodes, s.guard? f ≠ none →
      let es := s.guardsOf nodes
      let moved := f.mapRanges (s.movedStart es) (s.movedStop es)
      moved.IsIn (s.edited es).root ∧ (s.edited es).guard? moved = none := by
  intro f hf hguarded es moved
  obtain ⟨e, he⟩ := Option.ne_none_iff_exists'.mp hguarded
  exact ⟨(hin f hf).mapRanges _ _, guard?_edited (isBatch_guardsOf hbounds hundotted hin) hbounds
    (hin f hf) he (mem_guardsOf.mpr ⟨f, hf, he⟩)⟩

/-- The access `é[0].b()`, whose name has two bytes. -/
def threeAccesses : Source where
  text := "é[0].b();".toList
  root :=
    .node ⟨.other "program", 0, 10, true, none⟩
      [.node ⟨.callExpression, 0, 9, true, none⟩
        [.node ⟨.memberExpression, 0, 7, true, some .function⟩
          [.node ⟨.subscriptExpression, 0, 5, true, some .object⟩
            [.node ⟨.identifier, 0, 2, true, some .object⟩ [],
              .node ⟨.other "[", 2, 3, false, none⟩ [], .node ⟨.other "number", 3, 4, true, none⟩ [],
              .node ⟨.other "]", 4, 5, false, none⟩ []],
            .node ⟨.other ".", 5, 6, false, none⟩ [],
            .node ⟨.other "property_identifier", 6, 7, true, some .property⟩ []],
          .node ⟨.other "arguments", 7, 9, true, some .arguments⟩ []],
        .node ⟨.other ";", 9, 10, false, none⟩ []]

/-- The invocation, the member access and the indexed access of `é[0].b()`. -/
def threeAccessNodes : List Focus :=
  let call := (Focus.ofRoot threeAccesses.root).child? 0
  let member := call.bind (·.child? 0)
  let indexed := member.bind (·.child? 0)
  [call, member, indexed].filterMap id

theorem isIn_threeAccessNodes : ∀ f ∈ threeAccessNodes, f.IsIn threeAccesses.root := by
  intro f hf
  have hcall : ∀ f ∈ (Focus.ofRoot threeAccesses.root).child? 0, f.IsIn threeAccesses.root :=
    fun f hf => Focus.IsIn.child? .root hf
  have hchild : ∀ g? : Option Focus, (∀ f ∈ g?, f.IsIn threeAccesses.root) →
      ∀ f ∈ g?.bind (·.child? 0), f.IsIn threeAccesses.root := by
    intro g? hg f hf
    obtain ⟨g, hg?, hf⟩ := Option.bind_eq_some_iff.mp hf
    exact (hg g hg?).child? hf
  simp only [threeAccessNodes, List.mem_filterMap, id_eq, List.mem_cons, List.not_mem_nil,
    or_false] at hf
  obtain ⟨f?, rfl | rfl | rfl, hf⟩ := hf
  · exact hcall f hf
  · exact hchild _ hcall f hf
  · exact hchild _ (hchild _ hcall) f hf

theorem onBoundaries_threeAccesses : threeAccesses.OnBoundaries := by
  have hall : ∀ f ∈ Focus.preorder threeAccesses.root,
      threeAccesses.text.IsBoundary f.here.start ∧ threeAccesses.text.IsBoundary f.here.stop := by
    decide +kernel
  intro node hnode
  obtain ⟨f, hf, rfl⟩ := Focus.exists_preorder_iff.mpr hnode
  exact hall f hf

/-- All three accesses of `é[0].b()` are guarded, and none of them is guarded again. -/
theorem three_accesses_stay :
    let es := threeAccesses.guardsOf threeAccessNodes
    (threeAccesses.edited es).text = "é?.[0]?.b?.();".toList ∧
    ∀ f ∈ threeAccessNodes, (threeAccesses.edited es).guard?
      (f.mapRanges (threeAccesses.movedStart es) (threeAccesses.movedStop es)) = none := by
  intro es
  have hundotted : threeAccesses.CalleesUndotted := calleesUndotted_of_preorder (by decide +kernel)
  have hguarded : ∀ f ∈ threeAccessNodes, threeAccesses.guard? f ≠ none := by decide +kernel
  have hes : es = [.insertMarker 6, .replaceByMarker 4, .insertMarker 1] := by decide +kernel
  have hsorted : Edit.rightToLeft es = es :=
    List.mergeSort_of_pairwise (by rw [hes]; decide)
  refine ⟨?_, fun f hf => ?_⟩
  · show Edit.applyAll threeAccesses.text es = _
    rw [Edit.applyAll, hsorted, hes]
    decide
  · exact (edited_sites_stay onBoundaries_threeAccesses hundotted isIn_threeAccessNodes f hf
      (hguarded f hf)).2

end ChainGuard.Source
