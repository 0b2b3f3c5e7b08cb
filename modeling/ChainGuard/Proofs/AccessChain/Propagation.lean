import ChainGuard.Proofs.AccessChain.Guard
import ChainGuard.Proofs.Pass

/-!
# Propagation of the marker along a chain

Any number of diagnostics on the names of a chain guard exactly the segments they ask for, as far as
these are guardable. The edits of a pass are found in the text as it was, and they are applied from
right to left, so that guarding a segment leaves the text in front of it as it was.

1. `AccessChain.guard`: which parts of a chain a guard leaves alone.
2. `apply_edit`, `foldl_edits`: the edits of segments guard the segments.
3. `AccessChain.pass_guards_targets`: the propagation law.
-/

namespace ChainGuard

/-! ## 1. Guarded chains -/

theorem Segment.guarded_guarded (s : Segment) : s.guarded.guarded = s.guarded := by
  cases s <;> rfl

namespace AccessChain

theorem getElem?_guard (c : AccessChain) (ks : List Nat) (i : Nat) :
    (c.guard ks).segments[i]? = c.segments[i]?.map fun s => if i ∈ ks then s.guarded else s :=
  List.getElem?_mapIdx

theorem getElem?_guard_of_not_mem {c : AccessChain} {ks : List Nat} {i : Nat} (h : i ∉ ks) :
    (c.guard ks).segments[i]? = c.segments[i]? := by
  simp [getElem?_guard, h]

theorem guard_congr {c : AccessChain} {ks js : List Nat} (h : ∀ i, i ∈ ks ↔ i ∈ js) :
    c.guard ks = c.guard js := by
  simp only [guard, h]

theorem guard_nil (c : AccessChain) : c.guard [] = c := by
  have hsegments : (c.guard []).segments = c.segments :=
    List.ext_getElem? fun _ => getElem?_guard_of_not_mem List.not_mem_nil
  exact congrArg (fun segments => { c with segments }) hsegments

theorem guard_guard (c : AccessChain) (ks js : List Nat) :
    (c.guard ks).guard js = c.guard (ks ++ js) := by
  have hsegments : ((c.guard ks).guard js).segments = (c.guard (ks ++ js)).segments := by
    refine List.ext_getElem? fun i => ?_
    rw [getElem?_guard, getElem?_guard, getElem?_guard, Option.map_map]
    congr 1
    funext s
    by_cases hk : i ∈ ks <;> by_cases hj : i ∈ js <;> simp [hk, hj, Segment.guarded_guarded]
  exact congrArg (fun segments => { c with segments }) hsegments

/-- Guarding later segments leaves the text in front of a segment as it is. -/
theorem textTo_guard {c : AccessChain} {ks : List Nat} {i : Nat} (h : ∀ k ∈ ks, i ≤ k) :
    (c.guard ks).textTo i = c.textTo i := by
  have htake : (c.guard ks).segments.take i = c.segments.take i := by
    refine List.ext_getElem? fun n => ?_
    rw [List.getElem?_take, List.getElem?_take]
    split
    · next hn => exact getElem?_guard_of_not_mem fun hmem => absurd (h n hmem) (by omega)
    · rfl
  unfold textTo
  rw [htake]
  rfl

theorem drop_guard {c : AccessChain} {ks : List Nat} {i : Nat} (h : ∀ k ∈ ks, k < i) :
    (c.guard ks).segments.drop i = c.segments.drop i := by
  refine List.ext_getElem? fun n => ?_
  rw [List.getElem?_drop, List.getElem?_drop]
  exact getElem?_guard_of_not_mem fun hmem => absurd (h _ hmem) (by omega)

/-! ## 2. Edits of segments -/

/-- The segment has a place for the marker, and the marker is not there. -/
def Unmarked (c : AccessChain) (k : Nat) : Prop :=
  ∃ s, c.segments[k]? = some s ∧ s.isAssertion = false ∧ s.marking = .plain

theorem unmarked_of_guardable {c : AccessChain} {k : Nat} (h : c.guardable k = true) :
    c.Unmarked k := by
  unfold guardable at h
  split at h
  · cases h
  · cases h
  · next s hne hs =>
    rw [Bool.and_eq_true, Bool.and_eq_true, beq_iff_eq] at h
    refine ⟨s, hs, ?_, h.1.1⟩
    cases s with
    | assertion => exact absurd rfl hne
    | _ => rfl

theorem Unmarked.guard {c : AccessChain} {k : Nat} (h : c.Unmarked k) {ks : List Nat}
    (hk : k ∉ ks) : (c.guard ks).Unmarked k := by
  obtain ⟨s, hs, hplain⟩ := h
  exact ⟨s, (getElem?_guard_of_not_mem hk).trans hs, hplain⟩

theorem edit_guard {c : AccessChain} {ks : List Nat} {i : Nat} (h : ∀ k ∈ ks, i < k) :
    (c.guard ks).edit i = c.edit i := by
  unfold edit
  rw [getElem?_guard_of_not_mem fun hmem => absurd (h i hmem) (Nat.lt_irrefl i),
    textTo_guard fun k hk => Nat.le_of_lt (h k hk)]

/-- The edit of a segment guards it. -/
theorem apply_edit {c : AccessChain} {k : Nat} (h : c.Unmarked k) :
    (c.edit k).apply c.text = (c.guard [k]).text := by
  obtain ⟨s, hs, hassert, hplain⟩ := h
  have hguarded : (c.guard [k]).segments[k]? = some s.guarded := by
    simp [getElem?_guard, hs]
  have hfront : (c.guard [k]).textTo k = c.textTo k :=
    textTo_guard fun i hi => Nat.le_of_eq (List.mem_singleton.mp hi).symm
  have hback : (c.guard [k]).segments.drop (k + 1) = c.segments.drop (k + 1) :=
    drop_guard fun i hi => by rw [List.mem_singleton.mp hi]; exact Nat.lt_succ_self k
  rw [text_eq_of_getElem? hguarded, hfront, hback, text_eq_of_getElem? hs, edit, hs]
  cases s with
  | property m name =>
    cases hplain
    exact Edit.apply_replaceByMarker ..
  | index m content nodes =>
    cases hplain
    exact Edit.apply_insertMarker ..
  | call m content nodes =>
    cases hplain
    exact Edit.apply_insertMarker ..
  | assertion => cases hassert

/-- The edits of segments, from right to left, guard these segments. Each of them is the edit of its
segment also in the chain that the edits before it leave. -/
theorem foldl_edits {c : AccessChain} {ks : List Nat} (hsorted : ks.Pairwise (· > ·))
    (hks : ∀ k ∈ ks, c.Unmarked k) :
    (ks.map c.edit).foldl (fun out e => e.apply out) c.text = (c.guard ks).text := by
  induction ks generalizing c with
  | nil => rw [guard_nil]; rfl
  | cons k rest ih =>
    rw [List.pairwise_cons] at hsorted
    have hedits : rest.map c.edit = rest.map (c.guard [k]).edit := by
      refine List.map_congr_left fun i hi => (edit_guard ?_).symm
      intro j hj
      rw [List.mem_singleton.mp hj]
      exact hsorted.1 i hi
    have hrest : ∀ i ∈ rest, (c.guard [k]).Unmarked i := by
      intro i hi
      refine (hks i (List.mem_cons_of_mem k hi)).guard fun hmem => ?_
      have hlt := hsorted.1 i hi
      rw [List.mem_singleton.mp hmem] at hlt
      exact Nat.lt_irrefl k hlt
    rw [List.map_cons, List.foldl_cons, apply_edit (hks k List.mem_cons_self), hedits,
      ih hsorted.2 hrest, guard_guard]
    rfl

theorem edit_start (c : AccessChain) (k : Nat) : (c.edit k).start = (c.textTo k).length := by
  unfold edit
  split <;> rfl

theorem textTo_length_lt {c : AccessChain} (hc : c.WellFormed) {i j : Nat} (hij : i < j)
    (hi : i < c.segments.length) : (c.textTo i).length < (c.textTo j).length := by
  obtain ⟨n, rfl⟩ := Nat.exists_eq_add_of_lt hij
  have hpos := (Segment.endsPlainly (hc.segments _ (List.getElem_mem hi))).length_pos
  unfold textTo
  rw [Nat.add_assoc, List.take_add, List.drop_eq_getElem_cons hi, List.take_succ_cons,
    List.flatMap_append, List.flatMap_cons]
  simp only [List.length_append]
  omega

/-- Segments whose edits start at the same position are the same, and otherwise the positions are in
the order of the segments. -/
theorem le_of_edit_start_le {c : AccessChain} (hc : c.WellFormed) {i j : Nat} (hi : c.Unmarked i)
    (h : (c.edit j).start ≤ (c.edit i).start) : j ≤ i := by
  obtain ⟨s, hs, -⟩ := hi
  obtain ⟨hlt, -⟩ := List.getElem?_eq_some_iff.mp hs
  refine Nat.le_of_not_lt fun hij => ?_
  rw [edit_start, edit_start] at h
  exact absurd (textTo_length_lt hc hij hlt) (Nat.not_lt_of_le h)

theorem exists_map_eq {f : Nat → Edit} {ks : List Nat} {es : List Edit}
    (h : ∀ e ∈ es, ∃ k ∈ ks, f k = e) : ∃ js : List Nat, js.map f = es ∧ ∀ j ∈ js, j ∈ ks := by
  induction es with
  | nil => exact ⟨[], rfl, fun _ hj => nomatch hj⟩
  | cons e rest ih =>
    obtain ⟨k, hk, rfl⟩ := h e List.mem_cons_self
    obtain ⟨js, rfl, hjs⟩ := ih fun d hd => h d (List.mem_cons_of_mem _ hd)
    refine ⟨k :: js, rfl, ?_⟩
    rintro j (_ | ⟨_, hj⟩)
    · exact hk
    · exact hjs j hj

/-- A batch of edits of segments, in any order and with repetitions, guards these segments. -/
theorem applyAll_edits {c : AccessChain} (hc : c.WellFormed) {ks : List Nat}
    (hks : ∀ k ∈ ks, c.Unmarked k) :
    Edit.applyAll c.text (Edit.distinct (ks.map c.edit)) = (c.guard ks).text := by
  have hmem : ∀ e,
      e ∈ Edit.rightToLeft (Edit.distinct (ks.map c.edit)) ↔ ∃ k ∈ ks, c.edit k = e := by
    intro e
    rw [Edit.rightToLeft, List.mem_mergeSort, Edit.mem_distinct, List.mem_map]
  obtain ⟨js, hjs, hsub⟩ := exists_map_eq fun e he => (hmem e).mp he
  have hnodup : (js.map c.edit).Nodup := by
    rw [hjs]
    exact (List.mergeSort_perm _ _).nodup_iff.mpr (Edit.nodup_distinct _)
  have hdesc := Edit.pairwise_rightToLeft (Edit.distinct (ks.map c.edit))
  rw [← hjs, List.pairwise_map] at hdesc
  have hsorted : js.Pairwise (· > ·) := by
    refine (hdesc.and (List.pairwise_map.mp hnodup)).imp_of_mem ?_
    rintro i j hi hj ⟨hle, hne⟩
    refine Nat.lt_of_le_of_ne (le_of_edit_start_le hc (hks i (hsub i hi)) hle) ?_
    rintro rfl
    exact hne rfl
  have hsame : ∀ i, i ∈ js ↔ i ∈ ks := by
    intro i
    refine ⟨hsub i, fun hi => ?_⟩
    have he := (hmem (c.edit i)).mpr ⟨i, hi, rfl⟩
    rw [← hjs] at he
    obtain ⟨j, hj, hedit⟩ := List.mem_map.mp he
    have hstart := congrArg Edit.start hedit
    have hij := le_of_edit_start_le hc (hks j (hsub j hj)) (Nat.le_of_eq hstart.symm)
    have hji := le_of_edit_start_le hc (hks i hi) (Nat.le_of_eq hstart)
    rwa [Nat.le_antisymm hij hji]
  rw [Edit.applyAll, ← hjs, foldl_edits hsorted fun j hj => hks j (hsub j hj), guard_congr hsame]

/-! ## 3. The law -/

def Complaint.site (name : String) (d : Complaint) : Site :=
  ⟨d.code, name, d.offset⟩

theorem filterMap_fix? {c : AccessChain} (hc : c.WellFormed) {ds : List Complaint}
    (hds : ∀ d ∈ ds, c.Covers d) :
    (ds.filterMap fun d => c.source.fix? d.code d.offset) = (c.guards ds).map c.edit := by
  unfold guards
  induction ds with
  | nil => rfl
  | cons d rest ih =>
    have hrest := ih fun d' hd' => hds d' (List.mem_cons_of_mem d hd')
    rw [List.filterMap_cons, List.filterMap_cons, fix?_of_covers hc (hds d List.mem_cons_self)]
    cases c.target? d with
    | none => exact hrest
    | some t =>
      simp only [Option.filter_some, List.filter_cons]
      cases c.guardable t with
      | false => exact hrest
      | true => simpa using hrest

/-- Every diagnostic inside a name asks for the guard of its target, if that is guardable, and for
nothing otherwise. A pass over any diagnostics of this kind guards exactly the guardable targets,
and leaves the rest of the chain as it is. -/
theorem pass_guards_targets {c : AccessChain} (hc : c.WellFormed) {ds : List Complaint}
    (hds : ∀ d ∈ ds, c.Covers d) (number : Nat) (name : String) :
    (∀ d ∈ ds, (c.source.fix? d.code d.offset).map (fun e => e.apply c.text) =
      ((c.target? d).filter c.guardable).map fun t => (c.guard [t]).text) ∧
    (Pass.run number [(name, c.text)] [(name, c.tree)] (ds.map (Complaint.site name))).files =
      [(name, (c.guard (c.guards ds)).text)] := by
  constructor
  · intro d hd
    rw [fix?_of_covers hc (hds d hd), Option.map_map]
    cases c.target? d with
    | none => rfl
    | some t =>
      rw [Option.filter_some]
      cases ht : c.guardable t with
      | false => rfl
      | true => exact congrArg some (apply_edit (unmarked_of_guardable ht))
  · have hsites : ∀ s ∈ ds.map (Complaint.site name), s.file = name := by
      intro s hs
      obtain ⟨d, -, rfl⟩ := List.mem_map.mp hs
      rfl
    have hguards : ∀ k ∈ c.guards ds, c.Unmarked k := fun k hk =>
      unmarked_of_guardable (List.mem_filter.mp hk).2
    have hedits : ((ds.map (Complaint.site name)).filterMap fun s =>
        (Source.mk c.text c.tree).fix? s.code s.offset) = (c.guards ds).map c.edit := by
      rw [List.filterMap_map]
      exact filterMap_fix? hc hds
    rw [Pass.files_run_of_one hsites, hedits, applyAll_edits hc hguards]

def halfGuarded : AccessChain where
  root := ['a']
  segments := [.property .wrapped ['b'], .property .plain ['c'], .call .plain [] []]

/-- The value at `b` may be missing, and so may the function called behind `a`. -/
def halfGuardedComplaints : List Complaint :=
  [⟨2532, .property 0, 3⟩, ⟨invokeCode, .root, 0⟩]

/-- The complaint at the optional access `a?.b` guards the access behind it. -/
theorem pass_guards_both_segments :
    halfGuarded.WellFormed ∧ (∀ d ∈ halfGuardedComplaints, halfGuarded.Covers d) ∧
    (Pass.run 0 [("m.ts", halfGuarded.text)] [("m.ts", halfGuarded.tree)]
      (halfGuardedComplaints.map (Complaint.site "m.ts"))).files =
        [("m.ts", "a?.b?.c?.();".toList)] := by
  have hc : halfGuarded.WellFormed := by
    refine ⟨by decide, List.forall_mem_singleton.mpr (by decide), ?_⟩
    rintro s (_ | ⟨_, _ | ⟨_, _ | ⟨_, hs⟩⟩⟩)
    · exact ⟨by decide, List.forall_mem_singleton.mpr (by decide)⟩
    · exact ⟨by decide, List.forall_mem_singleton.mpr (by decide)⟩
    · trivial
    · cases hs
  have hds : ∀ d ∈ halfGuardedComplaints, halfGuarded.Covers d := by
    rintro d (_ | ⟨_, _ | ⟨_, hd⟩⟩)
    · exact ⟨.wrapped, ['b'], rfl, by decide, by decide⟩
    · exact Nat.zero_lt_one
    · cases hd
  exact ⟨hc, hds, (pass_guards_targets hc hds 0 "m.ts").2⟩

end AccessChain

end ChainGuard
