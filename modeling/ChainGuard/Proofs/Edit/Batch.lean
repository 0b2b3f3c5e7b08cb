import ChainGuard.Proofs.Edit
import ChainGuard.Proofs.Text

/-!
# Where the characters of a text are after a batch

A batch of guards with different starts cuts the text into stretches. Each stretch moves to the
right by what the guards before it add, and between the stretches stand the markers.

1. `Edit.movedStart`, `Edit.movedStop`: where a position of the text is after a batch. The two
   differ where a marker is put in: what starts there is pushed behind the marker, and what stops
   there stays in front of it.
2. `Edit.IsBatch`: guards of a text with different starts. Applied from right to left
   (`Edit.Descends`), none of them meddles with what another one leaves behind itself.
3. `Edit.IsBatch.getElem?_applyAll`: the characters of the new text are those of the old one that no
   guard replaces, and those of the markers.
4. `Edit.IsBatch.exists_applyAll_eq_append`: what stands before a position grows by the guards
   before it, in characters and in bytes.
-/

namespace ChainGuard.Edit

/-! ## 1. Positions -/

def growth (e : Edit) : Nat :=
  e.text.length - (e.stop - e.start)

def growthOf : List Edit → Nat
  | [] => 0
  | e :: es => e.growth + growthOf es

/-- Where something that starts at `p` starts after the batch. -/
def movedStart (es : List Edit) (p : Nat) : Nat :=
  p + growthOf (es.filter fun e => e.stop ≤ p)

/-- Where something that stops at `p` stops after the batch. -/
def movedStop (es : List Edit) (p : Nat) : Nat :=
  p + growthOf (es.filter fun e => e.start < p)

@[simp]
theorem growthOf_cons (e : Edit) (es : List Edit) :
    growthOf (e :: es) = e.growth + growthOf es := rfl

theorem growthOf_perm {es es' : List Edit} (h : es.Perm es') : growthOf es = growthOf es' := by
  induction h with
  | nil => rfl
  | cons e _ ih => rw [growthOf_cons, growthOf_cons, ih]
  | swap d e es => exact Nat.add_left_comm _ _ _
  | trans _ _ ih ih' => exact ih.trans ih'

theorem growthOf_filter_mono {es : List Edit} {P Q : Edit → Bool}
    (h : ∀ e ∈ es, P e = true → Q e = true) :
    growthOf (es.filter P) ≤ growthOf (es.filter Q) := by
  induction es with
  | nil => exact Nat.le_refl 0
  | cons e es ih =>
    have hrest := ih fun d hd => h d (List.mem_cons_of_mem e hd)
    rw [List.filter_cons, List.filter_cons]
    by_cases hP : P e = true
    · rw [if_pos hP, if_pos (h e List.mem_cons_self hP), growthOf_cons, growthOf_cons]
      omega
    · rw [if_neg hP]
      split
      · rw [growthOf_cons]
        omega
      · exact hrest

/-- One more edit adds its growth. -/
theorem growthOf_filter_of_mem {es : List Edit} (hnodup : es.Nodup) {P Q : Edit → Bool} {e : Edit}
    (he : e ∈ es) (hP : P e = false) (h : ∀ d ∈ es, Q d = true ↔ d = e ∨ P d = true) :
    growthOf (es.filter Q) = e.growth + growthOf (es.filter P) := by
  rw [← growthOf_cons]
  apply growthOf_perm
  rw [List.perm_ext_iff_of_nodup (hnodup.filter Q)
    (List.nodup_cons.mpr ⟨by simp [hP], hnodup.filter P⟩)]
  intro d
  rw [List.mem_cons, List.mem_filter, List.mem_filter]
  constructor
  · rintro ⟨hd, hQ⟩
    exact ((h d hd).mp hQ).imp_right fun hPd => ⟨hd, hPd⟩
  · rintro (rfl | ⟨hd, hPd⟩)
    · exact ⟨he, (h d he).mpr (.inl rfl)⟩
    · exact ⟨hd, (h d hd).mpr (.inr hPd)⟩

theorem movedStart_perm {es es' : List Edit} (h : es.Perm es') :
    movedStart es = movedStart es' := by
  funext p
  rw [movedStart, movedStart, growthOf_perm (h.filter _)]

theorem movedStop_perm {es es' : List Edit} (h : es.Perm es') : movedStop es = movedStop es' := by
  funext p
  rw [movedStop, movedStop, growthOf_perm (h.filter _)]

section

variable (es : List Edit) {p q : Nat}

theorem movedStart_mono (h : p ≤ q) : movedStart es p ≤ movedStart es q := by
  have hgrowth : growthOf (es.filter fun e => e.stop ≤ p) ≤
      growthOf (es.filter fun e => e.stop ≤ q) :=
    growthOf_filter_mono fun e _ => by
      simp only [decide_eq_true_eq]
      omega
  unfold movedStart
  omega

theorem movedStop_mono (h : p ≤ q) : movedStop es p ≤ movedStop es q := by
  have hgrowth : growthOf (es.filter fun e => e.start < p) ≤
      growthOf (es.filter fun e => e.start < q) :=
    growthOf_filter_mono fun e _ => by
      simp only [decide_eq_true_eq]
      omega
  unfold movedStop
  omega

/-- What starts before a position stays before what stops there. -/
theorem movedStart_lt_movedStop (h : p < q) : movedStart es p < movedStop es q := by
  have hgrowth : growthOf (es.filter fun e => e.stop ≤ p) ≤
      growthOf (es.filter fun e => e.start < q) :=
    growthOf_filter_mono fun e _ => by
      have hle := e.start_le_stop
      simp only [decide_eq_true_eq]
      omega
  unfold movedStart movedStop
  omega

end

/-! ## 2. Batches -/

theorem IsGuard.stop_le {t : Text} {e : Edit} (h : e.IsGuard t) : e.stop ≤ e.start + 1 := by
  cases h with
  | replace _ _ => exact Nat.le_refl _
  | insert _ => exact Nat.le_succ _

theorem IsGuard.growth_eq {t : Text} {e : Edit} (h : e.IsGuard t) :
    e.growth = 2 - (e.stop - e.start) := by
  rw [growth, h.text_eq]
  rfl

/-- A guard replaces as many bytes as characters. -/
theorem IsGuard.utf8Length_eq {t : Text} {e : Edit} (h : e.IsGuard t) :
    Text.utf8Length t = Text.utf8Length (t.take e.start) + (e.stop - e.start) +
      Text.utf8Length (t.drop e.stop) := by
  cases h with
  | @replace pos c found mem =>
    have hbyte : c.utf8Size = 1 := by
      simp only [Text.marker, List.mem_cons, List.not_mem_nil, or_false] at mem
      rcases mem with rfl | rfl <;> decide
    have hsplit := congrArg Text.utf8Length (take_append_cons_drop found)
    simp only [Text.utf8Length_append, Text.utf8Length, hbyte] at hsplit
    simp only [replaceByMarker]
    omega
  | insert pos =>
    have hsplit := congrArg Text.utf8Length (List.take_append_drop pos t)
    rw [Text.utf8Length_append] at hsplit
    simp only [insertMarker]
    omega

/-- Guards of a text with different starts. -/
structure IsBatch (t : Text) (es : List Edit) : Prop where
  guards : ∀ e ∈ es, e.IsGuard t
  inside : ∀ e ∈ es, e.stop ≤ t.length
  nodup : es.Nodup
  apart : ∀ a ∈ es, ∀ b ∈ es, a.start = b.start → a = b

/-- Guards of a text, the rightmost first. -/
structure Descends (t : Text) (es : List Edit) : Prop where
  guards : ∀ e ∈ es, e.IsGuard t
  inside : ∀ e ∈ es, e.stop ≤ t.length
  sorted : es.Pairwise fun a b => b.start < a.start

theorem IsBatch.descends {t : Text} {es : List Edit} (h : IsBatch t es) :
    Descends t (rightToLeft es) where
  guards e he := h.guards e (List.mem_mergeSort.mp he)
  inside e he := h.inside e (List.mem_mergeSort.mp he)
  sorted := by
    have hnodup : (rightToLeft es).Nodup := (List.mergeSort_perm es _).nodup_iff.mpr h.nodup
    refine ((pairwise_rightToLeft es).and hnodup).imp_of_mem ?_
    rintro a b ha hb ⟨hle, hne⟩
    have hstart : a.start ≠ b.start := fun heq =>
      hne (h.apart a (List.mem_mergeSort.mp ha) b (List.mem_mergeSort.mp hb) heq)
    omega

namespace IsBatch

variable {t : Text} {es : List Edit} {p : Nat}

/-- What stops at a position stays in front of what starts there. -/
theorem movedStop_le_movedStart (h : IsBatch t es) : movedStop es p ≤ movedStart es p := by
  have hgrowth : growthOf (es.filter fun e => e.start < p) ≤
      growthOf (es.filter fun e => e.stop ≤ p) :=
    growthOf_filter_mono fun e he => by
      have hstop := (h.guards e he).stop_le
      simp only [decide_eq_true_eq]
      omega
  unfold movedStart movedStop
  omega

/-- A replaced character makes room for the marker. -/
theorem movedStop_succ (h : IsBatch t es) (he : replaceByMarker p ∈ es) :
    movedStop es (p + 1) = movedStop es p + 2 := by
  have hgrowth := growthOf_filter_of_mem h.nodup (P := fun e => e.start < p)
    (Q := fun e => e.start < p + 1) he (by simp [replaceByMarker]) fun d hd => by
      have hstart : d = replaceByMarker p ↔ d.start = p :=
        ⟨fun heq => heq ▸ rfl, h.apart d hd _ he⟩
      rw [hstart, decide_eq_true_eq, decide_eq_true_eq]
      omega
  rw [(h.guards _ he).growth_eq] at hgrowth
  unfold movedStop
  simp only [replaceByMarker] at hgrowth
  omega

/-- Where the marker is put in, it separates what stops from what starts. -/
theorem movedStart_eq_of_insertMarker (h : IsBatch t es) (he : insertMarker p ∈ es) :
    movedStart es p = movedStop es p + 2 := by
  have hgrowth := growthOf_filter_of_mem h.nodup (P := fun e => e.start < p)
    (Q := fun e => e.stop ≤ p) he (by simp [insertMarker]) fun d hd => by
      have hle := d.start_le_stop
      have hstop := (h.guards d hd).stop_le
      rw [decide_eq_true_eq, decide_eq_true_eq]
      constructor
      · intro hdp
        rcases Nat.lt_or_ge d.start p with hlt | hge
        · exact .inr hlt
        · exact .inl (h.apart d hd _ he (by simp only [insertMarker]; omega))
      · rintro (rfl | hlt)
        · exact Nat.le_refl p
        · omega
  rw [(h.guards _ he).growth_eq] at hgrowth
  unfold movedStart movedStop
  simp only [insertMarker] at hgrowth
  omega

end IsBatch

/-! ### One guard after the other -/

/-- The text after edits that are applied in the given order. -/
def applyEach (t : Text) (es : List Edit) : Text :=
  es.foldl (fun out e => e.apply out) t

theorem applyEach_cons (t : Text) (e : Edit) (es : List Edit) :
    applyEach t (e :: es) = applyEach (t.take e.start ++ (e.text ++ t.drop e.stop)) es := by
  rw [applyEach, List.foldl_cons, apply, List.append_assoc]
  rfl

namespace Descends

variable {t : Text} {e : Edit} {es : List Edit}

/-- Guards within a beginning of the text are guards of it. -/
theorem take (h : Descends t es) {k : Nat} (hk : k ≤ t.length) (hin : ∀ e ∈ es, e.stop ≤ k) :
    Descends (t.take k) es where
  guards e he := by
    have hstop := hin e he
    cases h.guards e he with
    | insert pos => exact .insert pos
    | @replace pos c found mem =>
      refine .replace ?_ mem
      rw [List.getElem?_take_of_lt hstop, found]
  inside e he := by
    rw [List.length_take, Nat.min_eq_left hk]
    exact hin e he
  sorted := h.sorted

theorem tail_stop_le (h : Descends t (e :: es)) : ∀ d ∈ es, d.stop ≤ e.start := by
  intro d hd
  have hlt := (List.pairwise_cons.mp h.sorted).1 d hd
  have hstop := (h.guards d (List.mem_cons_of_mem e hd)).stop_le
  omega

theorem start_le_length (h : Descends t (e :: es)) : e.start ≤ t.length :=
  Nat.le_trans e.start_le_stop (h.inside e List.mem_cons_self)

/-- The other guards lie before the start of the first one. -/
theorem tail (h : Descends t (e :: es)) : Descends (t.take e.start) es :=
  Descends.take
    ⟨fun d hd => h.guards d (List.mem_cons_of_mem e hd),
      fun d hd => h.inside d (List.mem_cons_of_mem e hd), (List.pairwise_cons.mp h.sorted).2⟩
    h.start_le_length h.tail_stop_le

/-- What stands behind the guards stays as it is. -/
theorem applyEach_append (h : Descends t es) (rest : Text) :
    applyEach (t ++ rest) es = applyEach t es ++ rest := by
  induction es generalizing t rest with
  | nil => rfl
  | cons e es ih =>
    have hstop := h.inside e List.mem_cons_self
    rw [applyEach_cons, applyEach_cons, List.take_append_of_le_length h.start_le_length,
      List.drop_append_of_le_length hstop, ih h.tail, ih h.tail]
    simp only [List.append_assoc]

/-- The first guard leaves the marker and what follows it. -/
theorem applyEach_cons_eq (h : Descends t (e :: es)) :
    applyEach t (e :: es) = applyEach (t.take e.start) es ++ (Text.marker ++ t.drop e.stop) := by
  rw [applyEach_cons, h.tail.applyEach_append, (h.guards e List.mem_cons_self).text_eq]

theorem length_applyEach (h : Descends t es) :
    (applyEach t es).length = t.length + growthOf es := by
  induction es generalizing t with
  | nil => rfl
  | cons e es ih =>
    have hguard := h.guards e List.mem_cons_self
    have hstop := h.inside e List.mem_cons_self
    have hle := e.start_le_stop
    have hnarrow := hguard.stop_le
    have hmarker : Text.marker.length = 2 := rfl
    rw [h.applyEach_cons_eq, List.length_append, List.length_append, ih h.tail, growthOf_cons,
      hguard.growth_eq, List.length_take, List.length_drop, hmarker]
    omega

theorem utf8Length_applyEach (h : Descends t es) :
    (applyEach t es).utf8Length = t.utf8Length + growthOf es := by
  induction es generalizing t with
  | nil => rfl
  | cons e es ih =>
    have hguard := h.guards e List.mem_cons_self
    have hle := e.start_le_stop
    have hnarrow := hguard.stop_le
    have hbytes := hguard.utf8Length_eq
    have hmarker : Text.utf8Length Text.marker = 2 := rfl
    rw [h.applyEach_cons_eq, Text.utf8Length_append, Text.utf8Length_append, ih h.tail,
      growthOf_cons, hguard.growth_eq, hmarker]
    omega

/-! ### Positions in a batch -/

section

variable {p : Nat}

theorem movedStart_cons_of_le (h : Descends t (e :: es)) (hp : e.stop ≤ p) :
    movedStart (e :: es) p = p + growthOf (e :: es) := by
  rw [movedStart, List.filter_eq_self.mpr]
  intro d hd
  rw [decide_eq_true_eq]
  have hle := e.start_le_stop
  rcases List.mem_cons.mp hd with rfl | hd
  · exact hp
  · have hstop := h.tail_stop_le d hd
    omega

theorem movedStop_start (h : Descends t (e :: es)) :
    movedStop (e :: es) e.start = e.start + growthOf es := by
  rw [movedStop, List.filter_cons, if_neg (by simp), List.filter_eq_self.mpr]
  intro d hd
  rw [decide_eq_true_eq]
  exact (List.pairwise_cons.mp h.sorted).1 d hd

end

end Descends

theorem movedStart_cons_of_lt {e : Edit} {es : List Edit} {p : Nat} (hp : p < e.stop) :
    movedStart (e :: es) p = movedStart es p := by
  rw [movedStart, movedStart, List.filter_cons, if_neg]
  rw [decide_eq_true_eq]
  omega

theorem movedStop_cons_of_le {e : Edit} {es : List Edit} {p : Nat} (hp : p ≤ e.start) :
    movedStop (e :: es) p = movedStop es p := by
  rw [movedStop, movedStop, List.filter_cons, if_neg]
  rw [decide_eq_true_eq]
  omega

/-! ## 3. Characters -/

/-- After the batch the character `c` is at position `q`: no edit replaces it, or it belongs to a
marker. -/
inductive Stands (t : Text) (es : List Edit) : Nat → Char → Prop
  | kept {p : Nat} {c : Char} (found : t[p]? = some c)
      (free : ∀ e ∈ es, e.stop ≤ p ∨ p < e.start) : Stands t es (movedStart es p) c
  | put {e : Edit} {i : Nat} {c : Char} (mem : e ∈ es) (found : Text.marker[i]? = some c) :
      Stands t es (movedStop es e.start + i) c

theorem Stands.perm {t : Text} {es es' : List Edit} {q : Nat} {c : Char} (hperm : es.Perm es')
    (h : Stands t es q c) : Stands t es' q c := by
  cases h with
  | kept found free =>
    rw [movedStart_perm hperm]
    exact .kept found fun e he => free e (hperm.mem_iff.mpr he)
  | put mem found =>
    rw [movedStop_perm hperm]
    exact .put (hperm.mem_iff.mp mem) found

namespace Descends

variable {t : Text} {e : Edit} {es : List Edit} {q : Nat} {c : Char}

theorem length_applyEach_tail (h : Descends t (e :: es)) :
    (applyEach (t.take e.start) es).length = movedStop (e :: es) e.start := by
  rw [h.tail.length_applyEach, h.movedStop_start, List.length_take,
    Nat.min_eq_left h.start_le_length]

/-- In front of the first guard there is what the others leave there. -/
theorem getElem?_applyEach_of_tail (h : Descends t (e :: es))
    (hc : (applyEach (t.take e.start) es)[q]? = some c) :
    (applyEach t (e :: es))[q]? = some c := by
  obtain ⟨hq, -⟩ := List.getElem?_eq_some_iff.mp hc
  rw [h.applyEach_cons_eq, List.getElem?_append_left hq, hc]

theorem getElem?_applyEach_put (h : Descends t (e :: es)) {i : Nat} (hi : i < 2) :
    (applyEach t (e :: es))[movedStop (e :: es) e.start + i]? = Text.marker[i]? := by
  rw [h.applyEach_cons_eq, ← h.length_applyEach_tail,
    List.getElem?_append_right (Nat.le_add_right _ i), Nat.add_sub_cancel_left,
    List.getElem?_append_left hi]

theorem movedStart_stop_add (h : Descends t (e :: es)) (k : Nat) :
    movedStart (e :: es) (e.stop + k) = movedStop (e :: es) e.start + (2 + k) := by
  have hguard := h.guards e List.mem_cons_self
  have hle := e.start_le_stop
  have hnarrow := hguard.stop_le
  rw [h.movedStart_cons_of_le (Nat.le_add_right _ k), h.movedStop_start, growthOf_cons,
    hguard.growth_eq]
  omega

/-- Behind the first guard there is the old text. -/
theorem getElem?_applyEach_of_le (h : Descends t (e :: es)) {p : Nat} (hp : e.stop ≤ p) :
    (applyEach t (e :: es))[movedStart (e :: es) p]? = t[p]? := by
  obtain ⟨k, rfl⟩ := Nat.exists_eq_add_of_le hp
  have hmarker : Text.marker.length = 2 := rfl
  rw [h.movedStart_stop_add, h.applyEach_cons_eq, ← h.length_applyEach_tail,
    List.getElem?_append_right (Nat.le_add_right _ _), Nat.add_sub_cancel_left, ← hmarker,
    List.getElem?_append_right (Nat.le_add_right _ k), Nat.add_sub_cancel_left, List.getElem?_drop]

/-- The characters after the batch, by induction on the guards from right to left. -/
theorem getElem?_applyEach (h : Descends t es) :
    (applyEach t es)[q]? = some c ↔ Stands t es q c := by
  induction es generalizing t q with
  | nil =>
    rw [applyEach, List.foldl_nil]
    constructor
    · intro found
      have hkept : Stands t [] (movedStart [] q) c := .kept found fun e he => nomatch he
      exact hkept
    · rintro (⟨found, -⟩ | ⟨mem, -⟩)
      · exact found
      · cases mem
  | cons e es ih =>
    have hle := e.start_le_stop
    constructor
    · intro found
      rcases Nat.lt_or_ge q (movedStop (e :: es) e.start) with hq | hq
      · rw [h.applyEach_cons_eq, List.getElem?_append_left (by rwa [h.length_applyEach_tail])]
          at found
        cases (ih h.tail).mp found with
        | @kept p _ found free =>
          rw [List.getElem?_take] at found
          obtain ⟨hp, found⟩ := Option.ite_none_right_eq_some.mp found
          rw [← movedStart_cons_of_lt (e := e) (by omega)]
          exact .kept found (List.forall_mem_cons.mpr ⟨.inr hp, free⟩)
        | @put d i _ mem found =>
          have hd := (List.pairwise_cons.mp h.sorted).1 d mem
          rw [← movedStop_cons_of_le (e := e) (by omega)]
          exact .put (List.mem_cons_of_mem e mem) found
      · obtain ⟨i, rfl⟩ := Nat.exists_eq_add_of_le hq
        rcases Nat.lt_or_ge i 2 with hi | hi
        · rw [h.getElem?_applyEach_put hi] at found
          exact .put List.mem_cons_self found
        · obtain ⟨k, rfl⟩ := Nat.exists_eq_add_of_le hi
          rw [← h.movedStart_stop_add] at found ⊢
          rw [h.getElem?_applyEach_of_le (Nat.le_add_right _ k)] at found
          refine .kept found (List.forall_mem_cons.mpr ⟨.inl (Nat.le_add_right _ k), ?_⟩)
          intro d hd
          have hstop := h.tail_stop_le d hd
          exact .inl (by omega)
    · rintro (@⟨p, _, found, free⟩ | @⟨d, i, _, mem, found⟩)
      · rcases free e List.mem_cons_self with hp | hp
        · rw [h.getElem?_applyEach_of_le hp, found]
        · rw [movedStart_cons_of_lt (by omega)]
          refine h.getElem?_applyEach_of_tail ((ih h.tail).mpr (.kept ?_ ?_))
          · rw [List.getElem?_take_of_lt hp, found]
          · exact fun d hd => free d (List.mem_cons_of_mem e hd)
      · rcases List.mem_cons.mp mem with rfl | mem
        · obtain ⟨hi, -⟩ := List.getElem?_eq_some_iff.mp found
          rw [h.getElem?_applyEach_put hi, found]
        · have hd := (List.pairwise_cons.mp h.sorted).1 d mem
          rw [movedStop_cons_of_le (by omega)]
          exact h.getElem?_applyEach_of_tail ((ih h.tail).mpr (.put mem found))

end Descends

/-- The characters of the new text are those of the old one that no guard replaces, and those of the
markers. -/
theorem IsBatch.getElem?_applyAll {t : Text} {es : List Edit} (h : IsBatch t es) {q : Nat}
    {c : Char} : (applyAll t es)[q]? = some c ↔ Stands t es q c := by
  have hperm : (rightToLeft es).Perm es := List.mergeSort_perm es _
  refine Iff.trans h.descends.getElem?_applyEach ⟨?_, ?_⟩
  · exact Stands.perm hperm
  · exact Stands.perm hperm.symm

/-! ## 4. Beginnings -/

/-- What stands before a position grows by the guards before it. Those behind it come first, and
leave what stands in front of them. -/
theorem Descends.exists_applyEach_eq_append {t : Text} {es : List Edit} (h : Descends t es)
    {p : Nat} (hp : p ≤ t.length) {before : Edit → Bool}
    (hbefore : ∀ e ∈ es, before e = true → e.stop ≤ p)
    (hbehind : ∀ e ∈ es, before e = false → p ≤ e.start) :
    ∃ a b : Text, applyEach t es = a ++ b ∧ a.length = p + growthOf (es.filter before) ∧
      Text.utf8Length a = Text.utf8Length (t.take p) + growthOf (es.filter before) := by
  induction es generalizing t with
  | nil =>
    exact ⟨t.take p, t.drop p, (List.take_append_drop p t).symm, List.length_take_of_le hp, rfl⟩
  | cons e es ih =>
    cases hbe : before e with
    | false =>
      have hpe := hbehind e List.mem_cons_self hbe
      have hlength : (t.take e.start).length = e.start := by
        rw [List.length_take, Nat.min_eq_left h.start_le_length]
      obtain ⟨a, b, heq, hchars, hbytes⟩ := ih h.tail (by omega)
        (fun d hd => hbefore d (List.mem_cons_of_mem e hd))
        (fun d hd => hbehind d (List.mem_cons_of_mem e hd))
      rw [List.take_take, Nat.min_eq_left hpe] at hbytes
      rw [List.filter_cons_of_neg (by rw [hbe]; decide)]
      exact ⟨a, b ++ (Text.marker ++ t.drop e.stop),
        by rw [h.applyEach_cons_eq, heq, List.append_assoc], hchars, hbytes⟩
    | true =>
      have hpe := hbefore e List.mem_cons_self hbe
      have hle := e.start_le_stop
      have hstops : ∀ d ∈ es, d.stop ≤ e.start := h.tail_stop_le
      have hall : ∀ d ∈ e :: es, before d = true := by
        refine List.forall_mem_cons.mpr ⟨hbe, fun d hd => ?_⟩
        cases hbd : before d with
        | true => rfl
        | false =>
          have hpd := hbehind d (List.mem_cons_of_mem e hd) hbd
          have hd := (List.pairwise_cons.mp h.sorted).1 d hd
          omega
      have htake : Descends (t.take p) (e :: es) :=
        h.take hp (List.forall_mem_cons.mpr ⟨hpe, fun d hd => by have := hstops d hd; omega⟩)
      rw [List.filter_eq_self.mpr hall]
      refine ⟨applyEach (t.take p) (e :: es), t.drop p, ?_, ?_, htake.utf8Length_applyEach⟩
      · rw [← htake.applyEach_append, List.take_append_drop]
      · rw [htake.length_applyEach, List.length_take, Nat.min_eq_left hp]

theorem IsBatch.exists_applyAll_eq_append {t : Text} {es : List Edit} (h : IsBatch t es) {p : Nat}
    (hp : p ≤ t.length) {before : Edit → Bool} (hbefore : ∀ e ∈ es, before e = true → e.stop ≤ p)
    (hbehind : ∀ e ∈ es, before e = false → p ≤ e.start) :
    ∃ a b : Text, applyAll t es = a ++ b ∧ a.length = p + growthOf (es.filter before) ∧
      Text.utf8Length a = Text.utf8Length (t.take p) + growthOf (es.filter before) := by
  have hperm : (rightToLeft es).Perm es := List.mergeSort_perm es _
  rw [← growthOf_perm (hperm.filter before)]
  exact h.descends.exists_applyEach_eq_append hp
    (fun e he => hbefore e (hperm.mem_iff.mp he)) fun e he => hbehind e (hperm.mem_iff.mp he)

end ChainGuard.Edit
