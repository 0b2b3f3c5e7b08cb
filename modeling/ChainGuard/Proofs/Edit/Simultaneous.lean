import ChainGuard.Proofs.Edit
import ChainGuard.Proofs.Text
import Mathlib

/-!
# Batches as one replacement

A batch is applied one edit after the other, and each edit cuts the text as the edits before left it
at positions of the text as it was. For edits that start at different positions and do not overlap
this comes to one walk over the text from left to right, which copies the gaps between the edits and
puts in their texts.

1. `Edit.Apart`: edits that start at different positions and do not overlap. `Edit.Ascends`: the
   same for edits in the order of the text.
2. `Edit.weave`: the walk. `Ascends.foldr_apply`: applying edits from right to left gives it.
3. `Edit.moved`: where a character of the text is afterwards.
4. Main statement: `Edit.applyAll_is_simultaneous`.
-/

namespace ChainGuard.Edit

/-! ## 1. Edits that do not overlap -/

/-- The batch in the order of the text: the leftmost start first. -/
def leftToRight (es : List Edit) : List Edit :=
  es.mergeSort fun a b => decide (a.start ≤ b.start)

/-- Edits of a text that start at different positions and do not overlap. They may touch. -/
structure Apart (t : Text) (es : List Edit) : Prop where
  starts : (es.map start).Nodup
  inside : ∀ e ∈ es, e.stop ≤ t.length
  apart : ∀ a ∈ es, ∀ b ∈ es, a.start < b.start → a.stop ≤ b.start

/-- Edits of a text from position `pos` on, each of which starts where the one before stops, or
further to the right. -/
inductive Ascends (t : Text) : Nat → List Edit → Prop
  | nil {pos : Nat} : pos ≤ t.length → Ascends t pos []
  | cons {pos : Nat} {e : Edit} {es : List Edit} :
      pos ≤ e.start → Ascends t e.stop es → Ascends t pos (e :: es)

variable {t : Text} {es : List Edit} {pos : Nat}

theorem Ascends.le_length (h : Ascends t pos es) : pos ≤ t.length := by
  induction h with
  | nil hpos => exact hpos
  | @cons pos e es hpos _ ih => exact Nat.le_trans hpos (Nat.le_trans e.start_le_stop ih)

theorem ascends_of_pairwise (hpos : pos ≤ t.length) (hstart : ∀ e ∈ es, pos ≤ e.start)
    (hinside : ∀ e ∈ es, e.stop ≤ t.length) (hsorted : es.Pairwise fun a b => a.stop ≤ b.start) :
    Ascends t pos es := by
  induction es generalizing pos with
  | nil => exact .nil hpos
  | cons e es ih =>
    obtain ⟨hnext, hrest⟩ := List.pairwise_cons.mp hsorted
    exact .cons (hstart e List.mem_cons_self) (ih (hinside e List.mem_cons_self) hnext
      (fun d hd => hinside d (List.mem_cons_of_mem e hd)) hrest)

theorem leftToRight_perm (es : List Edit) : (leftToRight es).Perm es :=
  List.mergeSort_perm es _

theorem pairwise_leftToRight (es : List Edit) :
    (leftToRight es).Pairwise fun a b => a.start ≤ b.start := by
  have h : (leftToRight es).Pairwise fun a b => decide (a.start ≤ b.start) = true := by
    apply List.pairwise_mergeSort
    · intro a b c hab hbc
      simp only [decide_eq_true_eq] at hab hbc ⊢
      omega
    · intro a b
      simp only [Bool.or_eq_true, decide_eq_true_eq]
      omega
  exact h.imp of_decide_eq_true

namespace Apart

theorem eq_of_start_eq (h : Apart t es) : ∀ a ∈ es, ∀ b ∈ es, a.start = b.start → a = b :=
  fun _ ha _ hb heq => List.inj_on_of_nodup_map h.starts ha hb heq

theorem ascends (h : Apart t es) : Ascends t 0 (leftToRight es) := by
  have hmem : ∀ {e}, e ∈ leftToRight es → e ∈ es := (leftToRight_perm es).mem_iff.mp
  have hstarts : ((leftToRight es).map start).Nodup :=
    ((leftToRight_perm es).map start).nodup_iff.mpr h.starts
  refine ascends_of_pairwise (Nat.zero_le _) (fun _ _ => Nat.zero_le _)
    (fun e he => h.inside e (hmem he)) ?_
  refine ((pairwise_leftToRight es).and (List.pairwise_map.mp hstarts)).imp_of_mem ?_
  rintro a b ha hb ⟨hle, hne⟩
  exact h.apart a (hmem ha) b (hmem hb) (Nat.lt_of_le_of_ne hle hne)

/-- The order of application is that of the text turned round. -/
theorem rightToLeft_eq (h : Apart t es) : rightToLeft es = (leftToRight es).reverse := by
  have hperm : (rightToLeft es).Perm (leftToRight es).reverse :=
    (List.mergeSort_perm es _).trans
      ((leftToRight_perm es).symm.trans (List.reverse_perm _).symm)
  refine hperm.eq_of_pairwise ?_ (pairwise_rightToLeft es)
    (List.pairwise_reverse.mpr (pairwise_leftToRight es))
  intro a b ha hb hba hab
  have hb' : b ∈ es := (leftToRight_perm es).mem_iff.mp (List.mem_reverse.mp hb)
  exact h.eq_of_start_eq a (List.mem_mergeSort.mp ha) b hb' (Nat.le_antisymm hab hba)

end Apart

/-! ## 2. One walk over the text -/

/-- The rest of the text from position `pos` on, with the texts of the edits in place of their
ranges. -/
def weave (t : Text) (pos : Nat) : List Edit → Text
  | [] => t.drop pos
  | e :: es => t.slice pos e.start ++ (e.text ++ weave t e.stop es)

/-- What stands before the edits is copied. -/
theorem Ascends.weave_eq (h : Ascends t pos es) {lo : Nat} (hlo : lo ≤ pos) :
    weave t lo es = t.slice lo pos ++ weave t pos es := by
  cases h with
  | nil hpos =>
    have hlength : (t.take pos).length = pos := by rw [List.length_take, Nat.min_eq_left hpos]
    rw [weave, weave, Text.slice, ← List.drop_append_of_le_length (hlength.symm ▸ hlo),
      List.take_append_drop]
  | @cons _ e es hpos hrest =>
    have hstart := Nat.le_trans hpos (Nat.le_trans e.start_le_stop hrest.le_length)
    rw [weave, weave, ← Text.slice_append_slice hlo hpos hstart, List.append_assoc]

/-- Applied from right to left, every edit finds the text before its end as it was. -/
theorem Ascends.foldr_apply (h : Ascends t pos es) :
    es.foldr (fun e out => e.apply out) t = weave t 0 es := by
  induction h with
  | nil _ => rfl
  | @cons pos e es hpos hrest ih =>
    have hlength : (t.slice 0 e.stop).length = e.stop := by
      rw [Text.slice, List.drop_zero, List.length_take, Nat.min_eq_left hrest.le_length]
    have htake : (t.slice 0 e.stop).take e.start = t.slice 0 e.start := by
      rw [Text.slice, Text.slice, List.drop_zero, List.drop_zero, List.take_take,
        Nat.min_eq_left e.start_le_stop]
    rw [List.foldr_cons, ih, hrest.weave_eq (Nat.zero_le _), apply, weave,
      List.take_append_of_le_length (hlength.symm ▸ e.start_le_stop), htake,
      List.drop_left' hlength, List.append_assoc]

/-! ## 3. Where the characters are -/

/-- The number of characters that the text grows by. It is negative for an edit that takes out more
than it puts in. -/
def gain (e : Edit) : Int :=
  e.text.length - (e.stop - e.start : Nat)

/-- Where a character at `p` that no edit replaces is after the batch: every edit that stops before
it moves it by what it adds. -/
def moved (es : List Edit) (p : Nat) : Int :=
  p + ((es.filter fun e => e.stop ≤ p).map gain).sum

theorem moved_perm {es es' : List Edit} (h : es.Perm es') (p : Nat) : moved es p = moved es' p := by
  rw [moved, moved, ((h.filter _).map gain).sum_eq]

theorem Ascends.start_le (h : Ascends t pos es) : ∀ e ∈ es, pos ≤ e.start := by
  induction h with
  | nil _ => exact fun _ he => nomatch he
  | @cons pos e es hpos _ ih =>
    refine List.forall_mem_cons.mpr ⟨hpos, fun d hd => ?_⟩
    exact Nat.le_trans hpos (Nat.le_trans e.start_le_stop (ih d hd))

/-- In front of all edits nothing moves. -/
theorem Ascends.moved_eq (h : Ascends t pos es) {p : Nat} (hp : p < pos) : moved es p = p := by
  have hnone : (es.filter fun e => e.stop ≤ p) = [] := by
    refine List.filter_eq_nil_iff.mpr fun e he => ?_
    have hstart := h.start_le e he
    have hstop := e.start_le_stop
    rw [decide_eq_true_eq]
    omega
  rw [moved, hnone, List.map_nil, List.sum_nil, Int.add_zero]

theorem moved_cons_of_le {e : Edit} {p : Nat} (hp : e.stop ≤ p) :
    moved (e :: es) p = e.gain + moved es p := by
  rw [moved, moved, List.filter_cons_of_pos (by rwa [decide_eq_true_eq]), List.map_cons,
    List.sum_cons]
  omega

theorem moved_cons_of_lt {e : Edit} {p : Nat} (hp : p < e.start) :
    moved (e :: es) p = moved es p := by
  have hstop := e.start_le_stop
  rw [moved, moved, List.filter_cons_of_neg (by rw [decide_eq_true_eq]; omega)]

/-- A character that no edit replaces is found where the edits before it move it to. -/
theorem Ascends.getElem?_weave (h : Ascends t pos es) {p : Nat} (hpos : pos ≤ p)
    (hfree : ∀ e ∈ es, e.stop ≤ p ∨ p < e.start) :
    ∃ q : Nat, (pos + q : Int) = moved es p ∧ (weave t pos es)[q]? = t[p]? := by
  induction h with
  | @nil pos _ =>
    refine ⟨p - pos, ?_, ?_⟩
    · rw [moved, List.filter_nil, List.map_nil, List.sum_nil]
      omega
    · rw [weave, List.getElem?_drop, Nat.add_sub_cancel' hpos]
  | @cons pos e es hstart hrest ih =>
    have hlength := hrest.le_length
    have hrange := e.start_le_stop
    have hgap : (t.slice pos e.start).length = e.start - pos := by
      rw [Text.slice, List.length_drop, List.length_take, Nat.min_eq_left (by omega)]
    rcases hfree e List.mem_cons_self with hp | hp
    · obtain ⟨q, hq, hchar⟩ := ih hp fun d hd => hfree d (List.mem_cons_of_mem e hd)
      refine ⟨e.start - pos + (e.text.length + q), ?_, ?_⟩
      · rw [moved_cons_of_le hp, ← hq, gain]
        omega
      · rw [weave, ← hgap, List.getElem?_append_right (Nat.le_add_right _ _),
          Nat.add_sub_cancel_left, List.getElem?_append_right (Nat.le_add_right _ _),
          Nat.add_sub_cancel_left, hchar]
    · refine ⟨p - pos, ?_, ?_⟩
      · rw [moved_cons_of_lt hp, hrest.moved_eq (by omega)]
        omega
      · rw [weave, List.getElem?_append_left (by omega), Text.getElem?_slice,
          Nat.add_sub_cancel' hpos, if_pos hp]

/-! ## 4. Batches -/

/-- Edits that start at different positions and do not overlap are applied as if all at once:

* the text after the batch consists, from left to right, of the gaps between the edits as they were
  and of the texts of the edits;
* the order of the batch does not matter;
* a character outside of all edited ranges is found where the edits before it move it to. -/
theorem applyAll_is_simultaneous (h : Apart t es) :
    applyAll t es = weave t 0 (leftToRight es) ∧
    (∀ es', es.Perm es' → applyAll t es' = applyAll t es) ∧
    ∀ p, p < t.length → (∀ e ∈ es, ¬(e.start ≤ p ∧ p < e.stop)) →
      ∃ q : Nat, (q : Int) = moved es p ∧ (applyAll t es)[q]? = t[p]? := by
  have hweave : applyAll t es = weave t 0 (leftToRight es) := by
    rw [applyAll, h.rightToLeft_eq, List.foldl_reverse, h.ascends.foldr_apply]
  refine ⟨hweave, fun es' hperm => (applyAll_perm hperm h.eq_of_start_eq t).symm,
    fun p _ hfree => ?_⟩
  have hfree' : ∀ e ∈ leftToRight es, e.stop ≤ p ∨ p < e.start := by
    intro e he
    have hout := hfree e ((leftToRight_perm es).mem_iff.mp he)
    omega
  obtain ⟨q, hq, hchar⟩ := h.ascends.getElem?_weave (Nat.zero_le p) hfree'
  refine ⟨q, ?_, by rw [hweave, hchar]⟩
  rw [← moved_perm (leftToRight_perm es) p, ← hq]
  omega

/-- Two replacements of `one two three` and an insertion that touches the first of them. -/
def counted : List Edit :=
  [⟨4, 7, "2".toList, by decide⟩, ⟨0, 3, "1".toList, by decide⟩, ⟨3, 3, ",".toList, by decide⟩]

/-- The batch can be turned round, and the last word moves to the left. -/
theorem counted_at_once :
    applyAll "one two three".toList counted = "1, 2 three".toList ∧
      applyAll "one two three".toList counted.reverse = "1, 2 three".toList ∧
      ∃ q : Nat, (q : Int) = 5 ∧ (applyAll "one two three".toList counted)[q]? = some 't' := by
  have hcounted : Apart "one two three".toList counted :=
    ⟨by decide, by decide, by decide⟩
  have hweave : weave "one two three".toList 0 (leftToRight counted) = "1, 2 three".toList := by
    cbv
  have hmoved : moved counted 8 = 5 := by decide
  obtain ⟨hall, hperm, hchars⟩ := applyAll_is_simultaneous hcounted
  refine ⟨hall.trans hweave, (hperm _ (List.reverse_perm _).symm).trans (hall.trans hweave), ?_⟩
  rw [← hmoved]
  exact hchars 8 (by decide) (by decide)

end ChainGuard.Edit
