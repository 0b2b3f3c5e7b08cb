import ChainGuard.Edit

/-!
# Edits that only put in markers

Guarding an access replaces a dot by the marker `?.` or puts the marker between two characters. Such
an edit loses nothing: the text before is a subsequence of the text after, and the two differ in
characters of the marker only. A batch of guards keeps this, in whatever order they come and also
where several of them start at one position.

1. `Text.GrowsBy`: how a text grows by a number of guards.
2. `Edit.IsGuard`: the edits in question; `IsGuard.growsBy_apply` for one of them.
3. `Edit.applyAll_perm`: batches in any order. `Edit.growsBy_applyAll`: the same as for one guard,
   for a batch.
-/

namespace ChainGuard

/-! ## 1. Growing texts -/

namespace Text

/-- The text without the characters that the marker is made of. -/
def bare (t : Text) : Text :=
  t.filter fun c => c != '?' && c != '.'

/-- The text `after` comes from `before` by putting in `n` times one or two characters of the
marker. -/
structure GrowsBy (n : Nat) (before after : Text) : Prop where
  sublist : before.Sublist after
  bare_eq : after.bare = before.bare
  length_lower : before.length + n ≤ after.length
  length_upper : after.length ≤ before.length + 2 * n

namespace GrowsBy

theorem refl (t : Text) : GrowsBy 0 t t :=
  ⟨List.Sublist.refl t, rfl, by omega, by omega⟩

theorem trans {m n : Nat} {a b c : Text} (hab : GrowsBy m a b) (hbc : GrowsBy n b c) :
    GrowsBy (m + n) a c where
  sublist := hab.sublist.trans hbc.sublist
  bare_eq := hbc.bare_eq.trans hab.bare_eq
  length_lower := by
    have h₁ := hab.length_lower
    have h₂ := hbc.length_lower
    omega
  length_upper := by
    have h₁ := hab.length_upper
    have h₂ := hbc.length_upper
    omega

/-- What stands on both sides of the growing part stays. -/
theorem between {n : Nat} {before after : Text} (h : GrowsBy n before after) (front back : Text) :
    GrowsBy n (front ++ before ++ back) (front ++ after ++ back) where
  sublist := (h.sublist.append_left front).append_right back
  bare_eq := by
    have hb := h.bare_eq
    unfold bare at hb ⊢
    rw [List.filter_append, List.filter_append, List.filter_append, List.filter_append, hb]
  length_lower := by
    have hl := h.length_lower
    simp only [List.length_append]
    omega
  length_upper := by
    have hu := h.length_upper
    simp only [List.length_append]
    omega

theorem marker_of_mem {c : Char} (h : c ∈ marker) : GrowsBy 1 [c] marker := by
  simp only [marker, List.mem_cons, List.not_mem_nil, or_false] at h
  rcases h with rfl | rfl
  · exact ⟨by decide, by decide, by decide, by decide⟩
  · exact ⟨by decide, by decide, by decide, by decide⟩

theorem marker_of_nil : GrowsBy 1 [] marker :=
  ⟨by decide, by decide, by decide, by decide⟩

end GrowsBy

end Text

/-! ## 2. Single guards -/

namespace Edit

/-- The edits that guard an access in the text `t`: they put the marker in place of one of its own
characters, or between two characters. -/
inductive IsGuard (t : Text) : Edit → Prop
  | replace {pos : Nat} {c : Char} (found : t[pos]? = some c) (mem : c ∈ Text.marker) :
      IsGuard t (replaceByMarker pos)
  | insert (pos : Nat) : IsGuard t (insertMarker pos)

theorem IsGuard.text_eq {t : Text} {e : Edit} (h : e.IsGuard t) : e.text = Text.marker := by
  cases h with
  | replace _ _ => rfl
  | insert _ => rfl

/-- A character found at a position, with what stands before and after it. -/
theorem take_append_cons_drop {t : Text} {pos : Nat} {c : Char} (h : t[pos]? = some c) :
    t.take pos ++ [c] ++ t.drop (pos + 1) = t := by
  obtain ⟨hlt, rfl⟩ := List.getElem?_eq_some_iff.mp h
  rw [List.append_assoc, List.singleton_append, ← List.drop_eq_getElem_cons hlt,
    List.take_append_drop]

/-- One guard lets the text grow once. -/
theorem IsGuard.growsBy_apply {t : Text} {e : Edit} (h : e.IsGuard t) :
    Text.GrowsBy 1 t (e.apply t) := by
  cases h with
  | @replace pos c found mem =>
    have grows := (Text.GrowsBy.marker_of_mem mem).between (t.take pos) (t.drop (pos + 1))
    rwa [take_append_cons_drop found] at grows
  | insert pos =>
    have grows := Text.GrowsBy.marker_of_nil.between (t.take pos) (t.drop pos)
    rwa [List.append_nil, List.take_append_drop] at grows

theorem apply_replaceByMarker (a b : Text) (x : Char) :
    (replaceByMarker a.length).apply (a ++ (x :: b)) = a ++ (Text.marker ++ b) := by
  have hdrop : (a ++ (x :: b)).drop (a.length + 1) = b := by
    rw [List.drop_length_add_append]
    rfl
  unfold apply replaceByMarker
  rw [List.take_left, hdrop, List.append_assoc]

theorem apply_insertMarker (a b : Text) :
    (insertMarker a.length).apply (a ++ b) = a ++ (Text.marker ++ b) := by
  unfold apply insertMarker
  rw [List.take_left, List.drop_left, List.append_assoc]

/-- An edit leaves what stands before its start. -/
theorem getElem?_apply_of_lt {e : Edit} {t : Text} {pos : Nat} (h : pos < e.start)
    (ht : pos < t.length) : (e.apply t)[pos]? = t[pos]? := by
  have hlen : pos < (t.take e.start).length := by
    rw [List.length_take]
    omega
  rw [apply, List.append_assoc, List.getElem?_append_left hlen, List.getElem?_take_of_lt h]

theorem getElem?_apply_start {e : Edit} {t : Text} (ht : e.start ≤ t.length) (hne : e.text ≠ []) :
    (e.apply t)[e.start]? = e.text[0]? := by
  have hlen : (t.take e.start).length = e.start := by
    rw [List.length_take]
    omega
  have hpos : 0 < e.text.length := List.length_pos_iff.mpr hne
  rw [apply, List.append_assoc, List.getElem?_append_right (Nat.le_of_eq hlen), hlen,
    Nat.sub_self, List.getElem?_append_left hpos]

/-- A guard stays one after another guard at the same position or to its right. The dot that it
replaces may have become the first character of a marker, which is replaced just as well. -/
theorem IsGuard.after_apply {t : Text} {d e : Edit} (hd : d.IsGuard t) (he : e.IsGuard t)
    (hle : d.start ≤ e.start) : d.IsGuard (e.apply t) := by
  cases hd with
  | insert pos => exact .insert pos
  | @replace pos c found mem =>
    have hlt : pos < t.length := (List.getElem?_eq_some_iff.mp found).1
    have hle : pos ≤ e.start := hle
    rcases Nat.lt_or_eq_of_le hle with h | h
    · exact .replace ((getElem?_apply_of_lt h hlt).trans found) mem
    · subst h
      have hne : e.text ≠ [] := by
        rw [he.text_eq]
        exact List.cons_ne_nil _ _
      have first : (e.apply t)[e.start]? = some '?' := by
        rw [getElem?_apply_start (Nat.le_of_lt hlt) hne, he.text_eq]
        rfl
      exact .replace first List.mem_cons_self

/-! ## 3. Batches of guards -/

/-- Guards applied from right to left let the text grow once each. The guards to come are guards of
the text that the first one leaves. -/
theorem growsBy_foldl {es : List Edit} {t : Text}
    (sorted : es.Pairwise fun a b => b.start ≤ a.start) (guards : ∀ e ∈ es, e.IsGuard t) :
    Text.GrowsBy es.length t (es.foldl (fun out e => e.apply out) t) := by
  induction es generalizing t with
  | nil => exact Text.GrowsBy.refl t
  | cons e rest ih =>
    rw [List.pairwise_cons] at sorted
    have he : e.IsGuard t := guards e List.mem_cons_self
    have hrest : ∀ d ∈ rest, d.IsGuard (e.apply t) := fun d hd =>
      (guards d (List.mem_cons_of_mem e hd)).after_apply he (sorted.1 d hd)
    have grows := he.growsBy_apply.trans (ih sorted.2 hrest)
    rwa [Nat.add_comm] at grows

theorem pairwise_rightToLeft (es : List Edit) :
    (rightToLeft es).Pairwise fun a b => b.start ≤ a.start := by
  have h : (rightToLeft es).Pairwise fun a b => decide (b.start ≤ a.start) = true := by
    apply List.pairwise_mergeSort
    · intro a b c hab hbc
      simp only [decide_eq_true_eq] at hab hbc ⊢
      omega
    · intro a b
      simp only [Bool.or_eq_true, decide_eq_true_eq]
      omega
  exact h.imp fun hab => by simpa using hab

/-- Edits with different starts can come in any order. The sort is stable, but edits that start
together are equal. -/
theorem applyAll_perm {es es' : List Edit} (h : es.Perm es')
    (hstart : ∀ a ∈ es, ∀ b ∈ es, a.start = b.start → a = b) (t : Text) :
    applyAll t es = applyAll t es' := by
  have hsorted : rightToLeft es = rightToLeft es' := by
    refine List.Perm.eq_of_pairwise ?_ (pairwise_rightToLeft es) (pairwise_rightToLeft es') ?_
    · intro a b ha hb hba hab
      have hb' : b ∈ es := h.mem_iff.mpr (List.mem_mergeSort.mp hb)
      exact hstart a (List.mem_mergeSort.mp ha) b hb' (by omega)
    · exact (List.mergeSort_perm es _).trans (h.trans (List.mergeSort_perm es' _).symm)
  rw [applyAll, hsorted, applyAll]

/-- A batch of guards lets the text grow once each. -/
theorem growsBy_applyAll {es : List Edit} {t : Text} (guards : ∀ e ∈ es, e.IsGuard t) :
    Text.GrowsBy es.length t (applyAll t es) := by
  have grows := growsBy_foldl (pairwise_rightToLeft es) fun e he =>
    guards e (List.mem_mergeSort.mp he)
  rwa [rightToLeft, List.length_mergeSort] at grows

theorem mem_distinct {es : List Edit} {e : Edit} : e ∈ distinct es ↔ e ∈ es :=
  List.mem_eraseDups

theorem nodup_distinct (es : List Edit) : (distinct es).Nodup := by
  unfold distinct
  match es with
  | [] => exact List.nodup_nil
  | e :: es =>
    rw [List.eraseDups_cons, List.nodup_cons]
    refine ⟨?_, nodup_distinct (es.filter fun d => !d == e)⟩
    intro hmem
    simp [List.mem_eraseDups] at hmem
termination_by es.length
decreasing_by exact Nat.lt_succ_of_le (List.length_filter_le _ es)

end Edit

end ChainGuard
