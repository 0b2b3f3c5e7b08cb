import ChainGuard.Text

namespace ChainGuard.Text

/-! ## Cuts -/

theorem getElem?_slice (t : Text) (lo hi i : Nat) :
    (t.slice lo hi)[i]? = if lo + i < hi then t[lo + i]? else none := by
  rw [slice, List.getElem?_drop, List.getElem?_take]

theorem getElem?_of_slice {t : Text} {lo hi i : Nat} {c : Char}
    (h : (t.slice lo hi)[i]? = some c) : lo + i < hi ∧ t[lo + i]? = some c := by
  rw [getElem?_slice] at h
  split at h
  · next hlt => exact ⟨hlt, h⟩
  · cases h

/-- Between two texts, a cut has the text that stands there. -/
theorem slice_append (a b c : Text) : (a ++ (b ++ c)).slice a.length (a.length + b.length) = b := by
  unfold slice
  rw [List.take_length_add_append, List.take_left, List.drop_left]

theorem slice_append_slice {t : Text} {lo mid hi : Nat} (hlo : lo ≤ mid) (hhi : mid ≤ hi)
    (hmid : mid ≤ t.length) : t.slice lo mid ++ t.slice mid hi = t.slice lo hi := by
  have hlength : (t.take mid).length = mid := by
    rw [List.length_take, Nat.min_eq_left hmid]
  have hsplit := List.take_append_drop mid (t.take hi)
  rw [List.take_take, Nat.min_eq_left hhi] at hsplit
  unfold slice
  rw [← List.drop_append_of_le_length (hlength.symm ▸ hlo), hsplit]

theorem getElem?_of_slice_eq_marker {t : Text} {lo hi : Nat} (h : t.slice lo hi = marker) :
    t[lo]? = some '?' ∧ t[lo + 1]? = some '.' :=
  ⟨(getElem?_of_slice (i := 0) (by rw [h]; rfl)).2, (getElem?_of_slice (i := 1) (by rw [h]; rfl)).2⟩

/-! ## Searches -/

/-- A text with the marker has its two characters next to each other. -/
theorem getElem?_of_hasMarker {t : Text} (h : t.hasMarker = true) :
    ∃ i : Nat, t[i]? = some '?' ∧ t[i + 1]? = some '.' := by
  induction t with
  | nil => cases h
  | cons x xs ih =>
    unfold hasMarker at h ih
    rw [holds, Bool.or_eq_true] at h
    rcases h with h | h
    · obtain ⟨rest, hrest⟩ := List.isPrefixOf_iff_prefix.mp h
      exact ⟨0, by rw [← hrest]; rfl, by rw [← hrest]; rfl⟩
    · obtain ⟨i, hi⟩ := ih h
      exact ⟨i + 1, hi⟩

theorem hasMarker_append (a b : Text) : hasMarker (a ++ (marker ++ b)) = true := by
  induction a with
  | nil => rfl
  | cons x xs ih =>
    unfold hasMarker at ih ⊢
    rw [List.cons_append, holds, ih, Bool.or_true]

/-- The two characters of the marker next to each other are the marker. -/
theorem slice_eq_marker {t : Text} {i : Nat} (hquestion : t[i]? = some '?')
    (hdot : t[i + 1]? = some '.') : t.slice i (i + 2) = marker := by
  apply List.ext_getElem?
  intro k
  rw [getElem?_slice]
  match k with
  | 0 => rw [if_pos (by omega), Nat.add_zero, hquestion]; rfl
  | 1 => rw [if_pos (by omega), hdot]; rfl
  | k + 2 => rw [if_neg (by omega)]; rfl

/-- A text with the two characters of the marker next to each other has the marker. -/
theorem hasMarker_of_getElem? {t : Text} {i : Nat} (hquestion : t[i]? = some '?')
    (hdot : t[i + 1]? = some '.') : t.hasMarker = true := by
  have hsplit : t.take i ++ (marker ++ t.drop (i + 2)) = t := by
    rw [← slice_eq_marker hquestion hdot, slice, List.drop_take, Nat.add_sub_cancel_left,
      ← List.drop_drop, List.take_append_drop, List.take_append_drop]
  rw [← hsplit]
  exact hasMarker_append _ _

/-- A cut around the two characters of the marker has the marker. -/
theorem hasMarker_slice {t : Text} {i lo hi : Nat} (hquestion : t[i]? = some '?')
    (hdot : t[i + 1]? = some '.') (hlo : lo ≤ i) (hhi : i + 2 ≤ hi) :
    hasMarker (t.slice lo hi) = true := by
  apply hasMarker_of_getElem? (i := i - lo)
  · rw [getElem?_slice, Nat.add_sub_cancel' hlo, if_pos (by omega), hquestion]
  · rw [getElem?_slice, ← Nat.add_assoc, Nat.add_sub_cancel' hlo, if_pos (by omega), hdot]

theorem firstFrom?_append (a b : Text) (c : Char) :
    firstFrom? (a ++ b) c a.length = (b.idxOf? c).map (· + a.length) := by
  rw [firstFrom?, List.drop_left]

theorem not_mem_of_last?_eq_none {c : Char} {t : Text} (h : last? c t = none) : c ∉ t := by
  induction t with
  | nil => exact List.not_mem_nil
  | cons x xs ih =>
    cases hx : last? c xs with
    | some k => simp [last?, hx] at h
    | none =>
      have hne : x ≠ c := by simpa [last?, hx] using h
      rw [List.mem_cons, not_or]
      exact ⟨Ne.symm hne, ih hx⟩

/-- The last occurrence is an occurrence, and none follows it. -/
theorem last?_eq_some {c : Char} {t : Text} {i : Nat} (h : last? c t = some i) :
    t[i]? = some c ∧ ∀ j, i < j → t[j]? ≠ some c := by
  induction t generalizing i with
  | nil => simp [last?] at h
  | cons x xs ih =>
    cases hx : last? c xs with
    | some k =>
      have hi : k + 1 = i := by simpa [last?, hx] using h
      subst hi
      obtain ⟨found, later⟩ := ih hx
      refine ⟨by simpa using found, ?_⟩
      intro j hj
      cases j with
      | zero => omega
      | succ j => simpa using later j (by omega)
    | none =>
      have hi : x = c ∧ 0 = i := by simpa [last?, hx] using h
      obtain ⟨rfl, rfl⟩ := hi
      refine ⟨rfl, ?_⟩
      intro j hj hfound
      cases j with
      | zero => omega
      | succ j =>
        exact not_mem_of_last?_eq_none hx (List.mem_of_getElem? (by simpa using hfound))

/-- The first occurrence from a position on is an occurrence, and none lies between. -/
theorem firstFrom?_eq_some {t : Text} {c : Char} {start i : Nat}
    (h : t.firstFrom? c start = some i) :
    start ≤ i ∧ t[i]? = some c ∧ ∀ j, start ≤ j → j < i → t[j]? ≠ some c := by
  obtain ⟨k, hk, rfl⟩ := Option.map_eq_some_iff.mp h
  obtain ⟨hlt, found, earlier⟩ := List.idxOf?_eq_some_iff.mp hk
  have hdrop : ∀ n, (t.drop start)[n]? = t[start + n]? := fun n => List.getElem?_drop
  refine ⟨by omega, ?_, ?_⟩
  · rw [Nat.add_comm, ← hdrop, List.getElem?_eq_getElem hlt, found]
  · intro j hstart hj hc
    have hjlt : j - start < (t.drop start).length := by omega
    have hat : (t.drop start)[j - start]? = some c := by
      rw [hdrop, Nat.add_sub_cancel' hstart, hc]
    rw [List.getElem?_eq_getElem hjlt] at hat
    exact earlier (j - start) (by omega) (Option.some.inj hat)

/-! ## Bytes -/

@[simp]
theorem utf8Length_nil : utf8Length [] = 0 := rfl

@[simp]
theorem utf8Length_append (a b : Text) : utf8Length (a ++ b) = utf8Length a + utf8Length b := by
  induction a with
  | nil => rw [List.nil_append, utf8Length_nil, Nat.zero_add]
  | cons c cs ih => rw [List.cons_append, utf8Length, utf8Length, ih, Nat.add_assoc]

theorem utf8Length_pos {t : Text} (h : t ≠ []) : 0 < utf8Length t := by
  cases t with
  | nil => exact absurd rfl h
  | cons c cs =>
    have hc := Char.utf8Size_pos c
    rw [utf8Length]
    omega

/-- A beginning that leaves something out has fewer bytes. -/
theorem utf8Length_take_lt {t : Text} {n : Nat} (h : n < t.length) :
    utf8Length (t.take n) < utf8Length t := by
  have hrest : t.drop n ≠ [] := by
    intro hnil
    rw [List.drop_eq_nil_iff] at hnil
    omega
  have hpos := utf8Length_pos hrest
  have hsplit : utf8Length t = utf8Length (t.take n) + utf8Length (t.drop n) := by
    rw [← utf8Length_append, List.take_append_drop]
  omega

/-- In a text of ASCII characters every character is a byte. -/
theorem utf8Length_of_isAscii {t : Text} (h : t.isAscii = true) : utf8Length t = t.length := by
  induction t with
  | nil => rfl
  | cons c cs ih =>
    unfold isAscii at h ih
    rw [List.all_cons, Bool.and_eq_true, beq_iff_eq] at h
    rw [utf8Length, h.1, ih h.2, List.length_cons, Nat.add_comm]

theorem wholeChars_zero (t : Text) : wholeChars t 0 = 0 := by
  cases t with
  | nil => rfl
  | cons c cs =>
    have hc := Char.utf8Size_pos c
    rw [wholeChars, if_neg (by omega)]

/-- The bytes of a beginning hold its characters. -/
theorem wholeChars_utf8Length (a b : Text) : wholeChars (a ++ b) (utf8Length a) = a.length := by
  induction a with
  | nil => exact wholeChars_zero b
  | cons c cs ih =>
    rw [List.cons_append, utf8Length, wholeChars, if_pos (by omega), Nat.add_sub_cancel_left, ih,
      List.length_cons]

/-- More bytes hold no fewer characters. -/
theorem wholeChars_mono (t : Text) {a b : Nat} (h : a ≤ b) : wholeChars t a ≤ wholeChars t b := by
  induction t generalizing a b with
  | nil => exact Nat.le_refl 0
  | cons c cs ih =>
    rw [wholeChars, wholeChars]
    split
    · rw [if_pos (by omega)]
      exact Nat.succ_le_succ (ih (by omega))
    · exact Nat.zero_le _

end ChainGuard.Text
