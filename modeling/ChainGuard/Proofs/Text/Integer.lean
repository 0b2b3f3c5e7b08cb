import ChainGuard.Text.Integer

namespace ChainGuard.Text

/-- The text consists of decimal digits, of which there is at least one. -/
structure IsNumeral (t : Text) : Prop where
  ne_nil : t ≠ []
  digits : ∀ c ∈ t, isDigit c = true

theorem isNumeral_iff {t : Text} : IsNumeral t ↔ (!t.isEmpty && t.all isDigit) = true := by
  rw [Bool.and_eq_true, Bool.not_eq_true', List.isEmpty_eq_false_iff, List.all_eq_true]
  exact ⟨fun ⟨ne_nil, digits⟩ => ⟨ne_nil, digits⟩, fun ⟨ne_nil, digits⟩ => ⟨ne_nil, digits⟩⟩

instance (t : Text) : Decidable (IsNumeral t) :=
  decidable_of_iff _ isNumeral_iff.symm

def decimal (t : Text) : Nat :=
  ofDigits (t.filterMap digitValue?)

/-! ## Digits -/

theorem isDigit_iff {c : Char} : isDigit c = true ↔ ∃ z ∈ zeros, z ≤ c.toNat ∧ c.toNat ≤ z + 9 := by
  rw [isDigit, digitValue?, Option.isSome_map, List.find?_isSome]
  simp only [Bool.and_eq_true, decide_eq_true_eq]

/-- A digit of any script is no blank. The blanks lie in gaps between the scripts. -/
theorem isBlank_of_isDigit {c : Char} (h : isDigit c = true) : isBlank c = false := by
  obtain ⟨z, hz, hlow, hhigh⟩ := isDigit_iff.mp h
  cases hc : isBlank c with
  | false => rfl
  | true =>
    exfalso
    have hgap : ∀ z ∈ zeros, (0x21 ≤ z ∧ z + 9 < 0x85) ∨ (0xa0 < z ∧ z + 9 < 0x1680) ∨
        (0x1680 < z ∧ z + 9 < 0x2000) ∨ 0x3000 < z := by decide
    have hz := hgap z hz
    simp only [isBlank, Bool.or_eq_true, Bool.and_eq_true, decide_eq_true_eq, beq_iff_eq] at hc
    omega

theorem ne_of_isDigit {c d : Char} (h : isDigit c = true) (hd : isDigit d = false) : c ≠ d := by
  rintro rfl
  rw [h] at hd
  cases hd

theorem digitValue?_of_isDigit {c : Char} (h : isDigit c = true) : ∃ d, digitValue? c = some d :=
  Option.isSome_iff_exists.mp h

theorem digitRun?_of_digits {t : Text} (h : ∀ c ∈ t, isDigit c = true) (afterDigit : Bool) :
    digitRun? afterDigit t = some (t.filterMap digitValue?, []) := by
  induction t generalizing afterDigit with
  | nil => rfl
  | cons c t ih =>
    have hc := h c List.mem_cons_self
    obtain ⟨d, hd⟩ := digitValue?_of_isDigit hc
    unfold digitRun?
    rw [if_neg (ne_of_isDigit hc (by decide)), hd, List.filterMap_cons_some hd]
    dsimp only
    rw [ih (fun c hc => h c (List.mem_cons_of_mem _ hc)), Option.map_some]

theorem length_filterMap_digitValue? {t : Text} (h : ∀ c ∈ t, isDigit c = true) :
    (t.filterMap digitValue?).length = t.length := by
  induction t with
  | nil => rfl
  | cons c t ih =>
    obtain ⟨d, hd⟩ := digitValue?_of_isDigit (h c List.mem_cons_self)
    rw [List.filterMap_cons_some hd, List.length_cons, List.length_cons,
      ih fun c hc => h c (List.mem_cons_of_mem _ hc)]

/-! ## Numerals -/

/-- A numeral is the number that it spells, unless it is too long. -/
theorem toInteger_of_isNumeral {t : Text} (h : t.IsNumeral) :
    toInteger t = if IntegerError.maxDigits < t.length then .error (.tooLong t.length)
      else .ok (decimal t) := by
  obtain ⟨hne, hdigits⟩ := h
  have hblank : t.dropWhile isNumberBlank = t := by
    cases t with
    | nil => rfl
    | cons c t =>
      refine List.dropWhile_cons_of_neg ?_
      rw [isNumberBlank, isBlank_of_isDigit (hdigits c List.mem_cons_self), Bool.false_and]
      exact Bool.false_ne_true
  have hsign : sign t = (false, t) := by
    cases t with
    | nil => rfl
    | cons c t =>
      have hc := hdigits c List.mem_cons_self
      have hminus := ne_of_isDigit hc (d := '-') (by decide)
      have hplus := ne_of_isDigit hc (d := '+') (by decide)
      simp only [sign]
      split
      · next heq => exact absurd (List.cons.inj heq).1 hminus
      · next heq => exact absurd (List.cons.inj heq).1 hplus
      · rfl
  have hlength := length_filterMap_digitValue? hdigits
  have hnonempty : (t.filterMap digitValue?).isEmpty = false := by
    rw [List.isEmpty_eq_false_iff, ← List.length_pos_iff, hlength]
    exact List.length_pos_iff.mpr hne
  rw [toInteger, hblank, hsign]
  dsimp only
  rw [digitRun?_of_digits hdigits]
  dsimp only
  rw [hlength, hnonempty]
  split
  · rfl
  · rfl

/-! ## Decimal notation -/

theorem digitValue?_digitChar : ∀ d < 10, digitValue? (Nat.digitChar d) = some d := by
  decide

theorem decimal_concat {t : Text} {c : Char} {d : Nat} (h : digitValue? c = some d) :
    decimal (t ++ [c]) = 10 * decimal t + d := by
  rw [decimal, List.filterMap_append, List.filterMap_cons_some h, ofDigits, List.foldl_append]
  rfl

/-- The decimal notation of a number is a numeral, which spells the number. -/
theorem isNumeral_toDigits_and (n : Nat) :
    IsNumeral (Nat.toDigits 10 n) ∧ decimal (Nat.toDigits 10 n) = n := by
  induction n using Nat.strongRecOn with
  | ind n ih =>
    have hlast : n % 10 < 10 := Nat.mod_lt n (by decide)
    have hvalue := digitValue?_digitChar (n % 10) hlast
    have hdigit : isDigit (Nat.digitChar (n % 10)) = true := by
      rw [isDigit, hvalue]
      rfl
    rcases Nat.lt_or_ge n 10 with hlt | hge
    · rw [Nat.mod_eq_of_lt hlt] at hvalue hdigit
      rw [Nat.toDigits_of_lt_base hlt]
      refine ⟨⟨List.cons_ne_nil _ _, by simpa using hdigit⟩, ?_⟩
      exact (decimal_concat (t := []) hvalue).trans (Nat.zero_add n)
    · obtain ⟨hfront, hdecimal⟩ := ih (n / 10) (Nat.div_lt_self (by omega) (by decide))
      rw [Nat.toDigits_of_base_le (by decide) hge]
      refine ⟨⟨List.append_ne_nil_of_right_ne_nil _ (List.cons_ne_nil _ _), ?_⟩, ?_⟩
      · intro c hc
        rcases List.mem_append.mp hc with hc | hc
        · exact hfront.digits c hc
        · rwa [List.mem_singleton.mp hc]
      · rw [decimal_concat hvalue, hdecimal, Nat.div_add_mod]

theorem isNumeral_toString (n : Nat) : IsNumeral (toString n).toList :=
  Nat.toList_repr ▸ (isNumeral_toDigits_and n).1

theorem decimal_toString (n : Nat) : decimal (toString n).toList = n :=
  Nat.toList_repr ▸ (isNumeral_toDigits_and n).2

end ChainGuard.Text
