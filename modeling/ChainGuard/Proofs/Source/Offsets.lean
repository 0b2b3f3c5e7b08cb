import ChainGuard.Proofs.Source
import ChainGuard.Proofs.Utf8.Cut
import Mathlib

/-!
# Offsets in characters and in bytes

Within a text the conversion from bytes to characters is the floor of the conversion from
characters to bytes: a byte belongs to the last character that starts at it or before it.

1. `Text.le_wholeChars_iff`: a number of bytes holds as many characters as start within it.
2. `Source.byteOffset_of_le`, `Source.charOffset_of_le`: within the text the conversions are the
   same for all texts, of ASCII characters or not.
   Main statement: `Source.charOffset_is_floor`.
-/

namespace ChainGuard

namespace Text

/-! ## 1. Characters within bytes -/

theorem wholeChars_le_length (t : Text) (bytes : Nat) : wholeChars t bytes ≤ t.length := by
  induction t generalizing bytes with
  | nil => exact Nat.le_refl 0
  | cons c cs ih =>
    rw [wholeChars]
    split
    · exact Nat.succ_le_succ (ih _)
    · exact Nat.zero_le _

/-- The first `k` characters are whole within a number of bytes exactly if they have no more
bytes. -/
theorem le_wholeChars_iff {t : Text} {k : Nat} (hk : k ≤ t.length) (bytes : Nat) :
    k ≤ wholeChars t bytes ↔ utf8Length (t.take k) ≤ bytes := by
  induction t generalizing k bytes with
  | nil => simp [Nat.le_zero.mp hk]
  | cons c cs ih =>
    cases k with
    | zero => simp
    | succ k =>
      rw [wholeChars, List.take_succ_cons, utf8Length]
      split
      · next hwhole =>
        rw [Nat.succ_le_succ_iff, ih (Nat.le_of_succ_le_succ hk)]
        omega
      · next hcut =>
        refine iff_of_false (Nat.not_succ_le_zero k) ?_
        omega

/-- Each further character adds bytes. -/
theorem utf8Length_take_lt_take {t : Text} {a b : Nat} (hab : a < b) (hb : b ≤ t.length) :
    utf8Length (t.take a) < utf8Length (t.take b) := by
  have hlength : (t.take b).length = b := by rw [List.length_take, Nat.min_eq_left hb]
  have hlt := utf8Length_take_lt (t := t.take b) (hlength.symm ▸ hab)
  rwa [List.take_take, Nat.min_eq_left (Nat.le_of_lt hab)] at hlt

theorem utf8Length_take_le (t : Text) (k : Nat) : utf8Length (t.take k) ≤ utf8Length t := by
  have hsplit := congrArg utf8Length (List.take_append_drop k t)
  rw [utf8Length_append] at hsplit
  omega

theorem wholeChars_of_isAscii {t : Text} (h : t.isAscii = true) {bytes : Nat}
    (hbytes : bytes ≤ t.length) : wholeChars t bytes = bytes := by
  have hbegin : isAscii (t.take bytes) = true := by
    unfold isAscii at h ⊢
    rw [List.all_eq_true] at h ⊢
    exact fun c hc => h c (List.mem_of_mem_take hc)
  have hwhole := wholeChars_utf8Length (t.take bytes) (t.drop bytes)
  rwa [List.take_append_drop, utf8Length_of_isAscii hbegin, List.length_take,
    Nat.min_eq_left hbytes] at hwhole

end Text

/-! ## 2. Offsets -/

namespace Source

theorem byteOffset_of_le {s : Source} {k : Nat} (hk : k ≤ s.text.length) :
    s.byteOffset k = Text.utf8Length (s.text.take k) := by
  have h := byteOffset_length (List.take_append_drop k s.text).symm
  rwa [List.length_take, Nat.min_eq_left hk] at h

theorem charOffset_of_le {s : Source} {byte : Nat} (hbyte : byte ≤ Text.utf8Length s.text) :
    s.charOffset byte = Text.wholeChars s.text byte := by
  unfold charOffset
  split
  · next hascii =>
    rw [Text.wholeChars_of_isAscii hascii (Text.utf8Length_of_isAscii hascii ▸ hbyte)]
  · rw [Text.cutEnd, if_neg (by omega), Int.toNat_natCast]

/-- A byte within the text belongs to the last character that starts at it or before it. -/
theorem isGreatest_charOffset (s : Source) {byte : Nat} (hbyte : byte ≤ Text.utf8Length s.text) :
    IsGreatest {k : ℤ | k ∈ Set.Icc 0 (s.text.length : ℤ) ∧ s.byteOffset k ≤ byte}
      (s.charOffset byte) := by
  have hwithin := Text.wholeChars_le_length s.text byte
  rw [charOffset_of_le hbyte]
  refine ⟨⟨⟨Int.natCast_nonneg _, Int.ofNat_le.mpr hwithin⟩, ?_⟩, fun k hk => ?_⟩
  · rw [byteOffset_of_le hwithin, Int.ofNat_le]
    exact (Text.le_wholeChars_iff hwithin byte).mp (Nat.le_refl _)
  · obtain ⟨⟨hpos, hlength⟩, hle⟩ := hk
    obtain ⟨k, rfl⟩ := Int.eq_ofNat_of_zero_le hpos
    rw [Int.ofNat_le] at hlength ⊢
    rw [byteOffset_of_le hlength, Int.ofNat_le] at hle
    exact (Text.le_wholeChars_iff hlength byte).mpr hle

theorem strictMonoOn_byteOffset (s : Source) :
    StrictMonoOn s.byteOffset (Set.Icc 0 (s.text.length : ℤ)) := by
  intro a ha b hb hab
  obtain ⟨a, rfl⟩ := Int.eq_ofNat_of_zero_le ha.1
  obtain ⟨b, rfl⟩ := Int.eq_ofNat_of_zero_le hb.1
  rw [byteOffset_of_le (Int.ofNat_le.mp ha.2), byteOffset_of_le (Int.ofNat_le.mp hb.2),
    Int.ofNat_lt]
  exact Text.utf8Length_take_lt_take (Int.ofNat_lt.mp hab) (Int.ofNat_le.mp hb.2)

/-- What starts at or before a byte and ends behind it is what the byte belongs to. -/
theorem charOffset_of_mem {s : Source} {k byte : ℤ} (hk : k ∈ Set.Ico 0 (s.text.length : ℤ))
    (hbyte : byte ∈ Set.Ico (s.byteOffset k) (s.byteOffset (k + 1))) : s.charOffset byte = k := by
  obtain ⟨k, rfl⟩ := Int.eq_ofNat_of_zero_le hk.1
  have hlt : k < s.text.length := Int.ofNat_lt.mp hk.2
  obtain ⟨hstart, hstop⟩ := hbyte
  rw [byteOffset_of_le (Nat.le_of_lt hlt)] at hstart
  rw [← Int.natCast_succ, byteOffset_of_le hlt] at hstop
  obtain ⟨byte, rfl⟩ := Int.eq_ofNat_of_zero_le (Int.le_trans (Int.natCast_nonneg _) hstart)
  rw [Int.ofNat_le] at hstart
  rw [Int.ofNat_lt] at hstop
  have hend := Nat.lt_of_lt_of_le hstop (Text.utf8Length_take_le s.text (k + 1))
  rw [charOffset_of_le (Nat.le_of_lt hend)]
  have hnot := mt (Text.le_wholeChars_iff hlt byte).mp (Nat.not_le.mpr hstop)
  have hhas := (Text.le_wholeChars_iff (Nat.le_of_lt hlt) byte).mpr hstart
  omega

/-- Going from characters to bytes and back changes nothing. -/
theorem charOffset_byteOffset {s : Source} {k : ℤ} (hk : k ∈ Set.Icc 0 (s.text.length : ℤ)) :
    s.charOffset (s.byteOffset k) = k := by
  obtain ⟨k, rfl⟩ := Int.eq_ofNat_of_zero_le hk.1
  have hle : k ≤ s.text.length := Int.ofNat_le.mp hk.2
  have hwhole := Text.wholeChars_utf8Length (s.text.take k) (s.text.drop k)
  rw [List.take_append_drop, List.length_take, Nat.min_eq_left hle] at hwhole
  rw [byteOffset_of_le hle, charOffset_of_le (Text.utf8Length_take_le s.text k), hwhole]

/-- Offsets in bytes rise with offsets in characters, from the start of the text to its end, and a
byte belongs to the last character that starts at it or before it: to the character at that very
place, or else to the one whose bytes it is among. For every text, of ASCII characters or not, the
conversions count the bytes of a beginning of the text, and the characters that are read from the
first bytes of the text. -/
theorem charOffset_is_floor (s : Source) :
    s.byteOffset 0 = 0 ∧ s.byteOffset s.text.length = (Utf8.encode s.text).length ∧
    StrictMonoOn s.byteOffset (Set.Icc 0 (s.text.length : ℤ)) ∧
    (∀ byte ∈ Set.Icc 0 ((Utf8.encode s.text).length : ℤ),
      IsGreatest {k : ℤ | k ∈ Set.Icc 0 (s.text.length : ℤ) ∧ s.byteOffset k ≤ byte}
        (s.charOffset byte)) ∧
    (∀ k ∈ Set.Icc 0 (s.text.length : ℤ), s.charOffset (s.byteOffset k) = k) ∧
    (∀ k ∈ Set.Ico 0 (s.text.length : ℤ), ∀ byte ∈ Set.Ico (s.byteOffset k) (s.byteOffset (k + 1)),
      s.charOffset byte = k) ∧
    (∀ k ≤ s.text.length, s.byteOffset k = (Utf8.encode (s.text.take k)).length) ∧
    ∀ n ≤ (Utf8.encode s.text).length,
      s.charOffset n = (Utf8.decodeLeniently ((Utf8.encode s.text).take n)).length := by
  rw [Utf8.length_encode]
  refine ⟨?_, ?_, s.strictMonoOn_byteOffset, fun byte hbyte => ?_,
    fun k hk => charOffset_byteOffset hk, fun k hk byte hbyte => charOffset_of_mem hk hbyte,
    fun k hk => ?_, fun n hn => ?_⟩
  · exact byteOffset_of_le (Nat.zero_le _)
  · rw [byteOffset_of_le (Nat.le_refl _), List.take_length]
  · obtain ⟨byte, rfl⟩ := Int.eq_ofNat_of_zero_le hbyte.1
    exact s.isGreatest_charOffset (Int.ofNat_le.mp hbyte.2)
  · rw [byteOffset_of_le hk, Utf8.length_encode]
  · rw [charOffset_of_le hn, Utf8.decodeLeniently_take_encode, List.length_take,
      Nat.min_eq_left (Text.wholeChars_le_length s.text n)]

/-- A price: a character of one byte, one of three, and a last one of one. -/
def price : Source :=
  ⟨['a', '€', ';'], .node ⟨.other "program", 0, 5, true, none⟩ []⟩

/-- All three bytes of `€` belong to the second character. -/
theorem bytes_of_euro_belong_to_it :
    (1 : ℤ) ∈ Set.Ico 0 (price.text.length : ℤ) ∧
    ∀ byte ∈ Set.Ico (1 : ℤ) 4, price.charOffset byte = 1 := by
  have hsecond : (1 : ℤ) ∈ Set.Ico 0 (price.text.length : ℤ) := ⟨by decide, by decide⟩
  have hstart : price.byteOffset 1 = 1 := by decide
  have hstop : price.byteOffset (1 + 1) = 4 := by decide
  obtain ⟨-, -, -, -, -, hinside, -⟩ := charOffset_is_floor price
  refine ⟨hsecond, fun byte hbyte => hinside 1 hsecond byte ?_⟩
  rwa [hstart, hstop]

end Source

end ChainGuard
