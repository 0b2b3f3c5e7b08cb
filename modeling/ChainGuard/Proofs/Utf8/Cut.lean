import ChainGuard.Proofs.Text
import ChainGuard.Proofs.Utf8

/-!
# Bytes of a text, cut anywhere

The first bytes of a text may end within a character. A lenient reader passes over what it cannot
read, so it gives the characters that are whole, whatever the place of the cut.

1. `length_encode`: the bytes of a text are counted without writing them.
2. `decodeLeniently`: reading that passes over broken forms.
3. `follow_take`: a form that is cut off is truncated and not wrong.
   Main statement: `decodeLeniently_take_encode`.
-/

namespace ChainGuard.Utf8

/-! ## 1. Counting -/

theorem length_encodePoint (c : Char) : (encodePoint c.toNat).length = c.utf8Size := by
  have hsize : c.utf8Size = if c.toNat ≤ 0x7f then 1 else if c.toNat ≤ 0x7ff then 2
      else if c.toNat ≤ 0xffff then 3 else 4 := by
    simp only [Char.utf8Size, UInt32.le_iff_toNat_le, UInt32.toNat_ofNatLT]
    rfl
  rw [hsize]
  generalize c.toNat = n
  unfold encodePoint
  split
  · next h => rw [if_pos (Nat.le_of_lt_succ h)]; rfl
  split
  · next hone h => rw [if_neg (by omega), if_pos (Nat.le_of_lt_succ h)]; rfl
  split
  · next hone htwo h =>
    rw [if_neg (by omega), if_neg (by omega), if_pos (Nat.le_of_lt_succ h)]
    rfl
  · rw [if_neg (by omega), if_neg (by omega), if_neg (by omega)]
    rfl

theorem length_encode (t : Text) : (encode t).length = Text.utf8Length t := by
  induction t with
  | nil => rfl
  | cons c rest ih =>
    rw [encode_cons, List.length_append, length_encodePoint, ih, Text.utf8Length]

/-! ## 2. Lenient reading -/

/-- Read the characters of at most `fuel` forms and pass over broken ones, each of them as far as
it was sound. -/
def decodeLenientlyFrom : (fuel : Nat) → Bytes → Text
  | _, [] => []
  | 0, _ => []
  | fuel + 1, b :: rest =>
    match lead? b.toNat with
    | none => decodeLenientlyFrom fuel rest
    | some lead =>
      match follow lead.more lead.low lead.high lead.bits 1 rest with
      | .error (_, extent) => decodeLenientlyFrom fuel ((b :: rest).drop extent)
      | .ok (n, tail) => Char.ofNat n :: decodeLenientlyFrom fuel tail

/-- Read what can be read as characters, and pass over everything else. -/
def decodeLeniently (bytes : Bytes) : Text :=
  decodeLenientlyFrom bytes.length bytes

/-! ## 3. Cuts -/

/-- A form goes on for as many bytes as its first byte says. -/
theorem length_of_follow {more low high bits sound n : Nat} {bytes tail : Bytes}
    (h : follow more low high bits sound bytes = .ok (n, tail)) :
    bytes.length = more + tail.length := by
  induction more generalizing low high bits sound bytes with
  | zero =>
    obtain ⟨-, rfl⟩ := follow_zero_eq_ok h
    omega
  | succ more ih =>
    obtain ⟨b, rest, rfl, -, -, hrest⟩ := follow_succ_eq_ok h
    rw [List.length_cons, ih hrest]
    omega

/-- A form that ends too early is sound as far as it goes. -/
theorem follow_take {more low high bits sound n k : Nat} {bytes tail : Bytes}
    (h : follow more low high bits sound bytes = .ok (n, tail)) (hk : k < more) :
    follow more low high bits sound (bytes.take k) = .error (.truncated, sound + k) := by
  induction more generalizing low high bits sound bytes k with
  | zero => exact absurd hk (Nat.not_lt_zero k)
  | succ more ih =>
    obtain ⟨b, rest, rfl, hlow, hhigh, hrest⟩ := follow_succ_eq_ok h
    cases k with
    | zero => rfl
    | succ k =>
      rw [List.take_succ_cons, follow_cons ⟨hlow, hhigh⟩, ih hrest (Nat.lt_of_succ_lt_succ hk),
        Nat.add_right_comm, Nat.add_assoc]

/-- A whole character is read, and what follows it is read on its own. -/
theorem decodeLenientlyFrom_encodePoint (fuel : Nat) (c : Char) (tail : Bytes) :
    decodeLenientlyFrom (fuel + 1) (encodePoint c.toNat ++ tail) =
      c :: decodeLenientlyFrom fuel tail := by
  obtain ⟨b, rest, lead, hbytes, hlead, hfollow⟩ := follow_encodePoint c.valid tail
  have hchar : Char.ofNat c.val.toNat = c := Char.ofNat_toNat c
  rw [Char.toNat, hbytes, decodeLenientlyFrom, hlead]
  dsimp only
  rw [hfollow]
  dsimp only
  rw [hchar]

/-- Nothing is read from the beginning of a single character. -/
theorem decodeLenientlyFrom_take_encodePoint (fuel : Nat) (c : Char) {k : Nat}
    (hk : k < c.utf8Size) : decodeLenientlyFrom fuel ((encodePoint c.toNat).take k) = [] := by
  obtain ⟨b, rest, lead, hbytes, hlead, hfollow⟩ := follow_encodePoint c.valid []
  rw [List.append_nil, ← Char.toNat] at hbytes
  have hsize := length_encodePoint c
  have hlength := length_of_follow hfollow
  rw [hbytes, List.length_cons] at hsize
  rw [List.length_nil] at hlength
  cases k with
  | zero => cases fuel <;> rfl
  | succ k =>
    cases fuel with
    | zero => rw [hbytes]; rfl
    | succ fuel =>
      rw [hbytes, List.take_succ_cons, decodeLenientlyFrom, hlead]
      dsimp only
      rw [follow_take hfollow (by omega)]
      dsimp only
      have hnone : (b :: rest.take k).drop (1 + k) = [] := by
        rw [List.drop_eq_nil_iff, List.length_cons, List.length_take]
        omega
      rw [hnone]
      cases fuel <;> rfl

theorem decodeLenientlyFrom_take_encode {t : Text} {fuel k : Nat}
    (hfuel : ((encode t).take k).length ≤ fuel) :
    decodeLenientlyFrom fuel ((encode t).take k) = t.take (Text.wholeChars t k) := by
  induction t generalizing fuel k with
  | nil =>
    rw [encode, List.flatMap_nil, List.take_nil, List.take_nil]
    cases fuel <;> rfl
  | cons c rest ih =>
    have hsize := length_encodePoint c
    rw [encode_cons] at hfuel ⊢
    rw [Text.wholeChars]
    split
    · next hwhole =>
      have hpos := c.utf8Size_pos
      rw [List.take_append, List.take_of_length_le (hsize ▸ hwhole), hsize] at hfuel ⊢
      rw [List.length_append, hsize] at hfuel
      obtain ⟨fuel, rfl⟩ : ∃ n, fuel = n + 1 := ⟨fuel - 1, by omega⟩
      rw [decodeLenientlyFrom_encodePoint, ih (by omega), List.take_succ_cons]
    · next hcut =>
      have hcut := Nat.not_le.mp hcut
      rw [List.take_append_of_le_length (hsize ▸ Nat.le_of_lt hcut),
        decodeLenientlyFrom_take_encodePoint fuel c hcut, List.take_zero]

/-- From the first bytes of a text exactly those characters are read that are whole within them. -/
theorem decodeLeniently_take_encode (t : Text) (k : Nat) :
    decodeLeniently ((encode t).take k) = t.take (Text.wholeChars t k) :=
  decodeLenientlyFrom_take_encode (Nat.le_refl _)

end ChainGuard.Utf8
