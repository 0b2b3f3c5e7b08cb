import ChainGuard.Utf8

/-!
# Encoding and decoding

`decode` reads back what `encode` writes, and nothing else: every text survives the way to bytes and
back, and bytes that are a text at all are the bytes of that text.

1. Bytes by their numbers, forms by what their bytes hold.
2. `encodePoint_of_follow`, `follow_encodePoint`: the form of a code point is what is read as it.
3. `decode_eq_ok_iff`: whole texts.
-/

namespace ChainGuard.Utf8

/-! ## 1. Bytes -/

theorem toNat_ofNat {n : Nat} (h : n < 0x100) : (UInt8.ofNat n).toNat = n :=
  UInt8.toNat_ofNat_of_lt' h

theorem toNat_continuation (n : Nat) : (continuation n).toNat = 0x80 + n % 0x40 :=
  toNat_ofNat (by omega)

theorem eq_ofNat {b : UInt8} {n : Nat} (h : b.toNat = n) : b = UInt8.ofNat n := by
  rw [← h, UInt8.ofNat_toNat]

theorem eq_continuation {b : UInt8} {n : Nat} (h : b.toNat = 0x80 + n % 0x40) :
    b = continuation n :=
  eq_ofNat h

theorem encodePoint_one {b : UInt8} {n : Nat} (hn : n < 0x80) (hb : b.toNat = n) :
    encodePoint n = [b] := by
  rw [encodePoint, if_pos hn, eq_ofNat hb]

theorem encodePoint_two {b x : UInt8} {n : Nat} (hn : 0x80 ≤ n ∧ n < 0x800)
    (hb : b.toNat = 0xc0 + n / 0x40) (hx : x.toNat = 0x80 + n % 0x40) : encodePoint n = [b, x] := by
  rw [encodePoint, if_neg (by omega), if_pos hn.2, eq_ofNat hb, eq_continuation hx]

theorem encodePoint_three {b x y : UInt8} {n : Nat} (hn : 0x800 ≤ n ∧ n < 0x10000)
    (hb : b.toNat = 0xe0 + n / 0x1000) (hx : x.toNat = 0x80 + n / 0x40 % 0x40)
    (hy : y.toNat = 0x80 + n % 0x40) : encodePoint n = [b, x, y] := by
  rw [encodePoint, if_neg (by omega), if_neg (by omega), if_pos hn.2, eq_ofNat hb,
    eq_continuation hx, eq_continuation hy]

theorem encodePoint_four {b x y z : UInt8} {n : Nat} (hn : 0x10000 ≤ n)
    (hb : b.toNat = 0xf0 + n / 0x40000) (hx : x.toNat = 0x80 + n / 0x1000 % 0x40)
    (hy : y.toNat = 0x80 + n / 0x40 % 0x40) (hz : z.toNat = 0x80 + n % 0x40) :
    encodePoint n = [b, x, y, z] := by
  rw [encodePoint, if_neg (by omega), if_neg (by omega), if_neg (by omega), eq_ofNat hb,
    eq_continuation hx, eq_continuation hy, eq_continuation hz]

/-! ## 2. Forms -/

theorem follow_cons {more low high bits sound : Nat} {b : UInt8} {rest : Bytes}
    (h : low ≤ b.toNat ∧ b.toNat ≤ high) :
    follow (more + 1) low high bits sound (b :: rest) =
      follow more 0x80 0xbf (bits * 0x40 + (b.toNat - 0x80)) (sound + 1) rest := by
  rw [follow, if_pos h]

theorem follow_zero_eq_ok {low high bits sound n : Nat} {bytes tail : Bytes}
    (h : follow 0 low high bits sound bytes = .ok (n, tail)) : n = bits ∧ bytes = tail := by
  cases h
  exact ⟨rfl, rfl⟩

theorem follow_succ_eq_ok {more low high bits sound n : Nat} {bytes tail : Bytes}
    (h : follow (more + 1) low high bits sound bytes = .ok (n, tail)) :
    ∃ b rest, bytes = b :: rest ∧ low ≤ b.toNat ∧ b.toNat ≤ high ∧
      follow more 0x80 0xbf (bits * 0x40 + (b.toNat - 0x80)) (sound + 1) rest = .ok (n, tail) := by
  cases bytes with
  | nil => cases h
  | cons b rest =>
    rw [follow] at h
    split at h
    · next hrange => exact ⟨b, rest, rfl, hrange.1, hrange.2, h⟩
    · cases h

theorem follow_two_eq_ok {low high bits sound n : Nat} {bytes tail : Bytes}
    (h : follow 2 low high bits sound bytes = .ok (n, tail)) :
    ∃ x y, bytes = x :: y :: tail ∧ (low ≤ x.toNat ∧ x.toNat ≤ high) ∧
      (0x80 ≤ y.toNat ∧ y.toNat ≤ 0xbf) ∧
      n = (bits * 0x40 + (x.toNat - 0x80)) * 0x40 + (y.toNat - 0x80) := by
  obtain ⟨x, rest, rfl, hlow, hhigh, h⟩ := follow_succ_eq_ok h
  obtain ⟨y, rest, rfl, hy, hy', h⟩ := follow_succ_eq_ok h
  obtain ⟨hn, rfl⟩ := follow_zero_eq_ok h
  exact ⟨x, y, rfl, ⟨hlow, hhigh⟩, ⟨hy, hy'⟩, hn⟩

theorem follow_three_eq_ok {low high bits sound n : Nat} {bytes tail : Bytes}
    (h : follow 3 low high bits sound bytes = .ok (n, tail)) :
    ∃ x y z, bytes = x :: y :: z :: tail ∧ (low ≤ x.toNat ∧ x.toNat ≤ high) ∧
      (0x80 ≤ y.toNat ∧ y.toNat ≤ 0xbf) ∧ (0x80 ≤ z.toNat ∧ z.toNat ≤ 0xbf) ∧
      n = ((bits * 0x40 + (x.toNat - 0x80)) * 0x40 + (y.toNat - 0x80)) * 0x40 +
        (z.toNat - 0x80) := by
  obtain ⟨x, rest, rfl, hlow, hhigh, h⟩ := follow_succ_eq_ok h
  obtain ⟨y, z, rfl, hy, hz, hn⟩ := follow_two_eq_ok h
  exact ⟨x, y, z, rfl, ⟨hlow, hhigh⟩, hy, hz, hn⟩

/-- The form of three bytes is the shortest one and no surrogate, since its first byte bounds the
second. -/
theorem encodePoint_of_three {b x y : UInt8} {n : Nat} (hb : 0xe0 ≤ b.toNat ∧ b.toNat < 0xf0)
    (hx : 0x80 ≤ x.toNat ∧ x.toNat ≤ 0xbf) (hy : 0x80 ≤ y.toNat ∧ y.toNat ≤ 0xbf)
    (hshortest : b.toNat = 0xe0 → 0xa0 ≤ x.toNat) (hwhole : b.toNat = 0xed → x.toNat ≤ 0x9f)
    (hn : n = ((b.toNat - 0xe0) * 0x40 + (x.toNat - 0x80)) * 0x40 + (y.toNat - 0x80)) :
    n.isValidChar ∧ encodePoint n = [b, x, y] := by
  refine ⟨?_, encodePoint_three (by omega) (by omega) (by omega) (by omega)⟩
  unfold Nat.isValidChar
  omega

theorem encodePoint_of_four {b x y z : UInt8} {n : Nat} (hb : 0xf0 ≤ b.toNat ∧ b.toNat ≤ 0xf4)
    (hx : 0x80 ≤ x.toNat ∧ x.toNat ≤ 0xbf) (hy : 0x80 ≤ y.toNat ∧ y.toNat ≤ 0xbf)
    (hz : 0x80 ≤ z.toNat ∧ z.toNat ≤ 0xbf) (hshortest : b.toNat = 0xf0 → 0x90 ≤ x.toNat)
    (hlast : b.toNat = 0xf4 → x.toNat ≤ 0x8f)
    (hn : n = (((b.toNat - 0xf0) * 0x40 + (x.toNat - 0x80)) * 0x40 + (y.toNat - 0x80)) * 0x40 +
      (z.toNat - 0x80)) :
    n.isValidChar ∧ encodePoint n = [b, x, y, z] := by
  refine ⟨?_, encodePoint_four (by omega) (by omega) (by omega) (by omega) (by omega)⟩
  unfold Nat.isValidChar
  omega

/-- A form of three bytes, for any bounds of the second byte that keep it shortest and whole. -/
theorem encodePoint_of_follow_two {b : UInt8} {rest tail : Bytes} {n : Nat} (low high : Nat)
    (hlow : 0x80 ≤ low) (hhigh : high ≤ 0xbf) (hb : 0xe0 ≤ b.toNat ∧ b.toNat < 0xf0)
    (hshortest : b.toNat = 0xe0 → 0xa0 ≤ low) (hwhole : b.toNat = 0xed → high ≤ 0x9f)
    (hread : follow 2 low high (b.toNat - 0xe0) 1 rest = .ok (n, tail)) :
    n.isValidChar ∧ b :: rest = encodePoint n ++ tail := by
  obtain ⟨x, y, rfl, hx, hy, hn⟩ := follow_two_eq_ok hread
  obtain ⟨hvalid, hform⟩ := encodePoint_of_three hb (by omega) hy (by omega) (by omega) hn
  rw [hform]
  exact ⟨hvalid, rfl⟩

/-- A form of four bytes, for any bounds of the second byte that keep it shortest and in range. -/
theorem encodePoint_of_follow_three {b : UInt8} {rest tail : Bytes} {n : Nat} (low high : Nat)
    (hlow : 0x80 ≤ low) (hhigh : high ≤ 0xbf) (hb : 0xf0 ≤ b.toNat ∧ b.toNat ≤ 0xf4)
    (hshortest : b.toNat = 0xf0 → 0x90 ≤ low) (hlast : b.toNat = 0xf4 → high ≤ 0x8f)
    (hread : follow 3 low high (b.toNat - 0xf0) 1 rest = .ok (n, tail)) :
    n.isValidChar ∧ b :: rest = encodePoint n ++ tail := by
  obtain ⟨x, y, z, rfl, hx, hy, hz, hn⟩ := follow_three_eq_ok hread
  obtain ⟨hvalid, hform⟩ := encodePoint_of_four hb (by omega) hy hz (by omega) (by omega) hn
  rw [hform]
  exact ⟨hvalid, rfl⟩

/-- What is read as a code point is the form of that code point. -/
theorem encodePoint_of_follow {b : UInt8} {rest tail : Bytes} {lead : Lead} {n : Nat}
    (h : lead? b.toNat = some lead)
    (hfollow : follow lead.more lead.low lead.high lead.bits 1 rest = .ok (n, tail)) :
    n.isValidChar ∧ b :: rest = encodePoint n ++ tail := by
  unfold lead? at h
  split at h
  · next hb =>
    obtain rfl := Option.some.inj h
    obtain ⟨hn, rfl⟩ := follow_zero_eq_ok hfollow
    rw [hn, encodePoint_one hb rfl]
    exact ⟨Or.inl (Nat.lt_trans hb (by decide)), rfl⟩
  split at h
  · cases h
  split at h
  · next hb =>
    obtain rfl := Option.some.inj h
    obtain ⟨x, rest, rfl, hlow, hhigh, hread⟩ := follow_succ_eq_ok hfollow
    obtain ⟨hn, rfl⟩ := follow_zero_eq_ok hread
    dsimp only at hn hlow hhigh
    have hbound : n < 0x800 := by omega
    rw [encodePoint_two (b := b) (x := x) ⟨by omega, hbound⟩ (by omega) (by omega)]
    exact ⟨Or.inl (Nat.lt_trans hbound (by decide)), rfl⟩
  split at h
  · next hb =>
    obtain rfl := Option.some.inj h
    exact encodePoint_of_follow_two 0xa0 0xbf (by decide) (by decide) (by omega)
      (by omega) (by omega) (by rw [hb]; exact hfollow)
  split at h
  · next hb =>
    obtain rfl := Option.some.inj h
    exact encodePoint_of_follow_two 0x80 0x9f (by decide) (by decide) (by omega)
      (by omega) (by omega) (by rw [hb]; exact hfollow)
  split at h
  · obtain rfl := Option.some.inj h
    exact encodePoint_of_follow_two 0x80 0xbf (by decide) (by decide) (by omega)
      (by omega) (by omega) hfollow
  split at h
  · next hb =>
    obtain rfl := Option.some.inj h
    exact encodePoint_of_follow_three 0x90 0xbf (by decide) (by decide) (by omega)
      (by omega) (by omega) (by rw [hb]; exact hfollow)
  split at h
  · obtain rfl := Option.some.inj h
    exact encodePoint_of_follow_three 0x80 0xbf (by decide) (by decide) (by omega)
      (by omega) (by omega) hfollow
  split at h
  · next hb =>
    obtain rfl := Option.some.inj h
    exact encodePoint_of_follow_three 0x80 0x8f (by decide) (by decide) (by omega)
      (by omega) (by omega) (by rw [hb]; exact hfollow)
  · cases h

theorem lead?_three {b x : Nat} (hb : 0xe0 ≤ b ∧ b < 0xf0) (hx : 0x80 ≤ x ∧ x ≤ 0xbf)
    (hshortest : b = 0xe0 → 0xa0 ≤ x) (hwhole : b = 0xed → x ≤ 0x9f) :
    ∃ lead, lead? b = some lead ∧ lead.more = 2 ∧ lead.bits = b - 0xe0 ∧
      (lead.low ≤ x ∧ x ≤ lead.high) := by
  unfold lead?
  rw [if_neg (by omega), if_neg (by omega), if_neg (by omega)]
  by_cases hfirst : b = 0xe0
  · rw [if_pos hfirst]
    exact ⟨_, rfl, rfl, by rw [hfirst], hshortest hfirst, hx.2⟩
  rw [if_neg hfirst]
  by_cases hsurrogates : b = 0xed
  · rw [if_pos hsurrogates]
    exact ⟨_, rfl, rfl, by rw [hsurrogates], hx.1, hwhole hsurrogates⟩
  rw [if_neg hsurrogates, if_pos hb.2]
  exact ⟨_, rfl, rfl, rfl, hx⟩

theorem lead?_four {b x : Nat} (hb : 0xf0 ≤ b ∧ b ≤ 0xf4) (hx : 0x80 ≤ x ∧ x ≤ 0xbf)
    (hshortest : b = 0xf0 → 0x90 ≤ x) (hlast : b = 0xf4 → x ≤ 0x8f) :
    ∃ lead, lead? b = some lead ∧ lead.more = 3 ∧ lead.bits = b - 0xf0 ∧
      (lead.low ≤ x ∧ x ≤ lead.high) := by
  unfold lead?
  rw [if_neg (by omega), if_neg (by omega), if_neg (by omega), if_neg (by omega),
    if_neg (by omega), if_neg (by omega)]
  by_cases hfirst : b = 0xf0
  · rw [if_pos hfirst]
    exact ⟨_, rfl, rfl, by rw [hfirst], hshortest hfirst, hx.2⟩
  rw [if_neg hfirst]
  by_cases hinner : b < 0xf4
  · rw [if_pos hinner]
    exact ⟨_, rfl, rfl, rfl, hx⟩
  have hend : b = 0xf4 := by omega
  rw [if_neg hinner, if_pos hend]
  exact ⟨_, rfl, rfl, by rw [hend], hx.1, hlast hend⟩

/-- The form of a code point is read as that code point, and nothing after it is touched. -/
theorem follow_encodePoint {n : Nat} (hn : n.isValidChar) (tail : Bytes) :
    ∃ b rest lead, encodePoint n ++ tail = b :: rest ∧ lead? b.toNat = some lead ∧
      follow lead.more lead.low lead.high lead.bits 1 rest = .ok (n, tail) := by
  unfold Nat.isValidChar at hn
  unfold encodePoint
  split
  · next hone =>
    refine ⟨_, _, { bits := n, more := 0 }, rfl, ?_, rfl⟩
    rw [toNat_ofNat (by omega), lead?, if_pos hone]
  split
  · next hone htwo =>
    refine ⟨_, _, { bits := n / 0x40, more := 1 }, rfl, ?_, ?_⟩
    · rw [toNat_ofNat (by omega), lead?, if_neg (by omega), if_neg (by omega), if_pos (by omega),
        Nat.add_sub_cancel_left]
    · have hx := toNat_continuation n
      show follow 1 0x80 0xbf (n / 0x40) 1 (continuation n :: tail) = _
      rw [follow_cons (by omega), hx]
      exact congrArg (fun k => Except.ok (k, tail)) (by omega)
  split
  · next hone htwo hthree =>
    have hb : (UInt8.ofNat (0xe0 + n / 0x1000)).toNat = 0xe0 + n / 0x1000 := toNat_ofNat (by omega)
    have hx := toNat_continuation (n / 0x40)
    have hy := toNat_continuation n
    obtain ⟨lead, hlead, hmore, hbits, hrange⟩ := lead?_three (b := 0xe0 + n / 0x1000)
      (x := (continuation (n / 0x40)).toNat) (by omega) (by omega) (by omega) (by omega)
    refine ⟨_, _, lead, rfl, by rw [hb, hlead], ?_⟩
    rw [hmore, hbits]
    show follow 2 _ _ _ 1 (continuation (n / 0x40) :: continuation n :: tail) = _
    rw [follow_cons hrange, follow_cons (by omega), hx, hy]
    exact congrArg (fun k => Except.ok (k, tail)) (by omega)
  · next hone htwo hthree =>
    have hb : (UInt8.ofNat (0xf0 + n / 0x40000)).toNat = 0xf0 + n / 0x40000 :=
      toNat_ofNat (by omega)
    have hx := toNat_continuation (n / 0x1000)
    have hy := toNat_continuation (n / 0x40)
    have hz := toNat_continuation n
    obtain ⟨lead, hlead, hmore, hbits, hrange⟩ := lead?_four (b := 0xf0 + n / 0x40000)
      (x := (continuation (n / 0x1000)).toNat) (by omega) (by omega) (by omega) (by omega)
    refine ⟨_, _, lead, rfl, by rw [hb, hlead], ?_⟩
    rw [hmore, hbits]
    show follow 3 _ _ _ 1
      (continuation (n / 0x1000) :: continuation (n / 0x40) :: continuation n :: tail) = _
    rw [follow_cons hrange, follow_cons (by omega), follow_cons (by omega), hx, hy, hz]
    exact congrArg (fun k => Except.ok (k, tail)) (by omega)

/-! ## 3. Texts -/

theorem toNat_ofNatAux {n : Nat} (h : n.isValidChar) : (Char.ofNatAux n h).toNat = n :=
  UInt32.toNat_ofNatLT ..

theorem encodePoint_ne_nil (n : Nat) : encodePoint n ≠ [] := by
  unfold encodePoint
  repeat' split
  all_goals exact List.cons_ne_nil _ _

theorem encode_cons (c : Char) (t : Text) : encode (c :: t) = encodePoint c.toNat ++ encode t :=
  rfl

theorem length_le_length_encode (t : Text) : t.length ≤ (encode t).length := by
  induction t with
  | nil => exact Nat.le_refl 0
  | cons c rest ih =>
    have hpos := List.length_pos_iff.mpr (encodePoint_ne_nil c.toNat)
    rw [encode_cons, List.length_append, List.length_cons]
    omega

theorem decodeFrom_encode {t : Text} {fuel : Nat} (h : t.length ≤ fuel) (position : Nat) :
    decodeFrom fuel position (encode t) = .ok t := by
  induction t generalizing fuel position with
  | nil => cases fuel <;> rfl
  | cons c rest ih =>
    obtain ⟨fuel, rfl⟩ : ∃ k, fuel = k + 1 := ⟨fuel - 1, by rw [List.length_cons] at h; omega⟩
    obtain ⟨b, bytes, lead, hbytes, hlead, hfollow⟩ := follow_encodePoint c.valid (encode rest)
    have hchar : Char.ofNat c.val.toNat = c := Char.ofNat_toNat c
    rw [encode_cons, Char.toNat, hbytes, decodeFrom, hlead]
    dsimp only
    rw [hfollow]
    dsimp only
    rw [ih (Nat.le_of_succ_le_succ h), hchar]
    rfl

theorem encode_of_decodeFrom {fuel position : Nat} {bytes : Bytes} {t : Text}
    (hfuel : bytes.length ≤ fuel) (h : decodeFrom fuel position bytes = .ok t) :
    encode t = bytes := by
  induction fuel generalizing position bytes t with
  | zero =>
    rw [List.length_eq_zero_iff.mp (Nat.le_zero.mp hfuel)] at h ⊢
    cases h
    rfl
  | succ fuel ih =>
    cases bytes with
    | nil =>
      cases h
      rfl
    | cons b rest =>
      rw [decodeFrom] at h
      cases hlead : lead? b.toNat with
      | none =>
        rw [hlead] at h
        cases h
      | some lead =>
        rw [hlead] at h
        dsimp only at h
        split at h
        · cases h
        · next n tail hfollow =>
          obtain ⟨hvalid, hform⟩ := encodePoint_of_follow hlead hfollow
          cases hrest : decodeFrom fuel (position + lead.more + 1) tail with
          | error e =>
            rw [hrest] at h
            cases h
          | ok others =>
            rw [hrest] at h
            cases h
            have hlength := congrArg List.length hform
            have hpos := List.length_pos_iff.mpr (encodePoint_ne_nil n)
            rw [List.length_append, List.length_cons] at hlength
            rw [List.length_cons] at hfuel
            rw [encode_cons, Char.ofNat, dif_pos hvalid, toNat_ofNatAux, ih (by omega) hrest,
              hform]

/-- Bytes are read as a text exactly if they are the bytes of that text. -/
theorem decode_eq_ok_iff {bytes : Bytes} {t : Text} : decode bytes = .ok t ↔ encode t = bytes := by
  constructor
  · exact encode_of_decodeFrom (Nat.le_refl _)
  · rintro rfl
    exact decodeFrom_encode (length_le_length_encode t) 0

@[simp]
theorem decode_encode (t : Text) : decode (encode t) = .ok t :=
  decode_eq_ok_iff.mpr rfl

end ChainGuard.Utf8
