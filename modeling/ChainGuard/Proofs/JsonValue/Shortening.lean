import ChainGuard.JsonValue.Reader
import Mathlib.Data.List.Basic

/-!
# Reading JSON takes characters

Whatever is read at the front of a text leaves a shorter text. So an array or an object with more
items than the text has characters is never met, and the number of steps that `readItems` and
`readMembers` start with is never used up: more steps would give the same.
-/

namespace ChainGuard.JsonValue

variable {α β : Type}

/-- What is read leaves less than there was. -/
def Shortens (read : Text → Except Stop (α × Text)) : Prop :=
  ∀ ⦃t a tail⦄, read t = .ok (a, tail) → tail.length < t.length

theorem bind_eq_ok {x : Except Stop α} {f : α → Except Stop β} {b : β} (h : x >>= f = .ok b) :
    ∃ a, x = .ok a ∧ f a = .ok b := by
  cases x with
  | error e => cases h
  | ok a => exact ⟨a, rfl, h⟩

theorem length_skipBlanks_le (t : Text) : (skipBlanks t).length ≤ t.length :=
  (List.dropWhile_suffix _).length_le

theorem length_lt_of_skipBlanks {t rest : Text} {c : Char} (h : skipBlanks t = c :: rest) :
    rest.length < t.length := by
  have hle := length_skipBlanks_le t
  rw [h] at hle
  exact hle

/-! ## Strings -/

theorem unitEscape?_shortens : Shortens unitEscape? := by
  intro t c tail h
  unfold unitEscape? at h
  split at h
  · cases h
  split at h
  · cases h
  dsimp only at h
  split at h
  · next rest hrest =>
    have hlength := congrArg List.length hrest
    rw [List.length_drop, List.length_cons, List.length_cons] at hlength
    split at h
    · cases h
    split at h
    · obtain ⟨-, rfl⟩ := Prod.mk.inj (Except.ok.inj h)
      rw [List.length_drop]
      omega
    · cases h
      rw [List.length_drop]
      omega
  · cases h
    rw [List.length_drop]
    omega

theorem readChars_shortens (opened fuel : Nat) : Shortens (readChars opened fuel) := by
  induction fuel with
  | zero => exact fun _ _ _ h => nomatch h
  | succ fuel ih =>
    intro t chars tail h
    have hmore : ∀ {rest : Text} {c : Char}, rest.length < t.length →
        (readChars opened fuel rest >>= fun read => pure (c :: read.1, read.2)) =
          Except.ok (chars, tail) → tail.length < t.length := by
      intro rest c hlength h
      obtain ⟨⟨xs, after⟩, hread, hend⟩ := bind_eq_ok h
      cases hend
      exact Nat.lt_trans (ih hread) hlength
    rw [readChars.eq_def] at h
    dsimp only at h
    split at h
    · cases h
    split at h
    · cases h
      exact Nat.lt_succ_self _
    split at h
    · split at h
      · cases h
      split at h
      · obtain ⟨⟨c, more⟩, hescape, h⟩ := bind_eq_ok h
        have hshort := unitEscape?_shortens hescape
        exact hmore (by simp only [List.length_cons]; omega) h
      split at h
      · cases h
      · exact hmore (by simp only [List.length_cons]; omega) h
    split at h
    · cases h
    · exact hmore (Nat.lt_succ_self _) h

theorem readString_shortens : Shortens readString := by
  intro t s tail h
  obtain ⟨⟨chars, after⟩, hread, hend⟩ := bind_eq_ok h
  cases hend
  exact readChars_shortens _ _ hread

/-! ## Numbers and words -/

theorem digits_suffix (t : Text) : (digits t).2 <:+ t :=
  List.dropWhile_suffix _

theorem fraction_suffix (t : Text) : (fraction t).2 <:+ t := by
  unfold fraction
  split
  · dsimp only
    split
    · exact List.suffix_rfl
    · exact (digits_suffix _).trans (List.suffix_cons _ _)
  · exact List.suffix_rfl

theorem exponent_suffix (t : Text) : (exponent t).2 <:+ t := by
  unfold exponent
  split
  · next e rest =>
    split
    · have hbody : ∀ marked : Text × Text, marked.2 <:+ rest →
          (if (digits marked.2).1.isEmpty then ([], e :: rest)
            else (e :: marked.1 ++ (digits marked.2).1, (digits marked.2).2) : Text × Text).2 <:+
              e :: rest := by
        intro marked hsuffix
        split
        · exact List.suffix_rfl
        · exact ((digits_suffix _).trans hsuffix).trans (List.suffix_cons _ _)
      refine hbody _ ?_
      split
      · split
        · exact List.suffix_cons _ _
        · exact List.suffix_rfl
      · exact List.suffix_rfl
    · exact List.suffix_rfl
  · exact List.suffix_rfl

theorem length_integerPart_lt {t : Text} (h : (integerPart t).1.isEmpty = false) :
    (integerPart t).2.length < t.length := by
  unfold integerPart at h ⊢
  split at h
  · exact Nat.lt_succ_self _
  · have hparts := congrArg List.length
      (show t.takeWhile isAsciiDigit ++ t.dropWhile isAsciiDigit = t from
        List.takeWhile_append_dropWhile)
    have hpos : 0 < (t.takeWhile isAsciiDigit).length := by
      refine List.length_pos_iff.mpr fun hnil => ?_
      rw [digits, hnil] at h
      cases h
    rw [List.length_append] at hparts
    show (t.dropWhile isAsciiDigit).length < t.length
    omega

theorem minusSign_suffix (t : Text) : (minusSign t).2 <:+ t := by
  unfold minusSign
  split
  · exact List.suffix_cons _ _
  · exact List.suffix_rfl

theorem readNumber_shortens : Shortens readNumber := by
  intro t v tail h
  unfold readNumber at h
  dsimp only at h
  split at h
  · cases h
  · next hwhole =>
    have hless := length_integerPart_lt (Bool.eq_false_iff.mpr hwhole)
    have hrest := ((exponent_suffix _).trans
      (fraction_suffix (integerPart (minusSign t).2).2)).length_le
    have hle := (minusSign_suffix t).length_le
    split at h
    · split at h
      · cases h
        omega
      · cases h
    · cases h
      omega

theorem readLiteral?_shortens {t tail : Text} {v : JsonValue}
    (h : readLiteral? t = some (v, tail)) : tail.length < t.length := by
  obtain ⟨⟨word, value⟩, hmem, hword⟩ := List.exists_of_findSome?_eq_some h
  dsimp only at hword
  split at hword
  · next hprefix =>
    cases hword
    have hpos : 0 < word.toList.length := by
      have hall : ∀ entry ∈ literals, 0 < entry.1.toList.length := by decide
      exact hall _ hmem
    have hle := (List.isPrefixOf_iff_prefix.mp hprefix).length_le
    rw [List.length_drop]
    omega
  · cases hword

theorem readScalar_shortens : Shortens readScalar := by
  intro t v tail h
  unfold readScalar at h
  split at h
  · obtain ⟨⟨s, after⟩, hread, hend⟩ := bind_eq_ok h
    cases hend
    exact Nat.lt_succ_of_lt (readString_shortens hread)
  · split at h
    · next found hliteral =>
      cases h
      exact readLiteral?_shortens hliteral
    · exact readNumber_shortens h

/-! ## Arrays and objects -/

section

variable {value : Text → Except Stop (JsonValue × Text)} (hvalue : Shortens value)
include hvalue

theorem readItems_shortens (fuel : Nat) : Shortens (readItems value fuel) := by
  induction fuel with
  | zero => exact fun _ _ _ h => nomatch h
  | succ fuel ih =>
    intro t items tail h
    obtain ⟨⟨item, rest⟩, hitem, h⟩ := bind_eq_ok h
    have hfirst := hvalue hitem
    dsimp only at h
    split at h
    · next hend =>
      cases h
      exact Nat.lt_trans (length_lt_of_skipBlanks hend) hfirst
    · next more hcomma =>
      obtain ⟨⟨others, after⟩, hothers, hend⟩ := bind_eq_ok h
      obtain ⟨-, rfl⟩ := Prod.mk.inj (Except.ok.inj hend)
      have hless := ih hothers
      have hle := length_skipBlanks_le more
      have hmore := length_lt_of_skipBlanks hcomma
      dsimp only
      omega
    · cases h

theorem readMembers_shortens (fuel : Nat) : Shortens (readMembers value fuel) := by
  induction fuel with
  | zero => exact fun _ _ _ h => nomatch h
  | succ fuel ih =>
    intro t members tail h
    rw [readMembers.eq_def] at h
    dsimp only at h
    split at h
    · next rest =>
      obtain ⟨⟨key, named⟩, hkey, h⟩ := bind_eq_ok h
      have hname := readString_shortens hkey
      dsimp only at h
      split at h
      · next valued hcolon =>
        obtain ⟨⟨found, after⟩, hfound, h⟩ := bind_eq_ok h
        have hfirst := hvalue hfound
        have hle := length_skipBlanks_le valued
        have hmore := length_lt_of_skipBlanks hcolon
        dsimp only at h
        rw [List.length_cons]
        split at h
        · next hend =>
          cases h
          have hlast := length_lt_of_skipBlanks hend
          omega
        · next more hcomma =>
          obtain ⟨⟨others, last⟩, hothers, hend⟩ := bind_eq_ok h
          obtain ⟨-, rfl⟩ := Prod.mk.inj (Except.ok.inj hend)
          have hless := ih hothers
          have hblanks := length_skipBlanks_le more
          have hcommas := length_lt_of_skipBlanks hcomma
          dsimp only
          omega
        · cases h
      · cases h
    · cases h

theorem readArray_shortens : Shortens (readArray value) := by
  intro t v tail h
  unfold readArray at h
  split at h
  · next hend =>
    cases h
    exact length_lt_of_skipBlanks hend
  · obtain ⟨⟨items, after⟩, hitems, hend⟩ := bind_eq_ok h
    cases hend
    exact Nat.lt_of_lt_of_le (readItems_shortens hvalue _ hitems) (length_skipBlanks_le t)

theorem readObject_shortens : Shortens (readObject value) := by
  intro t v tail h
  unfold readObject at h
  split at h
  · next hend =>
    cases h
    exact length_lt_of_skipBlanks hend
  · obtain ⟨⟨members, after⟩, hmembers, hend⟩ := bind_eq_ok h
    cases hend
    exact Nat.lt_of_lt_of_le (readMembers_shortens hvalue _ hmembers) (length_skipBlanks_le t)

/-- The items of an array need no more steps than there are characters. -/
theorem readItems_eq {t : Text} {m n : Nat} (hm : t.length < m) (hn : t.length < n) :
    readItems value m t = readItems value n t := by
  induction m generalizing t n with
  | zero => exact absurd hm (Nat.not_lt_zero _)
  | succ m ih =>
    obtain ⟨n, rfl⟩ : ∃ k, n = k + 1 := ⟨n - 1, by omega⟩
    unfold readItems
    cases hitem : value t with
    | error e => rfl
    | ok found =>
      obtain ⟨item, rest⟩ := found
      have hfirst := hvalue hitem
      dsimp only [bind, Except.bind]
      split
      · rfl
      · next more hcomma =>
        have hmore := length_lt_of_skipBlanks hcomma
        have hle := length_skipBlanks_le more
        rw [ih (by omega) (by omega) (n := n)]
      · rfl

/-- The members of an object need no more steps than there are characters. -/
theorem readMembers_eq {t : Text} {m n : Nat} (hm : t.length < m) (hn : t.length < n) :
    readMembers value m t = readMembers value n t := by
  induction m generalizing t n with
  | zero => exact absurd hm (Nat.not_lt_zero _)
  | succ m ih =>
    obtain ⟨n, rfl⟩ : ∃ k, n = k + 1 := ⟨n - 1, by omega⟩
    rw [readMembers.eq_def, readMembers.eq_def]
    dsimp only
    split
    · next rest =>
      cases hkey : readString rest with
      | error e => rfl
      | ok found =>
        obtain ⟨key, named⟩ := found
        have hname := readString_shortens hkey
        dsimp only [bind, Except.bind]
        split
        · next valued hcolon =>
          have hvalued := length_lt_of_skipBlanks hcolon
          cases hfound : value (skipBlanks valued) with
          | error e => rfl
          | ok found =>
            obtain ⟨found, after⟩ := found
            have hfirst := hvalue hfound
            have hblanks := length_skipBlanks_le valued
            dsimp only
            split
            · rfl
            · next more hcomma =>
              have hmore := length_lt_of_skipBlanks hcomma
              have hle := length_skipBlanks_le more
              rw [List.length_cons] at hm hn
              rw [ih (by omega) (by omega) (n := n)]
            · rfl
        · rfl
    · rfl

end

/-- A value takes characters, however many levels are read. -/
theorem readValue_shortens (levels : Nat) : Shortens (readValue levels) := by
  have hrest : ∀ {t rest : Text} {c : Char} {v : JsonValue} {tail : Text}
      {read : Text → Except Stop (JsonValue × Text)}, Shortens read → t = c :: rest →
      read rest = .ok (v, tail) → tail.length < t.length := by
    rintro t rest c v tail read hread rfl h
    exact Nat.lt_succ_of_lt (hread h)
  induction levels with
  | zero =>
    intro t v tail h
    unfold readValue at h
    split at h
    · cases h
    · cases h
    · exact readScalar_shortens h
  | succ levels ih =>
    intro t v tail h
    unfold readValue at h
    split at h
    · exact hrest (readArray_shortens ih) rfl h
    · exact hrest (readObject_shortens ih) rfl h
    · exact readScalar_shortens h

/-- So the steps of an array are not used up, in a whole text and at any level of it. -/
theorem readArray_eq {levels : Nat} {rest : Text} {fuel : Nat} (hfuel : rest.length < fuel)
    (hopen : ∀ tail, skipBlanks rest ≠ ']' :: tail) :
    readArray (readValue levels) rest = (do
      let (items, tail) ← readItems (readValue levels) fuel (skipBlanks rest)
      pure (.array items, tail)) := by
  have hle := length_skipBlanks_le rest
  unfold readArray
  split
  · next tail heq => exact absurd heq (hopen tail)
  · rw [readItems_eq (readValue_shortens levels) (Nat.lt_succ_self _)
      (Nat.lt_of_le_of_lt hle hfuel)]

/-- The value that is missing is the one after the last bracket. -/
example : read 3 "[[[".toList = .error (.malformed .expectedValue 1 4 3) := rfl

theorem readObject_eq {levels : Nat} {rest : Text} {fuel : Nat} (hfuel : rest.length < fuel)
    (hopen : ∀ tail, skipBlanks rest ≠ '}' :: tail) :
    readObject (readValue levels) rest = (do
      let (members, tail) ← readMembers (readValue levels) fuel (skipBlanks rest)
      pure (.object (Dict.ofPairs members), tail)) := by
  have hle := length_skipBlanks_le rest
  unfold readObject
  split
  · next tail heq => exact absurd heq (hopen tail)
  · rw [readMembers_eq (readValue_shortens levels) (Nat.lt_succ_self _)
      (Nat.lt_of_le_of_lt hle hfuel)]

end ChainGuard.JsonValue
