import ChainGuard.Proofs.Text
import ChainGuard.Source

namespace ChainGuard.Source

theorem charAt_mono (s : Source) {a b : Nat} (h : a ≤ b) : s.charAt a ≤ s.charAt b := by
  unfold charAt
  split
  · exact h
  · exact Text.wholeChars_mono s.text h

/-- The byte position behind a beginning of the text is the character position behind it. -/
theorem charAt_utf8Length {s : Source} {a b : Text} (h : s.text = a ++ b) :
    s.charAt (Text.utf8Length a) = a.length := by
  unfold charAt
  rw [h]
  split
  · next hascii =>
    unfold Text.isAscii at hascii
    rw [List.all_append, Bool.and_eq_true] at hascii
    exact Text.utf8Length_of_isAscii hascii.1
  · exact Text.wholeChars_utf8Length a b

/-- The character position behind a beginning of the text is the byte position behind it. -/
theorem byteOffset_length {s : Source} {a b : Text} (h : s.text = a ++ b) :
    s.byteOffset a.length = Text.utf8Length a := by
  unfold byteOffset
  split
  · next hascii =>
    unfold Text.isAscii at hascii
    rw [h, List.all_append, Bool.and_eq_true] at hascii
    rw [Text.utf8Length_of_isAscii hascii.1]
  · have hcut : Text.cutEnd s.text.length a.length = a.length := by
      unfold Text.cutEnd
      rw [if_neg (by omega), Int.toNat_natCast]
    rw [hcut, h, List.take_left]

/-- The token behind a beginning of the text is the deepest node at the byte behind it, unless that
is the root. -/
theorem tokenAt?_length {s : Source} {a b : Text} (h : s.text = a ++ b)
    (hroot : (s.deepestAt (Text.utf8Length a)).isRoot = false) :
    s.tokenAt? a.length = some (s.deepestAt (Text.utf8Length a)) := by
  have hrange : ¬((a.length : Int) < 0 ∨ (s.text.length : Int) < a.length) := by
    rw [h, List.length_append]
    omega
  unfold tokenAt?
  rw [if_neg hrange, byteOffset_length h, Int.toNat_natCast]
  exact if_pos (by rw [hroot]; rfl)

end ChainGuard.Source
