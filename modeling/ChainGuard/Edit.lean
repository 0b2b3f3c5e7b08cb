import ChainGuard.Text

/-!
# Edits

An edit replaces a range of a text. Its range is ordered by construction.

* `ofRange?` refuses a range that starts below zero or ends before it starts.
* `applyAll` applies a batch from right to left, so that the positions of the edits still to come
  stay valid. Edits that start at the same position are applied in the order of the batch.
* `distinct` drops repeated edits and keeps the order of first sight.
-/

namespace ChainGuard

/-- Replace the characters from `start` up to `stop` by `text`. -/
structure Edit where
  start : Nat
  stop : Nat
  text : Text
  start_le_stop : start ≤ stop := by omega
  deriving DecidableEq

namespace Edit

/-- The edit with the given range, if the range is one. -/
def ofRange? (start stop : Int) (text : Text) : Option Edit :=
  if h : 0 ≤ start ∧ start ≤ stop then
    some ⟨start.toNat, stop.toNat, text, by omega⟩
  else
    none

def replaceByMarker (pos : Nat) : Edit :=
  ⟨pos, pos + 1, Text.marker, by omega⟩

def insertMarker (pos : Nat) : Edit :=
  ⟨pos, pos, Text.marker, Nat.le_refl pos⟩

def apply (e : Edit) (t : Text) : Text :=
  t.take e.start ++ e.text ++ t.drop e.stop

/-- The batch in the order of application: the rightmost start first. -/
def rightToLeft (es : List Edit) : List Edit :=
  es.mergeSort fun a b => decide (b.start ≤ a.start)

def applyAll (t : Text) (es : List Edit) : Text :=
  (rightToLeft es).foldl (fun out e => e.apply out) t

/-- The batch without repetitions, in the order of first sight. -/
def distinct (es : List Edit) : List Edit :=
  es.eraseDups

end Edit

end ChainGuard
