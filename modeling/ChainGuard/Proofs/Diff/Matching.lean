import ChainGuard.Diff.Matching
import Mathlib.Data.List.TakeWhile

/-!
# What the matching finds

The blocks that are found stand in both sequences, one after the other. Whether they are the
longest does not matter for this. Equal sequences have one block, the whole of them.

1. `Block.Fits`: a block of equal elements within two ranges. `Matching.longest_fits`: the longest
   block is one.
2. `Block.Ascend`: blocks one after the other. `Matching.blocks_ascend`: all blocks.
3. `Matching.blocks_self`: equal sequences. A block of anchors off the diagonal is never longer than
   the ones on the diagonal that were met before.
-/

namespace ChainGuard

namespace Matching

variable {α : Type} [DecidableEq α]

theorem mem_positions {x : α} {xs : List α} {j : Nat} : j ∈ positions x xs ↔ xs[j]? = some x := by
  rw [positions, List.mem_filterMap]
  constructor
  · rintro ⟨⟨y, k⟩, hmem, heq⟩
    rw [List.mem_zipIdx_iff_getElem?] at hmem
    rw [Option.ite_none_right_eq_some] at heq
    obtain ⟨rfl, ⟨⟩⟩ := heq
    exact hmem
  · intro h
    exact ⟨(x, j), List.mem_zipIdx_iff_getElem?.mpr h, if_pos rfl⟩

theorem getElem?_anchors {old new : List α} {i : Nat} {places : List Nat}
    (h : (anchors old new)[i]? = some places) : ∃ x, old[i]? = some x ∧
      places = if isRare new.length (positions x new).length then positions x new else [] := by
  rw [anchors, List.getElem?_map, Option.map_eq_some_iff] at h
  obtain ⟨x, hx, hplaces⟩ := h
  exact ⟨x, hx, hplaces.symm⟩

/-- An anchor stands at its places in the new sequence. -/
theorem getElem?_of_mem_anchors {old new : List α} {i j : Nat} {places : List Nat}
    (h : (anchors old new)[i]? = some places) (hj : j ∈ places) : old[i]? = new[j]? := by
  obtain ⟨x, hx, rfl⟩ := getElem?_anchors h
  split at hj
  · rw [hx, mem_positions.mp hj]
  · cases hj

end Matching

/-! ## 1. One block -/

open Matching (Ranges)

/-- The block has equal elements, and lies within the ranges. -/
structure Block.Fits {α : Type} (old new : List α) (r : Ranges) (b : Block) : Prop where
  oldLow : r.oldLow ≤ b.old
  newLow : r.newLow ≤ b.new
  oldHigh : b.old + b.size ≤ r.oldHigh
  newHigh : b.new + b.size ≤ r.newHigh
  equal : ∀ k < b.size, old[b.old + k]? = new[b.new + k]?

namespace Matching

section

variable {α : Type} {old new : List α} {r : Ranges} {i j s : Nat}

/-- A block of the given size ends at two positions. -/
structure EndsAt (old new : List α) (r : Ranges) (i j s : Nat) : Prop where
  old_le : s ≤ i
  new_le : s ≤ j
  fits : Block.Fits old new r ⟨i - s, j - s, s⟩

theorem endsAt_zero (hi : r.oldLow ≤ i) (hi' : i ≤ r.oldHigh) (hj : r.newLow ≤ j)
    (hj' : j ≤ r.newHigh) : EndsAt old new r i j 0 where
  old_le := Nat.zero_le i
  new_le := Nat.zero_le j
  fits := ⟨hi, hj, hi', hj', fun k hk => absurd hk (Nat.not_lt_zero k)⟩

/-- A block goes on with equal elements. -/
theorem EndsAt.succ (h : EndsAt old new r i j s) (hi : i < r.oldHigh) (hj : j < r.newHigh)
    (hequal : old[i]? = new[j]?) : EndsAt old new r (i + 1) (j + 1) (s + 1) := by
  obtain ⟨hold, hnew, ⟨holdLow, hnewLow, -, -, hsame⟩⟩ := h
  dsimp only at holdLow hnewLow hsame
  have hi' : i + 1 - (s + 1) = i - s := by omega
  have hj' : j + 1 - (s + 1) = j - s := by omega
  refine ⟨by omega, by omega, ?_⟩
  rw [hi', hj']
  refine ⟨holdLow, hnewLow, by dsimp only; omega, by dsimp only; omega, fun k hk => ?_⟩
  rcases Nat.lt_succ_iff_lt_or_eq.mp hk with hk | rfl
  · exact hsame k hk
  · rwa [Nat.sub_add_cancel hold, Nat.sub_add_cancel hnew]

end

/-- An entry of the next row starts anew or goes on from the row before. -/
theorem mem_nextRow {row : Row} {js : List Nat} {j s : Nat} (h : (j, s) ∈ nextRow row js) :
    j ∈ js ∧ (s = 1 ∨ ∃ place size, (place, size) ∈ row ∧ place + 1 = j ∧ s = size + 1) := by
  induction js generalizing row with
  | nil => cases h
  | cons first js ih =>
    have hsub : row.dropWhile (·.1 + 1 < first) ⊆ row := (List.dropWhile_sublist _).subset
    rw [nextRow] at h
    rcases List.mem_cons.mp h with heq | h
    · cases heq
      refine ⟨List.mem_cons_self, ?_⟩
      cases hrow : row.dropWhile (·.1 + 1 < j) with
      | nil => exact Or.inl rfl
      | cons entry rest =>
        obtain ⟨place, size⟩ := entry
        rw [hrow] at hsub
        dsimp only
        split
        · next hplace => exact Or.inr ⟨place, size, hsub List.mem_cons_self, hplace, rfl⟩
        · exact Or.inl rfl
    · obtain ⟨hj, hs⟩ := ih h
      refine ⟨List.mem_cons_of_mem first hj, hs.imp_right ?_⟩
      rintro ⟨place, size, hmem, hentry⟩
      exact ⟨place, size, hsub hmem, hentry⟩

theorem map_fst_nextRow (row : Row) (js : List Nat) : (nextRow row js).map Prod.fst = js := by
  induction js generalizing row with
  | nil => rfl
  | cons j js ih => rw [nextRow, List.map_cons, ih]

theorem better_cons (i : Nat) (best : Block) (j s : Nat) (row : Row) :
    better i best ((j, s) :: row) =
      better i (if best.size < s then ⟨i + 1 - s, j + 1 - s, s⟩ else best) row :=
  rfl

/-- The better block is the one so far or one of the row. -/
theorem better_cases (i : Nat) (best : Block) (row : Row) : better i best row = best ∨
    ∃ j s, (j, s) ∈ row ∧ better i best row = ⟨i + 1 - s, j + 1 - s, s⟩ := by
  induction row generalizing best with
  | nil => exact Or.inl rfl
  | cons entry row ih =>
    obtain ⟨j, s⟩ := entry
    rw [better_cons]
    rcases ih (if best.size < s then ⟨i + 1 - s, j + 1 - s, s⟩ else best) with
      heq | ⟨j', s', hmem, heq⟩
    · rw [heq]
      split
      · exact Or.inr ⟨j, s, List.mem_cons_self, rfl⟩
      · exact Or.inl rfl
    · exact Or.inr ⟨j', s', List.mem_cons_of_mem _ hmem, heq⟩

section

variable {α : Type} {old new : List α} {r : Ranges}

/-- The search meets only blocks of equal elements. -/
theorem search_fits {i : Nat} {row : Row} {best : Block} {places : List (List Nat)}
    (hi : r.oldLow ≤ i) (hhigh : i + places.length ≤ r.oldHigh)
    (hplaces : ∀ k js, places[k]? = some js → ∀ j ∈ js, old[i + k]? = new[j]?)
    (hrow : ∀ j s, (j, s) ∈ row → EndsAt old new r i (j + 1) s) (hbest : best.Fits old new r) :
    (search r.newLow r.newHigh i row best places).Fits old new r := by
  induction places generalizing i row best with
  | nil => exact hbest
  | cons js places ih =>
    rw [List.length_cons] at hhigh
    have hrow' : ∀ j s, (j, s) ∈ nextRow row (js.filter fun j => r.newLow ≤ j && j < r.newHigh) →
        EndsAt old new r (i + 1) (j + 1) s := by
      intro j s hmem
      obtain ⟨hj, hs⟩ := mem_nextRow hmem
      obtain ⟨hj, hrange⟩ := List.mem_filter.mp hj
      rw [Bool.and_eq_true, decide_eq_true_iff, decide_eq_true_iff] at hrange
      have hequal := hplaces 0 js rfl j hj
      rcases hs with rfl | ⟨place, size, hplace, rfl, rfl⟩
      · exact (endsAt_zero hi (by omega) hrange.1 (Nat.le_of_lt hrange.2)).succ (by omega)
          hrange.2 hequal
      · exact (hrow place size hplace).succ (by omega) hrange.2 hequal
    refine ih (Nat.le_succ_of_le hi) (by omega) (fun k js' hk j hj => ?_) hrow' ?_
    · have hequal := hplaces (k + 1) js' hk j hj
      rwa [← Nat.add_assoc, Nat.add_right_comm] at hequal
    · rcases better_cases i best (nextRow row _) with heq | ⟨j, s, hmem, heq⟩
      · rwa [heq]
      · rw [heq]
        exact (hrow' j s hmem).fits

variable [DecidableEq α]

theorem equalBefore_spec (old new : List α) {room i j : Nat} (hi : room ≤ i) (hj : room ≤ j) :
    equalBefore old new room i j ≤ room ∧ ∀ k < equalBefore old new room i j,
      old[i - equalBefore old new room i j + k]? =
        new[j - equalBefore old new room i j + k]? := by
  induction room generalizing i j with
  | zero => exact ⟨Nat.le_refl 0, fun k hk => absurd hk (Nat.not_lt_zero k)⟩
  | succ room ih =>
    rw [equalBefore]
    split
    · next hequal =>
      obtain ⟨hle, hsame⟩ := ih (i := i - 1) (j := j - 1) (by omega) (by omega)
      generalize equalBefore old new room (i - 1) (j - 1) = n at hle hsame
      have hi' : i - (n + 1) = i - 1 - n := by omega
      have hj' : j - (n + 1) = j - 1 - n := by omega
      refine ⟨by omega, fun k hk => ?_⟩
      rw [hi', hj']
      rcases Nat.lt_succ_iff_lt_or_eq.mp hk with hk | rfl
      · exact hsame k hk
      · rwa [Nat.sub_add_cancel (by omega), Nat.sub_add_cancel (by omega)]
    · exact ⟨Nat.zero_le _, fun k hk => absurd hk (Nat.not_lt_zero k)⟩

theorem equalAfter_spec (old new : List α) (room i j : Nat) :
    equalAfter old new room i j ≤ room ∧
      ∀ k < equalAfter old new room i j, old[i + k]? = new[j + k]? := by
  induction room generalizing i j with
  | zero => exact ⟨Nat.le_refl 0, fun k hk => absurd hk (Nat.not_lt_zero k)⟩
  | succ room ih =>
    rw [equalAfter]
    split
    · next hequal =>
      obtain ⟨hle, hsame⟩ := ih (i + 1) (j + 1)
      refine ⟨by omega, fun k hk => ?_⟩
      cases k with
      | zero => exact hequal
      | succ k =>
        have hnext := hsame k (by omega)
        rwa [Nat.add_assoc, Nat.add_assoc, Nat.add_comm 1 k] at hnext
    · exact ⟨Nat.zero_le _, fun k hk => absurd hk (Nat.not_lt_zero k)⟩

/-- The ranges lie within the sequences. -/
structure Ranges.Valid (old new : List α) (r : Ranges) : Prop where
  old_le : r.oldLow ≤ r.oldHigh
  new_le : r.newLow ≤ r.newHigh
  oldHigh_le : r.oldHigh ≤ old.length
  newHigh_le : r.newHigh ≤ new.length

/-- The longest block of anchors, before it takes in its neighbours. -/
def seed (places : List (List Nat)) (r : Ranges) : Block :=
  search r.newLow r.newHigh r.oldLow [] ⟨r.oldLow, r.newLow, 0⟩
    ((places.take r.oldHigh).drop r.oldLow)

theorem seed_fits (hr : r.Valid old new) : (seed (anchors old new) r).Fits old new r := by
  refine search_fits (Nat.le_refl _) ?_ (fun k js hk j hj => ?_) (fun j s h => nomatch h) ?_
  · rw [List.length_drop, List.length_take]
    have hle := hr.old_le
    omega
  · rw [List.getElem?_drop] at hk
    rw [List.getElem?_take, Option.ite_none_right_eq_some] at hk
    exact getElem?_of_mem_anchors hk.2 hj
  · exact ⟨Nat.le_refl _, Nat.le_refl _, hr.old_le, hr.new_le,
      fun k hk => absurd hk (Nat.not_lt_zero k)⟩

/-- A block with its equal neighbours. -/
def widen (old new : List α) (r : Ranges) (b : Block) : Block :=
  let before := equalBefore old new (min (b.old - r.oldLow) (b.new - r.newLow)) b.old b.new
  let oldEnd := b.old + b.size
  let newEnd := b.new + b.size
  let after := equalAfter old new (min (r.oldHigh - oldEnd) (r.newHigh - newEnd)) oldEnd newEnd
  ⟨b.old - before, b.new - before, before + b.size + after⟩

theorem longest_eq (old new : List α) (places : List (List Nat)) (r : Ranges) :
    longest old new places r = widen old new r (seed places r) :=
  rfl

theorem widen_fits {b : Block} (h : b.Fits old new r) : (widen old new r b).Fits old new r := by
  obtain ⟨holdLow, hnewLow, holdHigh, hnewHigh, hequal⟩ := h
  have hroomOld : min (b.old - r.oldLow) (b.new - r.newLow) ≤ b.old := by omega
  have hroomNew : min (b.old - r.oldLow) (b.new - r.newLow) ≤ b.new := by omega
  obtain ⟨hbefore, hsameBefore⟩ := equalBefore_spec old new hroomOld hroomNew
  obtain ⟨hafter, hsameAfter⟩ := equalAfter_spec old new
    (min (r.oldHigh - (b.old + b.size)) (r.newHigh - (b.new + b.size))) (b.old + b.size)
    (b.new + b.size)
  unfold widen
  dsimp only
  generalize equalBefore old new _ b.old b.new = before at hbefore hsameBefore ⊢
  generalize equalAfter old new _ (b.old + b.size) (b.new + b.size) = after at hafter hsameAfter ⊢
  refine ⟨by dsimp only; omega, by dsimp only; omega, by dsimp only; omega,
    by dsimp only; omega, fun k hk => ?_⟩
  dsimp only at hk ⊢
  by_cases hfront : k < before
  · exact hsameBefore k hfront
  · by_cases hmiddle : k - before < b.size
    · have hsame := hequal (k - before) hmiddle
      rwa [show b.old + (k - before) = b.old - before + k by omega,
        show b.new + (k - before) = b.new - before + k by omega] at hsame
    · have hsame := hsameAfter (k - before - b.size) (by omega)
      rwa [show b.old + b.size + (k - before - b.size) = b.old - before + k by omega,
        show b.new + b.size + (k - before - b.size) = b.new - before + k by omega] at hsame

theorem longest_fits (hr : r.Valid old new) :
    (longest old new (anchors old new) r).Fits old new r := by
  rw [longest_eq]
  exact widen_fits (seed_fits hr)

end

end Matching

/-! ## 2. All blocks -/

namespace Block

variable {α : Type} {old new : List α} {b c : Block}

/-- The block is a stretch of both sequences, and not empty. -/
structure IsCommon (old new : List α) (b : Block) : Prop where
  pos : 0 < b.size
  old_le : b.old + b.size ≤ old.length
  new_le : b.new + b.size ≤ new.length
  equal : ∀ k < b.size, old[b.old + k]? = new[b.new + k]?

/-- Two blocks that touch each other are one block. -/
theorem IsCommon.join (hb : b.IsCommon old new) (hc : c.IsCommon old new)
    (hold : b.old + b.size = c.old) (hnew : b.new + b.size = c.new) :
    IsCommon old new { b with size := b.size + c.size } where
  pos := Nat.add_pos_left hb.pos _
  old_le := by
    have hle := hc.old_le
    dsimp only
    omega
  new_le := by
    have hle := hc.new_le
    dsimp only
    omega
  equal k hk := by
    dsimp only at hk ⊢
    by_cases hfirst : k < b.size
    · exact hb.equal k hfirst
    · have hsame := hc.equal (k - b.size) (by omega)
      rwa [show c.old + (k - b.size) = b.old + k by omega,
        show c.new + (k - b.size) = b.new + k by omega] at hsame

/-- Common blocks follow each other in both sequences, from two positions to two positions. -/
inductive Ascend (old new : List α) (oldEnd newEnd : Nat) : (i j : Nat) → List Block → Prop where
  | nil {i j} : i ≤ oldEnd → j ≤ newEnd → Ascend old new oldEnd newEnd i j []
  | cons {i j b rest} : i ≤ b.old → j ≤ b.new → b.IsCommon old new →
      Ascend old new oldEnd newEnd (b.old + b.size) (b.new + b.size) rest →
      Ascend old new oldEnd newEnd i j (b :: rest)

/-- Blocks before a block, the block, and blocks after it. -/
theorem Ascend.append {i j oldEnd newEnd : Nat} {left right : List Block}
    (hleft : Ascend old new b.old b.new i j left) (hb : b.IsCommon old new)
    (hright : Ascend old new oldEnd newEnd (b.old + b.size) (b.new + b.size) right) :
    Ascend old new oldEnd newEnd i j (left ++ b :: right) := by
  induction hleft with
  | nil hi hj => exact .cons hi hj hb hright
  | cons hi hj hc _ ih => exact .cons hi hj hc ih

theorem Ascend.join {i j oldEnd newEnd : Nat} {blocks : List Block}
    (h : Ascend old new oldEnd newEnd i j blocks) :
    Ascend old new oldEnd newEnd i j (Matching.join blocks) := by
  induction h with
  | nil hi hj => exact .nil hi hj
  | @cons i j b rest hi hj hb _ ih =>
    rw [Matching.join]
    cases hrest : Matching.join rest with
    | nil =>
      rw [hrest] at ih
      exact .cons hi hj hb ih
    | cons c more =>
      rw [hrest] at ih
      dsimp only
      split
      · next htouch =>
        cases ih with
        | cons _ _ hc hmore =>
          refine .cons hi hj (hb.join hc htouch.1 htouch.2) ?_
          rwa [← Nat.add_assoc, ← Nat.add_assoc, htouch.1, htouch.2]
      · exact .cons hi hj hb ih

end Block

namespace Matching

variable {α : Type} [DecidableEq α]

theorem blocksIn_ascend {old new : List α} (fuel : Nat) {r : Ranges} (hr : r.Valid old new) :
    Block.Ascend old new r.oldHigh r.newHigh r.oldLow r.newLow
      (blocksIn old new (anchors old new) fuel r) := by
  induction fuel generalizing r with
  | zero => exact .nil hr.old_le hr.new_le
  | succ fuel ih =>
    have hnone : Block.Ascend old new r.oldHigh r.newHigh r.oldLow r.newLow [] :=
      .nil hr.old_le hr.new_le
    rw [blocksIn]
    split
    · have hb := longest_fits hr
      dsimp only
      generalize longest old new (anchors old new) r = b at hb ⊢
      split
      · exact hnone
      · next hsize =>
        have holdHigh := hr.oldHigh_le
        have hnewHigh := hr.newHigh_le
        have holdEnd := hb.oldHigh
        have hnewEnd := hb.newHigh
        have hleft := ih (r := { r with oldHigh := b.old, newHigh := b.new })
          ⟨hb.oldLow, hb.newLow, by dsimp only; omega, by dsimp only; omega⟩
        have hright := ih (r := { r with oldLow := b.old + b.size, newLow := b.new + b.size })
          ⟨hb.oldHigh, hb.newHigh, holdHigh, hnewHigh⟩
        exact hleft.append ⟨by omega, by omega, by omega, hb.equal⟩ hright
    · exact hnone

/-- The blocks of two sequences follow each other from their starts to their ends. -/
theorem blocks_ascend (old new : List α) :
    Block.Ascend old new old.length new.length 0 0 (blocks old new) :=
  (blocksIn_ascend (old.length + 1) (r := ⟨0, old.length, 0, new.length⟩)
    ⟨Nat.zero_le _, Nat.zero_le _, Nat.le_refl _, Nat.le_refl _⟩).join

/-! ## 3. Equal sequences -/

section

variable {xs : List α} {places : List (List Nat)} {row : Row} {best : Block} {i j s : Nat}

/-- The number of anchors directly before a position. -/
def streak (places : List (List Nat)) : Nat → Nat
  | 0 => 0
  | i + 1 => if (places[i]?.getD []).isEmpty then 0 else streak places i + 1

theorem streak_succ {js : List Nat} (h : places[i]? = some js) (hj : j ∈ js) :
    streak places (i + 1) = streak places i + 1 := by
  have hne : js.isEmpty = false := List.isEmpty_eq_false_iff.mpr (List.ne_nil_of_mem hj)
  rw [streak, h, Option.getD_some, hne, if_neg Bool.false_ne_true]

/-- An entry of a row goes on in the next row, if both are in order. -/
theorem mem_nextRow_of_mem {js : List Nat} {place size : Nat}
    (hrow : (row.map Prod.fst).Pairwise (· < ·)) (hjs : js.Pairwise (· < ·))
    (hmem : (place, size) ∈ row) (hj : place + 1 ∈ js) :
    (place + 1, size + 1) ∈ nextRow row js := by
  induction js generalizing row with
  | nil => cases hj
  | cons first js ih =>
    obtain ⟨hfirst, hjs⟩ := List.pairwise_cons.mp hjs
    rw [nextRow]
    rcases List.mem_cons.mp hj with rfl | hj
    · obtain ⟨front, back, rfl⟩ := List.append_of_mem hmem
      rw [List.map_append, List.map_cons, List.pairwise_append] at hrow
      have hdrop : (front ++ (place, size) :: back).dropWhile (·.1 + 1 < place + 1) =
          (place, size) :: back := by
        rw [List.dropWhile_append_of_pos, List.dropWhile_cons_of_neg]
        · simp
        · intro entry hentry
          have hlt := hrow.2.2 entry.1 (List.mem_map_of_mem hentry) place List.mem_cons_self
          exact decide_eq_true (Nat.succ_lt_succ hlt)
      rw [hdrop]
      dsimp only
      rw [if_pos rfl]
      exact List.mem_cons_self
    · have hlater := hfirst _ hj
      have hsuffix : row.dropWhile (·.1 + 1 < first) <:+ row := List.dropWhile_suffix _
      refine List.mem_cons_of_mem _ (ih ?_ hjs ?_ hj)
      · exact hrow.sublist (hsuffix.sublist.map _)
      · rw [← List.takeWhile_append_dropWhile (p := fun entry => decide (entry.1 + 1 < first))
          (l := row)] at hmem
        refine (List.mem_append.mp hmem).resolve_left fun hfront => ?_
        have hsmall : place + 1 < first := by simpa using List.mem_takeWhile_imp hfront
        omega

/-- The row of a position in two equal sequences: in order, with no block longer than the anchors
before either end, and with the block on the diagonal. -/
structure OnDiagonal (places : List (List Nat)) (i : Nat) (row : Row) : Prop where
  sorted : (row.map Prod.fst).Pairwise (· < ·)
  short : ∀ j s, (j, s) ∈ row → s ≤ streak places i ∧ s ≤ streak places (j + 1)
  diagonal : ∀ k, i = k + 1 → 0 < streak places i → (k, streak places i) ∈ row

/-- The best block lies on the diagonal, and is no shorter than the anchors before any position. -/
structure IsDiagonal (places : List (List Nat)) (i : Nat) (best : Block) : Prop where
  same : best.old = best.new
  long : ∀ k ≤ i, streak places k ≤ best.size

theorem pairwise_positions (x : α) (xs : List α) : (positions x xs).Pairwise (· < ·) := by
  have hzip : xs.zipIdx.Pairwise fun a b => a.2 < b.2 := by
    have hrange : (xs.zipIdx.map Prod.snd).Pairwise (· < ·) := by
      rw [List.zipIdx_map_snd]
      exact List.pairwise_lt_range'
    exact List.pairwise_map.mp hrange
  refine hzip.filterMap _ fun a b hlt j hj k hk => ?_
  rw [Option.ite_none_right_eq_some] at hj hk
  cases hj.2
  cases hk.2
  exact hlt

theorem pairwise_of_anchors {js : List Nat} (h : (anchors xs xs)[i]? = some js) :
    js.Pairwise (· < ·) := by
  obtain ⟨x, -, rfl⟩ := getElem?_anchors h
  split
  · exact pairwise_positions x xs
  · exact .nil

/-- The places of an anchor of equal sequences are anchors with the same places. -/
theorem anchors_of_mem {js : List Nat} (h : (anchors xs xs)[i]? = some js) (hj : j ∈ js) :
    (anchors xs xs)[j]? = some js := by
  have hequal := getElem?_of_mem_anchors h hj
  rw [anchors, List.getElem?_map] at h ⊢
  rw [← hequal, h]

/-- An anchor of equal sequences is at one of its places. -/
theorem mem_anchors_self {js : List Nat} (h : (anchors xs xs)[i]? = some js) (hne : js ≠ []) :
    i ∈ js := by
  obtain ⟨x, hx, rfl⟩ := getElem?_anchors h
  split at hne
  · next hrare =>
    rw [if_pos hrare]
    exact mem_positions.mpr hx
  · exact absurd rfl hne

theorem lt_of_mem_anchors {js : List Nat} (h : (anchors xs xs)[i]? = some js) (hj : j ∈ js) :
    j < xs.length := by
  have hj' := anchors_of_mem h hj
  rw [anchors, List.getElem?_map, Option.map_eq_some_iff] at hj'
  obtain ⟨x, hx, -⟩ := hj'
  exact (List.getElem?_eq_some_iff.mp hx).1

theorem OnDiagonal.next {js : List Nat} (h : OnDiagonal (anchors xs xs) i row)
    (hi : (anchors xs xs)[i]? = some js) :
    OnDiagonal (anchors xs xs) (i + 1) (nextRow row js) := by
  have hshort : ∀ j s, (j, s) ∈ nextRow row js → 0 < s ∧ s ≤ streak (anchors xs xs) (i + 1) ∧
      s ≤ streak (anchors xs xs) (j + 1) := by
    intro j s hmem
    obtain ⟨hj, hs⟩ := mem_nextRow hmem
    rw [streak_succ hi hj, streak_succ (anchors_of_mem hi hj) hj]
    rcases hs with rfl | ⟨place, size, hplace, rfl, rfl⟩
    · omega
    · have hsize := h.short place size hplace
      omega
  refine ⟨?_, fun j s hmem => (hshort j s hmem).2, fun k hk hpos => ?_⟩
  · rw [map_fst_nextRow]
    exact pairwise_of_anchors hi
  · cases hk
    have hself : i ∈ js := by
      refine mem_anchors_self hi ?_
      rintro rfl
      rw [streak, hi] at hpos
      exact absurd hpos (Nat.lt_irrefl 0)
    rw [streak_succ hi hself]
    rcases Nat.eq_zero_or_pos (streak (anchors xs xs) i) with hzero | hbefore
    · have hfst : i ∈ (nextRow row js).map Prod.fst := by rwa [map_fst_nextRow]
      obtain ⟨⟨j, s⟩, hmem, rfl⟩ := List.mem_map.mp hfst
      have hs := hshort j s hmem
      rw [streak_succ hi hself, hzero] at hs
      rw [hzero]
      rwa [show s = 1 by omega] at hmem
    · cases i with
      | zero => exact absurd hbefore (Nat.lt_irrefl 0)
      | succ i =>
        exact mem_nextRow_of_mem h.sorted (pairwise_of_anchors hi) (h.diagonal i rfl hbefore) hself

/-- A block off the diagonal is not better: the block on the diagonal that ends at the same place
was met before it, and is no shorter. -/
theorem IsDiagonal.better (h : IsDiagonal places i best)
    (hsorted : (row.map Prod.fst).Pairwise (· < ·))
    (hshort : ∀ j s, (j, s) ∈ row → s ≤ streak places (i + 1) ∧ s ≤ streak places (j + 1))
    (hreach : streak places (i + 1) ≤ best.size ∨ (i, streak places (i + 1)) ∈ row) :
    IsDiagonal places (i + 1) (better i best row) := by
  induction row generalizing best with
  | nil =>
    have hhere := hreach.resolve_right (fun hmem => nomatch hmem)
    refine ⟨h.same, fun k hk => ?_⟩
    rcases Nat.le_succ_iff.mp hk with hk | rfl
    · exact h.long k hk
    · exact hhere
  | cons entry row ih =>
    obtain ⟨j, s⟩ := entry
    obtain ⟨hfirst, hbehind⟩ := List.pairwise_cons.mp hsorted
    have hs := hshort j s List.mem_cons_self
    have hrest : ∀ j s, (j, s) ∈ row → _ := fun j s hmem => hshort j s (List.mem_cons_of_mem _ hmem)
    have hhere : best.size < s → j = i := by
      intro hlonger
      have hge : i ≤ j := by
        by_contra hlt
        have hlong := h.long (j + 1) (by omega)
        omega
      rcases hreach with hreach | hmem
      · omega
      · rcases List.mem_cons.mp hmem with heq | hmem
        · cases heq
          rfl
        · have hlater := hfirst i (List.mem_map_of_mem hmem)
          dsimp only at hlater
          omega
    rw [better_cons]
    split
    · next hlonger =>
      cases hhere hlonger
      refine ih ⟨rfl, fun k hk => Nat.le_trans (h.long k hk) (Nat.le_of_lt hlonger)⟩ hbehind
        hrest ?_
      rcases hreach with hreach | hmem
      · exact Or.inl (Nat.le_trans hreach (Nat.le_of_lt hlonger))
      · rcases List.mem_cons.mp hmem with heq | hmem
        · cases heq
          exact Or.inl (Nat.le_refl _)
        · exact Or.inr hmem
    · next hshorter =>
      refine ih h hbehind hrest ?_
      rcases hreach with hreach | hmem
      · exact Or.inl hreach
      · rcases List.mem_cons.mp hmem with heq | hmem
        · cases heq
          exact Or.inl (Nat.not_lt.mp hshorter)
        · exact Or.inr hmem

theorem search_isDiagonal {rest : List (List Nat)} (hrest : rest = (anchors xs xs).drop i)
    (hrow : OnDiagonal (anchors xs xs) i row) (hbest : IsDiagonal (anchors xs xs) i best) :
    (search 0 xs.length i row best rest).old = (search 0 xs.length i row best rest).new := by
  induction rest generalizing i row best with
  | nil => exact hbest.same
  | cons js rest ih =>
    have hi : (anchors xs xs)[i]? = some js := by
      have hhead := congrArg (·[0]?) hrest
      rw [List.getElem?_drop] at hhead
      exact hhead.symm
    have hfilter : js.filter (fun j => 0 ≤ j && j < xs.length) = js := by
      rw [List.filter_eq_self]
      intro j hj
      rw [Bool.and_eq_true, decide_eq_true_iff, decide_eq_true_iff]
      exact ⟨Nat.zero_le j, lt_of_mem_anchors hi hj⟩
    have hnext := hrow.next hi
    rw [search, hfilter]
    refine ih ?_ hnext (hbest.better hnext.sorted hnext.short ?_)
    · rw [← List.drop_drop, ← hrest, List.drop_one, List.tail_cons]
    · rcases Nat.eq_zero_or_pos (streak (anchors xs xs) (i + 1)) with hzero | hpos
      · exact Or.inl (hzero ▸ Nat.zero_le _)
      · exact Or.inr (hnext.diagonal i rfl hpos)

theorem equalBefore_self (xs : List α) (room i : Nat) : equalBefore xs xs room i i = room := by
  induction room generalizing i with
  | zero => rfl
  | succ room ih => rw [equalBefore, if_pos rfl, ih]

theorem equalAfter_self (xs : List α) (room i : Nat) : equalAfter xs xs room i i = room := by
  induction room generalizing i with
  | zero => rfl
  | succ room ih => rw [equalAfter, if_pos rfl, ih]

/-- The longest block of equal sequences is the whole of them. -/
theorem longest_self (xs : List α) :
    longest xs xs (anchors xs xs) ⟨0, xs.length, 0, xs.length⟩ = ⟨0, 0, xs.length⟩ := by
  have hvalid : Ranges.Valid xs xs ⟨0, xs.length, 0, xs.length⟩ :=
    ⟨Nat.zero_le _, Nat.zero_le _, Nat.le_refl _, Nat.le_refl _⟩
  have hfits := seed_fits hvalid
  have hsame : (seed (anchors xs xs) ⟨0, xs.length, 0, xs.length⟩).old =
      (seed (anchors xs xs) ⟨0, xs.length, 0, xs.length⟩).new := by
    refine search_isDiagonal ?_ ⟨.nil, (fun j s h => nomatch h), ?_⟩ ⟨rfl, fun k hk => ?_⟩
    · rw [List.take_of_length_le]
      rw [anchors, List.length_map]
    · rintro k ⟨⟩
    · rw [Nat.le_zero.mp hk]
      exact Nat.le_refl 0
  have hend := hfits.oldHigh
  rw [longest_eq]
  generalize seed (anchors xs xs) ⟨0, xs.length, 0, xs.length⟩ = b at hsame hend
  obtain ⟨i, j, size⟩ := b
  cases hsame
  unfold widen
  dsimp only at hend ⊢
  rw [equalBefore_self, equalAfter_self, Block.mk.injEq]
  omega

theorem blocksIn_of_empty {old new : List α} {fuel : Nat} {r : Ranges}
    (h : ¬(r.oldLow < r.oldHigh ∧ r.newLow < r.newHigh)) :
    blocksIn old new places fuel r = [] := by
  cases fuel with
  | zero => rfl
  | succ fuel => rw [blocksIn, if_neg h]

theorem blocks_self (hne : xs ≠ []) : blocks xs xs = [⟨0, 0, xs.length⟩] := by
  have hpos := List.length_pos_iff.mpr hne
  rw [blocks, blocksIn, if_pos ⟨hpos, hpos⟩, longest_self]
  dsimp only
  rw [if_neg (Nat.ne_of_gt hpos), blocksIn_of_empty fun h => Nat.lt_irrefl 0 h.1,
    blocksIn_of_empty fun h => Nat.lt_irrefl xs.length (by simpa using h.1)]
  rfl

end

end Matching

end ChainGuard
