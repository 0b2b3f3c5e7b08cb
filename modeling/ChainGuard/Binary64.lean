/-!
# Binary floating point

Numbers with 53 significant bits and a least exponent of -1074, as exact values. A decimal is
rounded to the nearest such number, a tie to the one with an even mantissa. Nothing here computes
with floats.
-/

namespace ChainGuard

/-- A floating-point number. The finite ones are `mantissa * 2 ^ exponent`, with a sign. -/
inductive Binary64 where
  | finite (negative : Bool) (mantissa : Nat) (exponent : Int)
  | infinite (negative : Bool)
  | nan
  deriving DecidableEq, Repr

namespace Binary64

/-- The quotient rounded to the nearest integer, a tie to the even one. -/
def roundDiv (num den : Nat) : Nat :=
  let q := num / den
  let r := num % den
  if 2 * r < den then q
  else if den < 2 * r then q + 1
  else if q % 2 = 0 then q
  else q + 1

/-- `num / den` in units of `2 ^ scale`, as a quotient. -/
def scaled (num den : Nat) (scale : Int) : Nat × Nat :=
  if 0 ≤ scale then (num, den * Nat.pow 2 scale.toNat) else (num * Nat.pow 2 (-scale).toNat, den)

/-- The number nearest to the positive ratio `num / den`. -/
def ofRatio (negative : Bool) (num den : Nat) : Binary64 :=
  let low : Int := max ((num.log2 : Int) - den.log2 - 53) (-1074)
  let (a, b) := scaled num den low
  let scale := if Nat.pow 2 53 ≤ a / b then low + 1 else low
  let (a, b) := scaled num den scale
  let mantissa := roundDiv a b
  if 1024 ≤ (mantissa.log2 : Int) + scale then infinite negative else finite negative mantissa scale

/-- The number nearest to `digits * 10 ^ exponent`, where `digits` has `count` decimal digits. -/
def ofDecimal (negative : Bool) (digits count : Nat) (exponent : Int) : Binary64 :=
  if digits = 0 then finite negative 0 0
  else if 310 + count < exponent then infinite negative
  else if exponent + count < -330 then finite negative 0 0
  else if 0 ≤ exponent then ofRatio negative (digits * Nat.pow 10 exponent.toNat) 1
  else ofRatio negative digits (Nat.pow 10 (-exponent).toNat)

def isZero : Binary64 → Bool
  | finite _ mantissa _ => mantissa == 0
  | _ => false

/-- The integer part of a finite number. -/
def truncate (negative : Bool) (mantissa : Nat) (exponent : Int) : Int :=
  let magnitude : Nat :=
    if 0 ≤ exponent then mantissa * Nat.pow 2 exponent.toNat
    else mantissa / Nat.pow 2 (-exponent).toNat
  if negative then -(magnitude : Int) else magnitude

end Binary64

end ChainGuard
