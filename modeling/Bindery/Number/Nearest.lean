import Bindery.Number.Double

/-!
# The double nearest to a decimal

`Decimal` is `digits * 10 ^ exponent`.  `Decimal.nearest` is the double closest to it; of two
equally close ones it takes the one with the even significand, and what rounds to `2 ^ 1024` or
more is infinite.  All arithmetic is exact.
-/

namespace Bindery

/-- `num / den` rounded to the nearest natural, a half to the even neighbour. -/
def roundHalfEven (num den : Nat) : Nat :=
  let quotient := num / den
  let twice := 2 * (num % den)
  if twice < den then quotient
  else if den < twice then quotient + 1
  else if quotient % 2 = 0 then quotient else quotient + 1

/-- The rounded quotient is within half a unit of the exact one. -/
theorem roundHalfEven_near (num den : Nat) (h : 0 < den) :
    2 * (roundHalfEven num den * den) ≤ 2 * num + den ∧
      2 * num ≤ 2 * (roundHalfEven num den * den) + den := by
  have e : den * (num / den) + num % den = num := Nat.div_add_mod num den
  have l : num % den < den := Nat.mod_lt _ h
  simp only [roundHalfEven]
  generalize num / den = q at *
  generalize num % den = r at *
  have hq : (q + 1) * den = den * q + den := by rw [Nat.add_mul, Nat.mul_comm]; simp
  have hq0 : q * den = den * q := Nat.mul_comm ..
  generalize den * q = p at *
  split
  · omega
  · split
    · omega
    · split <;> omega

/-- the exponent of the greatest power of two that is at most `num / den` -/
def log2Ratio (num den : Nat) : Int :=
  let estimate : Int := (num.log2 : Int) - den.log2
  if den * Nat.pow 2 estimate.toNat ≤ num * Nat.pow 2 (-estimate).toNat then estimate else estimate - 1

/-- The magnitude of the double nearest to the positive number `num / den`, not below
`infinityBits` when the number is too large. -/
def nearestMagnitude (num den : Nat) : Nat :=
  let exponent := max (-1074) (log2Ratio num den - 52)
  let significand :=
    roundHalfEven (num * Nat.pow 2 (-exponent).toNat) (den * Nat.pow 2 exponent.toNat)
  (exponent + 1074).toNat * fractionCount + significand

/-- The number `digits * 10 ^ exponent`. -/
structure Decimal where
  digits : Nat
  exponent : Int
deriving DecidableEq

namespace Decimal

/-- The magnitude of the nearest double.  The first two cases need no arithmetic: a positive number
from `10 ^ 400` on is infinite, and one below `10 ^ (-400)` is zero. -/
def nearestMagnitude (d : Decimal) : Nat :=
  if d.digits = 0 then 0
  else if 400 < d.exponent then infinityBits
  else if d.exponent < -400 - d.digits.log2 then 0
  else Bindery.nearestMagnitude (d.digits * Nat.pow 10 d.exponent.toNat)
    (Nat.pow 10 (-d.exponent).toNat)

def nearest (negative : Bool) (d : Decimal) : Reading :=
  Reading.ofMagnitude negative d.nearestMagnitude

example : (nearest false ⟨1, -1⟩).bits = 0x3FB999999999999A := by decide +kernel
example : (nearest false ⟨9007199254740993, 0⟩).bits = 0x4340000000000000 := by decide +kernel
example : (nearest true ⟨5, -324⟩).bits = 0x8000000000000001 := by decide +kernel
example : (nearest false ⟨17976931348623159, 292⟩).bits = 0x7FF0000000000000 := by decide +kernel

end Decimal

end Bindery
