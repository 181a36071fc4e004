import Bindery.Number.Nearest

/-!
# The fewest digits that read back

The reals that round to a double form an interval, its ends included exactly when the significand
is even.  `Double.shortest` is the decimal with the fewest digits in that interval; of several it is
the one closest to the double, and `Tie` decides between two equally close ones.

The search runs over grids: with `n` digits the grid is `10 ^ (k - n)`, where `k` is the number of
digits before the point, and only the two neighbours of the double on it can be closest.
-/

namespace Bindery

inductive Tie where
  | toEven
  | up
deriving DecidableEq

namespace Decimal

/-- `digits * 10 ^ exponent` compared with `n * 2 ^ j`. -/
def compareScaled (d : Decimal) (n : Nat) (j : Int) : Ordering :=
  compare (d.digits * Nat.pow 10 d.exponent.toNat * Nat.pow 2 (-j).toNat)
    (n * Nat.pow 2 j.toNat * Nat.pow 10 (-d.exponent).toNat)

/-- The same number with no zero at the end of the digits.  `fuel` bounds the zeros taken off. -/
def stripZeros : Nat → Decimal → Decimal
  | 0, d => d
  | fuel + 1, d =>
    if d.digits % 10 = 0 then stripZeros fuel ⟨d.digits / 10, d.exponent + 1⟩ else d

end Decimal

namespace Double

/-- The decimal lies among the reals that round to the double. -/
def readsBack (x : Double) (d : Decimal) : Bool :=
  let lower := if x.isNarrowBelow then 4 * x.significand - 1 else 4 * x.significand - 2
  let low := d.compareScaled lower (x.exponent - 2)
  let high := d.compareScaled (4 * x.significand + 2) (x.exponent - 2)
  if x.significand % 2 = 0 then low != .lt && high != .gt else low == .gt && high == .lt

/-- numerator and denominator of the double divided by `10 ^ e` -/
def overPowerOfTen (x : Double) (e : Int) : Nat × Nat :=
  (x.significand * Nat.pow 2 x.exponent.toNat * Nat.pow 10 (-e).toNat,
    Nat.pow 2 (-x.exponent).toNat * Nat.pow 10 e.toNat)

/-- The least `k` with `|x| < 10 ^ k`, for `x` other than zero.  The binary logarithm gives it up to
one step. -/
def wholeDigits (x : Double) : Int :=
  let estimate := ((x.significand.log2 + x.exponent) * 30103) / 100000
  let fits (k : Int) : Bool := (overPowerOfTen x k).1 < (overPowerOfTen x k).2
  if fits estimate then estimate
  else if fits (estimate + 1) then estimate + 1
  else estimate + 2

/-- The closest decimal with `n` digits that reads back, if one does. -/
def closestWithDigits? (x : Double) (tie : Tie) (n : Nat) : Option Decimal :=
  let e := x.wholeDigits - n
  let (num, den) := x.overPowerOfTen e
  let low : Decimal := ⟨num / den, e⟩
  let high : Decimal := ⟨num / den + 1, e⟩
  match x.readsBack low, x.readsBack high with
  | true, false => some low
  | false, true => some high
  | false, false => none
  | true, true =>
    match compare (2 * (num % den)) den, tie with
    | .lt, _ => some low
    | .gt, _ => some high
    | .eq, .up => some high
    | .eq, .toEven => some (if low.digits % 2 = 0 then low else high)

def exactDecimal (x : Double) : Decimal :=
  if 0 ≤ x.exponent then ⟨x.significand * Nat.pow 2 x.exponent.toNat, 0⟩
  else ⟨x.significand * Nat.pow 5 (-x.exponent).toNat, x.exponent⟩

/-- The shortest decimal that reads back, without zeros at its end.  Zero has the digit 0. -/
def shortest (x : Double) (tie : Tie) : Decimal :=
  if x.isZero then ⟨0, 0⟩
  else
    let found := ((List.range 17).findSome? fun i => x.closestWithDigits? tie (i + 1)).getD x.exactDecimal
    found.stripZeros 20

example : ({ negative := false, magnitude := 0x3FB999999999999A } : Double).shortest .toEven = ⟨1, -1⟩ := by
  decide +kernel
example : ({ negative := false, magnitude := 0x3E60000000000000 } : Double).shortest .up
    = ⟨29802322387695313, -24⟩ := by
  decide +kernel
example : ({ negative := false, magnitude := 0x3E60000000000000 } : Double).shortest .toEven
    = ⟨29802322387695312, -24⟩ := by
  decide +kernel
example : ({ negative := false, magnitude := 1 } : Double).shortest .up = ⟨5, -324⟩ := by
  decide +kernel

end Double

end Bindery
