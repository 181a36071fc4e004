import Bindery.Number.Shortest

/-!
# Writing a double

Two written forms, both from the fewest digits that read back.

* `Double.positional`   always positional, without a point for whole numbers; a page shows this
* `Double.compact`      positional with a point for `10 ^ (-5) ≤ |x| < 10 ^ 16`, otherwise one digit,
                        the other digits after a point, and a signed exponent; records hold this
-/

namespace Bindery

def natDigits (n : Nat) : List Char := Nat.toDigits 10 n

def intDigits (n : Int) : List Char :=
  if n < 0 then '-' :: natDigits n.natAbs else natDigits n.natAbs

namespace Decimal

def leading (d : Decimal) : Int := d.exponent + (natDigits d.digits).length - 1

/-- The digits before and after the point; the part before the point is never empty. -/
def wholeAndFraction (d : Decimal) : List Char × List Char :=
  let digits := natDigits d.digits
  if 0 ≤ d.exponent then (digits ++ List.replicate d.exponent.toNat '0', [])
  else
    let places := (-d.exponent).toNat
    let padded := List.replicate (places + 1 - digits.length) '0' ++ digits
    (padded.take (padded.length - places), padded.drop (padded.length - places))

/-- Positional, with a point only if digits stand after it. -/
def positional (d : Decimal) : List Char :=
  match d.wholeAndFraction with
  | (whole, []) => whole
  | (whole, fraction) => whole ++ '.' :: fraction

/-- Positional, with at least one digit on each side of the point. -/
def pointed (d : Decimal) : List Char :=
  match d.wholeAndFraction with
  | (whole, []) => whole ++ ['.', '0']
  | (whole, fraction) => whole ++ '.' :: fraction

/-- One digit before the point, the rest after it, and the exponent with its sign. -/
def scientific (d : Decimal) : List Char :=
  let exponent := 'e' :: (if d.leading < 0 then '-' else '+') :: natDigits d.leading.natAbs
  match natDigits d.digits with
  | [] => exponent
  | [c] => c :: exponent
  | c :: r => c :: '.' :: r ++ exponent

end Decimal

namespace Double

/-- The form shown on a page.  Zero has no sign. -/
def positional (x : Double) : List Char :=
  if x.isZero then ['0']
  else
    let digits := (x.shortest .up).positional
    if x.negative then '-' :: digits else digits

/-- The form used inside records.  Zero keeps its sign. -/
def compact (x : Double) : List Char :=
  let d := x.shortest .toEven
  let digits := if x.isZero || (-5 ≤ d.leading && d.leading < 16) then d.pointed else d.scientific
  if x.negative then '-' :: digits else digits

end Double

end Bindery
