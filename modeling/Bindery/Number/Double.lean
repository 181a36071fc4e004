/-!
# Finite doubles

A `Double` is a finite binary64 number, kept as its sign and the 63 bits below the sign.  Zero has
two signs.  For each double `magnitude = significand * 2 ^ exponent`.

* `Double.significand`, `Double.exponent`   the two parts of the magnitude
* `Reading`                                 what a numeral denotes: a double or an infinity
* `Reading.bits`                            the 64 bits of a reading
-/

namespace Bindery

/-- The number of fractions that one exponent has: `2 ^ 52`. -/
def fractionCount : Nat := 0x10000000000000

/-- The 63 bits of infinity; every smaller number is the magnitude of a finite double. -/
def infinityBits : Nat := 2047 * fractionCount

/-- A finite binary64 number. -/
structure Double where
  negative : Bool
  /-- exponent field and fraction field, read as one number -/
  magnitude : Nat
  isFinite : magnitude < infinityBits := by decide
deriving DecidableEq

namespace Double

def zero : Double := { negative := false, magnitude := 0 }

def one : Double := { negative := false, magnitude := 0x3FF0000000000000 }

instance : Inhabited Double := ⟨zero⟩

def isZero (d : Double) : Bool := d.magnitude == 0

def significand (d : Double) : Nat :=
  if d.magnitude < fractionCount then d.magnitude else fractionCount + d.magnitude % fractionCount

def exponent (d : Double) : Int :=
  if d.magnitude < fractionCount then -1074 else (d.magnitude / fractionCount : Nat) - 1075

/-- The number is a power of two with a full exponent range below it, so that the gap to the number
below is half the gap to the number above. -/
def isNarrowBelow (d : Double) : Bool :=
  d.magnitude % fractionCount == 0 && 2 * fractionCount ≤ d.magnitude

/-- The hidden bit makes the significand of a normal number at least `2 ^ 52`. -/
theorem significand_lt (d : Double) : d.significand < 2 * fractionCount := by
  unfold significand fractionCount
  split <;> omega

theorem significand_eq_zero_iff (d : Double) : d.significand = 0 ↔ d.magnitude = 0 := by
  unfold significand fractionCount
  split <;> omega

end Double

/-- What a numeral denotes after rounding. -/
inductive Reading where
  | finite (d : Double)
  | infinite (negative : Bool)
deriving DecidableEq

namespace Reading

/-- The 64 bits of the reading, the sign first. -/
def bits : Reading → Nat
  | finite d => (if d.negative then 2048 * fractionCount else 0) + d.magnitude
  | infinite negative => (if negative then 2048 * fractionCount else 0) + infinityBits

/-- The reading with the magnitude `m`, infinite when `m` is no finite magnitude. -/
def ofMagnitude (negative : Bool) (m : Nat) : Reading :=
  if h : m < infinityBits then finite ⟨negative, m, h⟩ else infinite negative

def finite? : Reading → Option Double
  | finite d => some d
  | infinite _ => none

example : (Reading.finite Double.one).bits = 0x3FF0000000000000 := by decide

end Reading

end Bindery
