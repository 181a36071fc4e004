import Bindery.Number.Nearest
import Bindery.Text.Blank

/-!
# Numerals

A numeral is an optional sign, digits with an optional point among, before or after them, and an
optional exponent.  Each `split…` function cuts one part off the front of a text.

* `Numeral.beginning?`   the longest numeral a text begins with
* `Numeral.read?`        the double nearest to a text that is a numeral
* `longDigitsValue`      what a row of digits stands for, quick for long rows too
* `leadingNumber?`       the number at the start of what a user typed, blanks before it and
                         anything after it ignored; `Infinity` is a number too
-/

namespace Bindery

namespace Numeral

def splitSign : List Char → List Char × List Char
  | [] => ([], [])
  | c :: r => if c = '+' ∨ c = '-' then ([c], r) else ([], c :: r)

def splitDigits (s : List Char) : List Char × List Char :=
  (s.takeWhile Char.isDigit, s.dropWhile Char.isDigit)

/-- The point and the digits after it.  A point needs a digit on one of its sides; `whole` holds the
digits before it. -/
def splitFraction (whole : List Char) : List Char → List Char × List Char
  | [] => ([], [])
  | c :: r =>
    let (digits, rest) := splitDigits r
    if c = '.' ∧ ¬ (whole = [] ∧ digits = []) then (c :: digits, rest) else ([], c :: r)

/-- An exponent mark with an optional sign and at least one digit. -/
def splitExponent : List Char → List Char × List Char
  | [] => ([], [])
  | c :: r =>
    let (sign, afterSign) := splitSign r
    let (digits, rest) := splitDigits afterSign
    if (c = 'e' ∨ c = 'E') ∧ digits ≠ [] then (c :: sign ++ digits, rest) else ([], c :: r)

/-- The longest numeral at the beginning of the text. -/
def beginning? (s : List Char) : Option (List Char) :=
  let (sign, afterSign) := splitSign s
  let (whole, afterWhole) := splitDigits afterSign
  let (fraction, afterFraction) := splitFraction whole afterWhole
  if whole = [] ∧ fraction = [] then none
  else some (sign ++ whole ++ fraction ++ (splitExponent afterFraction).1)

def digitsValue (digits : List Char) : Nat :=
  digits.foldl (fun n c => 10 * n + (c.toNat - '0'.toNat)) 0

/-- The same number, read from the halves of the row; `depth` is how often it is halved. -/
def valueByHalves : Nat → List Char → Nat
  | 0, digits => digitsValue digits
  | depth + 1, digits =>
    let half := digits.length / 2
    valueByHalves depth (digits.take half) * Nat.pow 10 (digits.length - half)
      + valueByHalves depth (digits.drop half)

/-- The number a long row of digits stands for.  Halving keeps the factors small for most of the
way. -/
def longDigitsValue (digits : List Char) : Nat := valueByHalves (digits.length / 64).log2 digits

/-- An exponent that has reached this number takes no more digits. -/
def exponentLimit : Nat := 0x10000

/-- The number that the digits of an exponent stand for.  Once it has reached the limit, the digits
that are left are passed over. -/
def exponentMagnitude (digits : List Char) : Nat :=
  digits.foldl (fun n c => if n < exponentLimit then 10 * n + (c.toNat - '0'.toNat) else n) 0

/-- The number an exponent stands for, its mark included; no exponent stands for 0. -/
def exponentValue : List Char → Int
  | [] => 0
  | _ :: r =>
    let (sign, digits) := splitSign r
    if sign = ['-'] then -(exponentMagnitude digits : Int) else exponentMagnitude digits

/-- The double nearest to a numeral; `none` if the text is no numeral. -/
def read? (s : List Char) : Option Reading :=
  let (sign, afterSign) := splitSign s
  let (whole, afterWhole) := splitDigits afterSign
  let (fraction, afterFraction) := splitFraction whole afterWhole
  let (exponent, rest) := splitExponent afterFraction
  if whole = [] ∧ fraction = [] ∨ rest ≠ [] then none
  else
    let places := fraction.length - 1
    some (Decimal.nearest (sign = ['-'])
      ⟨longDigitsValue (whole ++ fraction.drop 1), exponentValue exponent - places⟩)

theorem foldl_digits (n : Nat) (digits : List Char) :
    digits.foldl (fun n c => 10 * n + (c.toNat - '0'.toNat)) n
      = n * Nat.pow 10 digits.length + digitsValue digits := by
  unfold digitsValue
  induction digits generalizing n with
  | nil => simp
  | cons c r ih =>
    simp only [List.foldl_cons, List.length_cons]
    rw [ih, ih (10 * 0 + (c.toNat - '0'.toNat))]
    have h : n * Nat.pow 10 (r.length + 1) = 10 * n * Nat.pow 10 r.length := by
      show n * (Nat.pow 10 r.length * 10) = _
      rw [Nat.mul_comm (Nat.pow 10 r.length) 10, ← Nat.mul_assoc, Nat.mul_comm n 10]
    rw [Nat.add_mul, h, Nat.mul_zero, Nat.zero_add, Nat.add_assoc]

theorem digitsValue_append (a b : List Char) :
    digitsValue (a ++ b) = digitsValue a * Nat.pow 10 b.length + digitsValue b := by
  show (a ++ b).foldl _ 0 = _
  rw [List.foldl_append, foldl_digits]
  rfl

theorem valueByHalves_eq (depth : Nat) (digits : List Char) :
    valueByHalves depth digits = digitsValue digits := by
  induction depth generalizing digits with
  | zero => rfl
  | succ depth ih =>
    simp only [valueByHalves, ih]
    rw [← List.length_drop, ← digitsValue_append, List.take_append_drop]

/-- Reading by halves gives the number that the row stands for. -/
theorem longDigitsValue_eq (digits : List Char) : longDigitsValue digits = digitsValue digits :=
  valueByHalves_eq _ digits

theorem splitSign_append (s : List Char) : (splitSign s).1 ++ (splitSign s).2 = s := by
  unfold splitSign
  split
  · rfl
  · split <;> rfl

theorem splitDigits_append (s : List Char) : (splitDigits s).1 ++ (splitDigits s).2 = s := by
  simp [splitDigits]

theorem splitFraction_append (whole s : List Char) :
    (splitFraction whole s).1 ++ (splitFraction whole s).2 = s := by
  unfold splitFraction
  split
  · rfl
  · simp only
    split
    · simp [splitDigits]
    · rfl

theorem splitExponent_append (s : List Char) :
    (splitExponent s).1 ++ (splitExponent s).2 = s := by
  unfold splitExponent
  split
  · rfl
  · rename_i c r
    simp only
    split
    · have h := splitSign_append r
      have h' := splitDigits_append (splitSign r).2
      simp only [List.cons_append, List.append_assoc]
      rw [h', h]
    · rfl

example : beginning? "45px".toList = some "45".toList := by decide
example : beginning? "-1.5e+x".toList = some "-1.5".toList := by decide
example : beginning? ".".toList = none := by decide
example : exponentValue "e655359".toList = 655359 ∧ exponentValue "e655360".toList = 65536 := by decide
example : (read? "1.5e3".toList).map Reading.bits = some 0x4097700000000000 := by decide +kernel

end Numeral

def leadingNumber? (text : String) : Option Reading :=
  let s := Text.trimStart text.toList
  let (sign, afterSign) := Numeral.splitSign s
  if "Infinity".toList.isPrefixOf afterSign then some (.infinite (sign = ['-']))
  else (Numeral.beginning? s).bind Numeral.read?

end Bindery
