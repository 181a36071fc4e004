import Bindery.Proofs.Number.Longest
import Bindery.Proofs.Text.Offsets

/-!
# Numerals by offsets

In memory the end of a numeral is found by counting bytes: each part is looked for at the offset where
the part before it ended, and the text is cut off at the last of these offsets.  No offset is out of
range: all characters of a numeral have one byte, and a look at the byte that follows cannot mistake a
part of a longer character for one of them.

* `Numeral.numeralEnd?`                  the offset where the numeral at the beginning ends
* `numberByOffsets?_eq`                  no offset is out of range, and the number is the same
-/

namespace Bindery

namespace Text

/-! ## Bytes -/

def byte (c : Char) : UInt8 := UInt8.ofNat c.toNat

def standsAt (b : List UInt8) (offset : Nat) (c : Char) : Bool := b[offset]? == some (byte c)

def IsAscii (s : List Char) : Prop := ∀ c ∈ s, c.toNat < 128

theorem utf8EncodeChar_of_ascii {c : Char} (h : c.toNat < 128) : String.utf8EncodeChar c = [byte c] := by
  have hle : c.val.toNat ≤ 127 := Nat.le_of_lt_succ h
  rw [String.utf8EncodeChar]
  exact if_pos hle

theorem IsAscii.append {s t : List Char} (hs : IsAscii s) (ht : IsAscii t) : IsAscii (s ++ t) :=
  List.forall_mem_append.mpr ⟨hs, ht⟩

theorem IsAscii.cons {c : Char} {s : List Char} (hc : c.toNat < 128) (hs : IsAscii s) :
    IsAscii (c :: s) :=
  List.forall_mem_cons.mpr ⟨hc, hs⟩

/-- What is left of a text from an offset on, when all characters before it have one byte. -/
def Left (b : List UInt8) (offset : Nat) (t : List Char) : Prop :=
  ∃ s, IsAscii s ∧ b = bytes (s ++ t) ∧ offset = s.length

/-- A longer character begins with a byte that is no character by itself. -/
theorem utf8EncodeChar_of_not_ascii {c : Char} (h : ¬ c.toNat < 128) :
    ∃ first rest, String.utf8EncodeChar c = first :: rest ∧ 128 ≤ first.toNat := by
  have hnot : ¬ c.val.toNat ≤ 127 := fun hle => h (Nat.lt_succ_of_le hle)
  rw [String.utf8EncodeChar, if_neg hnot]
  split
  · refine ⟨_, _, rfl, ?_⟩
    rw [UInt8.toNat_ofNat']
    omega
  · split
    · refine ⟨_, _, rfl, ?_⟩
      rw [UInt8.toNat_ofNat']
      omega
    · refine ⟨_, _, rfl, ?_⟩
      rw [UInt8.toNat_ofNat']
      omega

theorem toNat_byte {c : Char} (h : c.toNat < 128) : (byte c).toNat = c.toNat := by
  rw [byte, UInt8.toNat_ofNat']
  omega

theorem length_bytes_of_ascii {s : List Char} (h : IsAscii s) : (bytes s).length = s.length := by
  induction s with
  | nil => rfl
  | cons c r ih =>
    have hr := ih fun d hd => h d (List.mem_cons_of_mem _ hd)
    rw [bytes, List.flatMap_cons, utf8EncodeChar_of_ascii (h c List.mem_cons_self), List.length_append]
    rw [bytes] at hr
    rw [hr, List.length_singleton, List.length_cons, Nat.add_comm]

theorem cutAt?_append {s : List Char} (h : IsAscii s) (t : List Char) :
    cutAt? (s ++ t) s.length = some (s, t) := by
  rw [← length_bytes_of_ascii h, cutAt?_bytes]

namespace Left

variable {b : List UInt8} {offset : Nat} {t : List Char}

theorem zero (t : List Char) : Left (bytes t) 0 t := ⟨[], nofun, rfl, rfl⟩

theorem add (h : Left b offset t) {s r : List Char} (ht : s ++ r = t) (hs : IsAscii s) :
    Left b (offset + s.length) r := by
  obtain ⟨before, hbefore, rfl, rfl⟩ := h
  refine ⟨before ++ s, hbefore.append hs, ?_, List.length_append.symm⟩
  rw [List.append_assoc, ht]

theorem succ {c : Char} (h : Left b offset (c :: t)) (hc : c.toNat < 128) : Left b (offset + 1) t :=
  h.add (s := [c]) rfl (IsAscii.cons hc nofun)

theorem le (h : Left b offset t) : offset ≤ b.length := by
  obtain ⟨before, hbefore, rfl, rfl⟩ := h
  rw [bytes_append, List.length_append, length_bytes_of_ascii hbefore]
  exact Nat.le_add_right _ _

theorem drop (h : Left b offset t) : b.drop offset = bytes t := by
  obtain ⟨before, hbefore, rfl, rfl⟩ := h
  rw [bytes_append, ← length_bytes_of_ascii hbefore, List.drop_left]

/-- The next byte is that of the next character, if it has one byte. -/
theorem standsAt (h : Left b offset t) {c : Char} (hc : c.toNat < 128) :
    standsAt b offset c = (t.head? == some c) := by
  rw [Text.standsAt, ← List.head?_drop, h.drop, Bool.eq_iff_iff, beq_iff_eq, beq_iff_eq]
  cases t with
  | nil => exact ⟨nofun, nofun⟩
  | cons d r =>
    rw [bytes, List.flatMap_cons, List.head?_cons]
    by_cases hd : d.toNat < 128
    · rw [utf8EncodeChar_of_ascii hd, List.singleton_append, List.head?_cons]
      constructor
      · intro he
        have hnat := congrArg UInt8.toNat (Option.some.inj he)
        rw [toNat_byte hd, toNat_byte hc] at hnat
        rw [Char.toNat_inj.mp hnat]
      · intro he
        rw [Option.some.inj he]
    · obtain ⟨first, rest, he, hfirst⟩ := utf8EncodeChar_of_not_ascii hd
      rw [he, List.cons_append, List.head?_cons]
      constructor
      · intro hb
        rw [Option.some.inj hb, toNat_byte hc] at hfirst
        omega
      · intro hdc
        cases hdc
        exact absurd hc hd

end Left

end Text

open Text (bytes byte cutAt? standsAt IsAscii Left utf8EncodeChar_of_ascii utf8EncodeChar_of_not_ascii
  toNat_byte cutAt?_append)

namespace Numeral

/-! ## Counting -/

def isDigitByte (b : UInt8) : Bool := byte '0' ≤ b && b ≤ byte '9'

/-- How many digits stand from an offset on; `none` behind the end. -/
def countDigits? (b : List UInt8) (offset : Nat) : Option Nat :=
  if offset ≤ b.length then some ((b.drop offset).takeWhile isDigitByte).length else none

def signWidth (b : List UInt8) (offset : Nat) : Nat :=
  if standsAt b offset '+' || standsAt b offset '-' then 1 else 0

/-- Where the point and the digits after it end, after some digits before it; the inner `none` if there
are no digits at all. -/
def fractionEnd? (b : List UInt8) (whole offset : Nat) : Option (Option Nat) := do
  let places ← if standsAt b offset '.' then countDigits? b (offset + 1) else some 0
  if whole = 0 ∧ places = 0 then return none
  else return some (if standsAt b offset '.' then offset + 1 + places else offset)

/-- Where the exponent at an offset ends; the offset itself if no exponent stands there. -/
def exponentEnd? (b : List UInt8) (offset : Nat) : Option Nat :=
  if standsAt b offset 'e' || standsAt b offset 'E' then do
    let first := offset + 1 + signWidth b (offset + 1)
    let digits ← countDigits? b first
    return if 0 < digits then first + digits else offset
  else some offset

/-- Where the numeral at the beginning ends; the inner `none` if there is no numeral. -/
def numeralEnd? (b : List UInt8) : Option (Option Nat) := do
  let whole ← countDigits? b (signWidth b 0)
  match ← fractionEnd? b whole (signWidth b 0 + whole) with
  | none => return none
  | some offset => return some (← exponentEnd? b offset)

/-! ## Counting does what cutting does -/

theorem isAscii_of_isSign {s : List Char} (h : IsSign s) : IsAscii s := by
  rcases h with rfl | rfl | rfl
  · exact nofun
  · exact .cons (by decide) nofun
  · exact .cons (by decide) nofun

theorem isAscii_of_isDigits {s : List Char} (h : IsDigits s) : IsAscii s := by
  intro c hc
  have hle : c.val ≤ 57 := by
    have hdigit := h c hc
    rw [Char.isDigit, Bool.and_eq_true, decide_eq_true_iff, decide_eq_true_iff] at hdigit
    exact hdigit.2
  have hnat : c.toNat ≤ 57 := UInt32.le_iff_toNat_le.mp hle
  omega

theorem isAscii_of_isFraction {whole s : List Char} (h : IsFraction whole s) : IsAscii s := by
  rcases h with ⟨rfl, -⟩ | ⟨places, rfl, hplaces, -⟩
  · exact nofun
  · exact .cons (by decide) (isAscii_of_isDigits hplaces)

theorem isAscii_of_isNumeral {s : List Char} (h : IsNumeral s) : IsAscii s := by
  obtain ⟨hsign, hmantissa, hexponent⟩ := h
  obtain ⟨whole, fraction, rfl, hwhole, hfraction⟩ := isMantissa_iff.mp hmantissa
  refine ((isAscii_of_isSign hsign).append
    ((isAscii_of_isDigits hwhole).append (isAscii_of_isFraction hfraction))).append ?_
  cases hexponent with
  | none => exact nofun
  | some hmark hsign _ hd =>
    refine .cons ?_ ((isAscii_of_isSign hsign).append (isAscii_of_isDigits hd))
    rcases hmark with rfl | rfl <;> decide

theorem isDigitByte_byte_iff {c : Char} (h : c.toNat < 128) :
    isDigitByte (byte c) = true ↔ c.isDigit = true := by
  rw [isDigitByte, Char.isDigit, Bool.and_eq_true, Bool.and_eq_true, decide_eq_true_iff,
    decide_eq_true_iff, decide_eq_true_iff, decide_eq_true_iff, UInt8.le_iff_toNat_le,
    UInt8.le_iff_toNat_le, ge_iff_le, UInt32.le_iff_toNat_le, UInt32.le_iff_toNat_le, toNat_byte h]
  exact Iff.rfl

theorem takeWhile_bytes (s : List Char) :
    ((bytes s).takeWhile isDigitByte).length = (splitDigits s).1.length := by
  induction s with
  | nil => rfl
  | cons c r ih =>
    rw [bytes, List.flatMap_cons]
    by_cases hdigit : c.isDigit = true
    · have hc : c.toNat < 128 := isAscii_of_isDigits (List.forall_mem_singleton.mpr hdigit) c
        List.mem_cons_self
      rw [utf8EncodeChar_of_ascii hc, List.singleton_append,
        List.takeWhile_cons_of_pos ((isDigitByte_byte_iff hc).mpr hdigit), splitDigits,
        List.takeWhile_cons_of_pos hdigit]
      exact congrArg Nat.succ ih
    · rw [splitDigits_cons_of_not_digit hdigit]
      by_cases hc : c.toNat < 128
      · rw [utf8EncodeChar_of_ascii hc, List.singleton_append,
          List.takeWhile_cons_of_neg (mt (isDigitByte_byte_iff hc).mp hdigit)]
        rfl
      · obtain ⟨first, rest, he, hfirst⟩ := utf8EncodeChar_of_not_ascii hc
        have hbyte : ¬ isDigitByte first = true := by
          rw [isDigitByte, Bool.and_eq_true, decide_eq_true_iff, decide_eq_true_iff]
          intro h
          have hle : first.toNat ≤ 57 := UInt8.le_iff_toNat_le.mp h.2
          omega
        rw [he, List.cons_append, List.takeWhile_cons_of_neg hbyte]
        rfl

section Left

variable {b : List UInt8} {offset : Nat} {t : List Char}

theorem countDigits?_eq (h : Left b offset t) :
    countDigits? b offset = some (splitDigits t).1.length := by
  rw [countDigits?, if_pos h.le, h.drop, takeWhile_bytes]

theorem signWidth_eq (h : Left b offset t) : signWidth b offset = (splitSign t).1.length := by
  rw [signWidth, h.standsAt (by decide), h.standsAt (by decide)]
  cases t with
  | nil => rfl
  | cons c r =>
    simp only [splitSign, List.head?_cons, Bool.or_eq_true, beq_iff_eq, Option.some.injEq]
    split <;> rfl

theorem fractionEnd?_eq (h : Left b offset t) (whole : List Char) :
    fractionEnd? b whole.length offset = some
      (if whole = [] ∧ (splitFraction whole t).1 = [] then none
        else some (offset + (splitFraction whole t).1.length)) := by
  rw [fractionEnd?, h.standsAt (by decide)]
  cases t with
  | nil => by_cases hw : whole = [] <;> simp [splitFraction, hw]
  | cons c r =>
    rw [List.head?_cons]
    by_cases hc : c = '.'
    · subst hc
      rw [beq_self_eq_true, if_pos rfl, countDigits?_eq (h.succ (by decide))]
      by_cases hne : whole = [] ∧ (splitDigits r).1 = []
      · simp [splitFraction, hne]
      · simp [splitFraction, hne]
        omega
    · by_cases hw : whole = [] <;> simp [splitFraction, hc, hw]

theorem exponentEnd?_eq (h : Left b offset t) :
    exponentEnd? b offset = some (offset + (splitExponent t).1.length) := by
  rw [exponentEnd?, h.standsAt (by decide), h.standsAt (by decide)]
  cases t with
  | nil => rfl
  | cons c r =>
    rw [List.head?_cons]
    by_cases hc : c = 'e' ∨ c = 'E'
    · have hmark : c.toNat < 128 := by rcases hc with rfl | rfl <;> decide
      have hr := h.succ hmark
      have hrest := countDigits?_eq (hr.add (splitSign_append r) (isAscii_of_isSign (isSign_splitSign r)))
      have hfound : (some c == some 'e' || some c == some 'E') = true := by
        simpa only [Bool.or_eq_true, beq_iff_eq, Option.some.injEq] using hc
      rw [if_pos hfound, signWidth_eq hr]
      dsimp only
      rw [hrest, splitExponent]
      by_cases hdigits : (splitDigits (splitSign r).2).1 = []
      · simp [hdigits]
      · have hpos := List.length_pos_iff.mpr hdigits
        simp [hdigits, hc, hpos]
        omega
    · simp [splitExponent, hc]

end Left

/-- The offset that is found is the length of the longest numeral at the beginning. -/
theorem numeralEnd?_eq (s : List Char) :
    numeralEnd? (bytes s) = some ((beginning? s).map List.length) := by
  have hzero := Left.zero s
  have hsign := hzero.add (splitSign_append s) (isAscii_of_isSign (isSign_splitSign s))
  have hwhole := hsign.add (splitDigits_append _) (isAscii_of_isDigits (isDigits_splitDigits _))
  rw [Nat.zero_add] at hsign hwhole
  rw [numeralEnd?, signWidth_eq hzero, countDigits?_eq hsign, beginning?_eq]
  dsimp only [Option.bind_eq_bind, Option.bind_some]
  rw [fractionEnd?_eq hwhole]
  by_cases hne : (splitDigits (splitSign s).2).1 = [] ∧
      (splitFraction (splitDigits (splitSign s).2).1 (splitDigits (splitSign s).2).2).1 = []
  · rw [if_pos hne, if_pos hne]
    rfl
  · have hfraction := hwhole.add (splitFraction_append _ _)
      (isAscii_of_isFraction (isFraction_splitFraction _ hne))
    rw [if_neg hne, if_neg hne, Option.bind_some]
    dsimp only
    rw [exponentEnd?_eq hfraction, Option.map_some, List.length_append, List.length_append,
      List.length_append]
    rfl

/-- A text begins with a minus if that is its sign. -/
theorem head?_eq_minus_iff (s : List Char) :
    s.head? = some '-' ↔ (splitSign s).1 = ['-'] := by
  cases s with
  | nil => simp [splitSign]
  | cons c r =>
    rw [splitSign, List.head?_cons, Option.some.injEq]
    split
    · simp
    · rename_i hc
      simp [not_or.mp hc]

end Numeral

/-- The number at the start of a text, found by offsets; the outer `none` if one is out of range. -/
def numberByOffsets? (text : String) : Option (Option Reading) := do
  let s := Text.trimStart text.toList
  let (_, afterSign) ← cutAt? s (Numeral.signWidth (bytes s) 0)
  if "Infinity".toList.isPrefixOf afterSign then
    return some (.infinite (s.head? = some '-'))
  match ← Numeral.numeralEnd? (bytes s) with
  | none => return none
  | some offset =>
    let (numeral, _) ← cutAt? s offset
    return Numeral.read? numeral

theorem numberByOffsets?_eq (text : String) : numberByOffsets? text = some (leadingNumber? text) := by
  unfold numberByOffsets? leadingNumber?
  generalize Text.trimStart text.toList = s
  have hcut := cutAt?_append (Numeral.isAscii_of_isSign (Numeral.isSign_splitSign s)) (Numeral.splitSign s).2
  rw [Numeral.splitSign_append] at hcut
  dsimp only
  rw [Numeral.signWidth_eq (Left.zero s), hcut, Numeral.numeralEnd?_eq]
  dsimp only [Option.bind_eq_bind, Option.bind_some]
  split
  · rw [decide_eq_decide.mpr (Numeral.head?_eq_minus_iff s)]
    rfl
  · cases hn : Numeral.beginning? s with
    | none => rfl
    | some n =>
      obtain ⟨hnumeral, rest, rfl⟩ := Numeral.isNumeral_of_beginning? hn
      have hnumber := cutAt?_append (Numeral.isAscii_of_isNumeral hnumeral) rest
      dsimp only [Option.map_some, Option.bind_some]
      rw [hnumber]
      rfl

end Bindery
