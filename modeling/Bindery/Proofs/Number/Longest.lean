import Mathlib.Data.List.TakeWhile
import Bindery.Number.Numeral

/-!
# The longest numeral

Numerals are read from left to right, and every part takes as much as it can.  No other way to cut the
beginning of a text into the parts of a numeral gets further.

* `Numeral.IsNumeral`      an optional sign, digits with an optional point, an optional exponent
* `Numeral.IsLongest`      a numeral at the beginning of a text that no longer one exceeds
* `beginning?_iff`         the longest numeral that a text begins with
* `beginning?_eq_none_iff` there is none if the text begins with no numeral at all
* `isSome_read?_iff`       every numeral has a value, and nothing else has
-/

namespace Bindery.Numeral

/-! ## The grammar -/

def IsSign (s : List Char) : Prop := s = [] ∨ s = ['+'] ∨ s = ['-']

def IsDigits (s : List Char) : Prop := ∀ c ∈ s, c.isDigit = true

/-- Digits with an optional point among, before or after them. -/
inductive IsMantissa : List Char → Prop where
  | whole {digits : List Char} : digits ≠ [] → IsDigits digits → IsMantissa digits
  | pointed {digits places : List Char} :
      digits ≠ [] → IsDigits digits → IsDigits places → IsMantissa (digits ++ '.' :: places)
  | places {places : List Char} : places ≠ [] → IsDigits places → IsMantissa ('.' :: places)

inductive IsExponent : List Char → Prop where
  | none : IsExponent []
  | some {mark : Char} {sign digits : List Char} :
      mark = 'e' ∨ mark = 'E' → IsSign sign → digits ≠ [] → IsDigits digits →
      IsExponent (mark :: (sign ++ digits))

inductive IsNumeral : List Char → Prop where
  | mk {sign mantissa exponent : List Char} :
      IsSign sign → IsMantissa mantissa → IsExponent exponent →
      IsNumeral (sign ++ mantissa ++ exponent)

/-- The text begins with the numeral, and with no longer one. -/
structure IsLongest (n s : List Char) : Prop where
  numeral : IsNumeral n
  start : n <+: s
  longest : ∀ m, IsNumeral m → m <+: s → m.length ≤ n.length

/-! ## Cutting a part off -/

theorem isSign_splitSign (s : List Char) : IsSign (splitSign s).1 := by
  cases s with
  | nil => exact Or.inl rfl
  | cons c r =>
    rw [splitSign]
    split
    · rename_i h
      rcases h with rfl | rfl
      · exact Or.inr (Or.inl rfl)
      · exact Or.inr (Or.inr rfl)
    · exact Or.inl rfl

theorem isDigits_splitDigits (s : List Char) : IsDigits (splitDigits s).1 :=
  fun _ hc => List.mem_takeWhile_imp hc

/-- What follows a sign begins with no sign. -/
def Unsigned (s : List Char) : Prop := ∃ c r, s = c :: r ∧ c ≠ '+' ∧ c ≠ '-'

theorem splitSign_append_of_unsigned {sign s : List Char} (hsign : IsSign sign) (hs : Unsigned s) :
    splitSign (sign ++ s) = (sign, s) := by
  obtain ⟨c, r, rfl, hplus, hminus⟩ := hs
  rcases hsign with rfl | rfl | rfl
  · exact if_neg (not_or.mpr ⟨hplus, hminus⟩)
  · rfl
  · rfl

theorem Unsigned.append {s : List Char} (h : Unsigned s) (t : List Char) : Unsigned (s ++ t) := by
  obtain ⟨c, r, rfl, hc⟩ := h
  exact ⟨c, r ++ t, rfl, hc⟩

theorem unsigned_of_digits {digits : List Char} (hne : digits ≠ []) (h : IsDigits digits) :
    Unsigned digits := by
  obtain ⟨c, r, rfl⟩ := List.exists_cons_of_ne_nil hne
  have hc := h c List.mem_cons_self
  refine ⟨c, r, rfl, ?_, ?_⟩
  · rintro rfl
    exact absurd hc (by decide)
  · rintro rfl
    exact absurd hc (by decide)

theorem IsMantissa.unsigned {s : List Char} (h : IsMantissa s) : Unsigned s := by
  cases h with
  | whole hne hd => exact unsigned_of_digits hne hd
  | pointed hne hd _ => exact (unsigned_of_digits hne hd).append _
  | places _ _ => exact ⟨'.', _, rfl, by decide, by decide⟩

theorem splitDigits_append_of_digits {digits : List Char} (h : IsDigits digits) (s : List Char) :
    splitDigits (digits ++ s) = (digits ++ (splitDigits s).1, (splitDigits s).2) := by
  unfold splitDigits
  rw [List.takeWhile_append_of_pos h, List.dropWhile_append_of_pos h]

theorem splitDigits_cons_of_not_digit {c : Char} (h : ¬ c.isDigit = true) (r : List Char) :
    splitDigits (c :: r) = ([], c :: r) := by
  unfold splitDigits
  rw [List.takeWhile_cons_of_neg h, List.dropWhile_cons_of_neg h]

/-- The part of a mantissa from the point on, after the digits before it. -/
def IsFraction (whole fraction : List Char) : Prop :=
  fraction = [] ∧ whole ≠ [] ∨
    ∃ places, fraction = '.' :: places ∧ IsDigits places ∧ (whole ≠ [] ∨ places ≠ [])

theorem isMantissa_iff {s : List Char} :
    IsMantissa s ↔ ∃ whole fraction, s = whole ++ fraction ∧ IsDigits whole ∧
      IsFraction whole fraction := by
  constructor
  · rintro (⟨hne, hd⟩ | ⟨hne, hd, hp⟩ | ⟨hne, hp⟩)
    · exact ⟨s, [], (List.append_nil s).symm, hd, Or.inl ⟨rfl, hne⟩⟩
    · exact ⟨_, _, rfl, hd, Or.inr ⟨_, rfl, hp, Or.inl hne⟩⟩
    · exact ⟨[], _, rfl, nofun, Or.inr ⟨_, rfl, hp, Or.inr hne⟩⟩
  · rintro ⟨whole, fraction, rfl, hd, ⟨rfl, hne⟩ | ⟨places, rfl, hp, hne⟩⟩
    · rw [List.append_nil]
      exact .whole hne hd
    · by_cases hw : whole = []
      · subst hw
        exact .places (hne.resolve_left fun h => h rfl) hp
      · exact .pointed hw hd hp

theorem isExponent_splitExponent (s : List Char) : IsExponent (splitExponent s).1 := by
  cases s with
  | nil => exact .none
  | cons c r =>
    unfold splitExponent
    dsimp only
    split
    · rename_i h
      exact .some h.1 (isSign_splitSign r) h.2 (isDigits_splitDigits _)
    · exact .none

theorem isFraction_splitFraction {whole : List Char} (s : List Char)
    (h : ¬ (whole = [] ∧ (splitFraction whole s).1 = [])) :
    IsFraction whole (splitFraction whole s).1 := by
  cases s with
  | nil => exact Or.inl ⟨rfl, fun hw => h ⟨hw, rfl⟩⟩
  | cons c r =>
    unfold splitFraction at h ⊢
    dsimp only at h ⊢
    split
    · rename_i hpoint
      obtain ⟨rfl, hne⟩ := hpoint
      refine Or.inr ⟨_, rfl, isDigits_splitDigits r, ?_⟩
      by_cases hw : whole = []
      · exact Or.inr fun hp => hne ⟨hw, hp⟩
      · exact Or.inl hw
    · rename_i hpoint
      rw [if_neg hpoint] at h
      exact Or.inl ⟨rfl, fun hw => h ⟨hw, rfl⟩⟩

/-! ## What is read is a numeral -/

theorem beginning?_eq (s : List Char) :
    beginning? s =
      let sign := splitSign s
      let whole := splitDigits sign.2
      let fraction := splitFraction whole.1 whole.2
      if whole.1 = [] ∧ fraction.1 = [] then none
      else some (sign.1 ++ whole.1 ++ fraction.1 ++ (splitExponent fraction.2).1) := rfl

theorem parts_append (s : List Char) :
    let sign := splitSign s
    let whole := splitDigits sign.2
    let fraction := splitFraction whole.1 whole.2
    let exponent := splitExponent fraction.2
    sign.1 ++ whole.1 ++ fraction.1 ++ exponent.1 ++ exponent.2 = s := by
  dsimp only
  rw [List.append_assoc, splitExponent_append, List.append_assoc, splitFraction_append,
    List.append_assoc, splitDigits_append, splitSign_append]

theorem isNumeral_of_beginning? {s n : List Char} (h : beginning? s = some n) :
    IsNumeral n ∧ n <+: s := by
  rw [beginning?_eq] at h
  dsimp only at h
  split at h
  · cases h
  · rename_i hne
    rw [← Option.some.inj h]
    constructor
    · rw [List.append_assoc (splitSign s).1]
      refine .mk (isSign_splitSign s) (isMantissa_iff.mpr ⟨_, _, rfl, isDigits_splitDigits _, ?_⟩)
        (isExponent_splitExponent _)
      exact isFraction_splitFraction _ hne
    · exact ⟨_, parts_append s⟩

/-! ## Nothing longer is a numeral -/

theorem length_le_splitExponent {exponent : List Char} (h : IsExponent exponent) (r : List Char) :
    exponent.length ≤ (splitExponent (exponent ++ r)).1.length := by
  cases h with
  | none => exact Nat.zero_le _
  | @some mark sign digits hmark hsign hne hd =>
    have hunsigned := (unsigned_of_digits hne hd).append r
    unfold splitExponent
    rw [List.cons_append, List.append_assoc]
    dsimp only
    rw [splitSign_append_of_unsigned hsign hunsigned]
    dsimp only
    rw [splitDigits_append_of_digits hd]
    dsimp only
    rw [if_pos ⟨hmark, fun h => hne (List.append_eq_nil_iff.mp h).1⟩]
    simp only [List.cons_append, List.length_cons, List.length_append]
    omega

/-- An exponent that is there keeps digits before it from going on. -/
theorem splitDigits_exponent_append {exponent : List Char} (h : IsExponent exponent)
    (hne : exponent ≠ []) (r : List Char) : splitDigits (exponent ++ r) = ([], exponent ++ r) := by
  cases h with
  | none => exact absurd rfl hne
  | some hmark _ _ _ =>
    refine splitDigits_cons_of_not_digit ?_ _
    rcases hmark with rfl | rfl <;> decide

theorem splitFraction_exponent_append {exponent : List Char} (h : IsExponent exponent)
    (hne : exponent ≠ []) (whole r : List Char) :
    splitFraction whole (exponent ++ r) = ([], exponent ++ r) := by
  cases h with
  | none => exact absurd rfl hne
  | some hmark _ _ _ =>
    refine if_neg fun hpoint => ?_
    rcases hmark with rfl | rfl <;> exact absurd hpoint.1 (by decide)

/-- However the digits, the point and the exponent at the beginning of a text are cut off, the parts taken
in turn are together at least as long. -/
theorem length_le_parts {whole fraction exponent : List Char} (hwhole : IsDigits whole)
    (hfraction : IsFraction whole fraction) (hexponent : IsExponent exponent) (r : List Char) :
    let taken := splitDigits (whole ++ (fraction ++ (exponent ++ r)))
    let point := splitFraction taken.1 taken.2
    ¬ (taken.1 = [] ∧ point.1 = []) ∧
      whole.length + fraction.length + exponent.length
        ≤ taken.1.length + point.1.length + (splitExponent point.2).1.length := by
  rw [splitDigits_append_of_digits hwhole]
  dsimp only
  rcases hfraction with ⟨rfl, hne⟩ | ⟨places, rfl, hplaces, hne⟩
  · refine ⟨fun h => hne (List.append_eq_nil_iff.mp h.1).1, ?_⟩
    rw [List.nil_append]
    by_cases he : exponent = []
    · subst he
      simp only [List.length_append, List.length_nil]
      omega
    · rw [splitDigits_exponent_append hexponent he, List.append_nil]
      dsimp only
      rw [splitFraction_exponent_append hexponent he]
      have hle := length_le_splitExponent hexponent r
      simp only [List.length_nil]
      omega
  · have hpoint : ¬ (whole = [] ∧ places ++ (splitDigits (exponent ++ r)).1 = []) := by
      rintro ⟨hw, hp⟩
      exact hne.elim (fun h => h hw) fun h => h (List.append_eq_nil_iff.mp hp).1
    rw [List.cons_append, splitDigits_cons_of_not_digit (by decide), List.append_nil]
    unfold splitFraction
    dsimp only
    rw [splitDigits_append_of_digits hplaces]
    dsimp only
    rw [if_pos ⟨rfl, hpoint⟩]
    refine ⟨fun h => absurd h.2 (List.cons_ne_nil _ _), ?_⟩
    by_cases he : exponent = []
    · subst he
      simp only [List.length_append, List.length_cons, List.length_nil]
      omega
    · rw [splitDigits_exponent_append hexponent he, List.append_nil]
      have hle := length_le_splitExponent hexponent r
      dsimp only
      omega

/-- A text that begins with a numeral is read at least as far. -/
theorem exists_beginning?_of_prefix {m s : List Char} (hm : IsNumeral m) (hs : m <+: s) :
    ∃ n, beginning? s = some n ∧ m.length ≤ n.length := by
  obtain ⟨r, rfl⟩ := hs
  obtain @⟨sign, mantissa, exponent, hsign, hmantissa, hexponent⟩ := hm
  obtain ⟨whole, fraction, rfl, hwhole, hfraction⟩ := isMantissa_iff.mp hmantissa
  have hcut : splitSign (sign ++ (whole ++ fraction) ++ exponent ++ r)
      = (sign, whole ++ (fraction ++ (exponent ++ r))) := by
    have hunsigned := hmantissa.unsigned.append (exponent ++ r)
    have h := splitSign_append_of_unsigned hsign hunsigned
    simpa only [List.append_assoc] using h
  obtain ⟨hne, hle⟩ := length_le_parts hwhole hfraction hexponent r
  rw [beginning?_eq, hcut]
  refine ⟨_, if_neg hne, ?_⟩
  simp only [List.length_append]
  omega

/-- What is read is the longest numeral that the text begins with. -/
theorem beginning?_iff {s n : List Char} : beginning? s = some n ↔ IsLongest n s := by
  constructor
  · intro h
    obtain ⟨hn, hs⟩ := isNumeral_of_beginning? h
    refine ⟨hn, hs, fun m hm hms => ?_⟩
    obtain ⟨n', hn', hle⟩ := exists_beginning?_of_prefix hm hms
    cases h.symm.trans hn'
    exact hle
  · rintro ⟨hn, hs, hlongest⟩
    obtain ⟨n', hn', hle⟩ := exists_beginning?_of_prefix hn hs
    obtain ⟨hnumeral, hs'⟩ := isNumeral_of_beginning? hn'
    have hlen : n'.length = n.length := Nat.le_antisymm (hlongest n' hnumeral hs') hle
    rw [hn', (List.prefix_of_prefix_length_le hs hs' hle).eq_of_length hlen.symm]

theorem beginning?_eq_none_iff {s : List Char} :
    beginning? s = none ↔ ∀ n, n <+: s → ¬ IsNumeral n := by
  constructor
  · intro h n hs hn
    obtain ⟨n', hn', -⟩ := exists_beginning?_of_prefix hn hs
    exact nomatch h.symm.trans hn'
  · intro h
    cases hn : beginning? s with
    | none => rfl
    | some n =>
      obtain ⟨hnumeral, hs⟩ := isNumeral_of_beginning? hn
      exact absurd hnumeral (h n hs)

theorem read?_eq (s : List Char) :
    read? s =
      let sign := splitSign s
      let whole := splitDigits sign.2
      let fraction := splitFraction whole.1 whole.2
      let exponent := splitExponent fraction.2
      if whole.1 = [] ∧ fraction.1 = [] ∨ exponent.2 ≠ [] then none
      else some (Decimal.nearest (sign.1 = ['-'])
        ⟨longDigitsValue (whole.1 ++ fraction.1.drop 1),
          exponentValue exponent.1 - (fraction.1.length - 1 : Nat)⟩) := rfl

/-- Numerals have a value, and nothing else has. -/
theorem isSome_read?_iff {s : List Char} : (read? s).isSome = true ↔ IsNumeral s := by
  have happend := parts_append s
  constructor
  · intro h
    have hbeginning : beginning? s = some s := by
      rw [read?_eq] at h
      dsimp only at h happend
      split at h
      · cases h
      · rename_i hread
        obtain ⟨hne, hrest⟩ := not_or.mp hread
        rw [Decidable.not_not.mp hrest, List.append_nil] at happend
        rw [beginning?_eq]
        dsimp only
        rw [if_neg hne, happend]
    exact (isNumeral_of_beginning? hbeginning).1
  · intro h
    obtain ⟨n, hn, hle⟩ := exists_beginning?_of_prefix h (List.prefix_refl s)
    rw [beginning?_eq] at hn
    rw [read?_eq]
    dsimp only at hn happend ⊢
    split at hn
    · cases hn
    · rename_i hne
      rw [Option.some.inj hn] at happend
      -- the longest numeral at the beginning is the whole text, so nothing follows it
      have hwhole : n = s := List.IsPrefix.eq_of_length_le ⟨_, happend⟩ hle
      rw [hwhole] at happend
      have hrest := List.append_right_eq_self.mp happend
      rw [if_neg (not_or.mpr ⟨hne, Decidable.not_not.mpr hrest⟩)]
      rfl

end Bindery.Numeral
