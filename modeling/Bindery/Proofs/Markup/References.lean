import Mathlib.Data.List.Forall2
import Mathlib.Data.Nat.Digits.Defs
import Mathlib.Tactic.Ring
import Bindery.Proofs.Markup.Escaping

/-!
# What references resolve to

A reference is an `&`, a body of one to ten bytes and a `;`.  Its body is one of a few names, or `#` with
the number of a character, in decimal or behind `x` in hexadecimal digits.  A text is read from left to
right: a reference becomes its character, and any other character stays, the `&` of what is no reference
included.

Numbers are read by a general reader of integers, which takes a plus sign: `&#+65;` is resolved as `&#65;`
is.  Nothing else is resolved that is no reference, and every reference is.

* `Numeral`, `SignedNumeral`    digits and the number they write, without a sign or with one
* `Denotes`                     a body and its character
* `Decoded`                     a text and what it reads as
* `decoded_iff_signed`          reading, with the sign taken
* `decoded_iff`                 reading, where no number has a sign
-/

namespace Bindery.Reference

/-- A digit of a base up to sixteen, with its value. -/
def IsDigit (base : Nat) (c : Char) (d : Nat) : Prop :=
  d < base ∧ (c = Nat.digitChar d ∨ c = (Nat.digitChar d).toUpper)

/-- A row of one or more digits writes a number, the highest digit first. -/
def Numeral (base : Nat) (s : List Char) (n : Nat) : Prop :=
  s ≠ [] ∧ ∃ ds, List.Forall₂ (IsDigit base) s ds ∧ n = Nat.ofDigits base ds.reverse

/-- A numeral that may have a plus sign in front. -/
def SignedNumeral (base : Nat) (s : List Char) (n : Nat) : Prop :=
  Numeral base s n ∨ ∃ r, s = '+' :: r ∧ Numeral base r n

def known : List (String × Char) :=
  [("lt", '<'), ("gt", '>'), ("amp", '&'), ("quot", '"'), ("apos", '\''), ("nbsp", '\u00a0')]

/-- The body of a reference to a character, its number written in one of the forms `num`. -/
inductive Denotes (num : Nat → List Char → Nat → Prop) : List Char → Char → Prop
  | named {name : String} {c : Char} (h : (name, c) ∈ known) : Denotes num name.toList c
  | decimal {s : List Char} {c : Char} (h : num 10 s c.toNat) : Denotes num ('#' :: s) c
  | hex {x : Char} {s : List Char} {c : Char} (hx : x = 'x' ∨ x = 'X') (h : num 16 s c.toNat) :
      Denotes num ('#' :: x :: s) c

/-- One to ten bytes without `;`. -/
structure Enclosed (body : List Char) : Prop where
  nonempty : 1 ≤ (body.map Char.utf8Size).sum
  short : (body.map Char.utf8Size).sum ≤ 10
  unclosed : ';' ∉ body

/-- The text begins with a reference to `c`, and `after` stands behind it. -/
def Begins (num : Nat → List Char → Nat → Prop) (s : List Char) (c : Char) (after : List Char) : Prop :=
  ∃ body, s = '&' :: (body ++ ';' :: after) ∧ Enclosed body ∧ Denotes num body c

/-- Reading a text from left to right, where numbers have one of the forms `num`. -/
inductive Decoded (num : Nat → List Char → Nat → Prop) : List Char → List Char → Prop
  | nil : Decoded num [] []
  | reference {s after t : List Char} {c : Char} (h : Begins num s c after) (ht : Decoded num after t) :
      Decoded num s (c :: t)
  | kept {c : Char} {r t : List Char} (h : ∀ d after, ¬ Begins num (c :: r) d after)
      (ht : Decoded num r t) : Decoded num (c :: r) (c :: t)

/-! ## Numbers -/

section
variable {base n k d : Nat} {c : Char} {s : List Char}

/-- A character in a run of digits is the digit of its distance from the first, counted from `v`. -/
theorem digit_of_range {first last : Char} {v : Nat} (h : first ≤ c ∧ c ≤ last)
    (hd : c.toNat - first.toNat + v = d) :
    c = Char.ofNat (first.toNat + (d - v)) ∧ v ≤ d ∧ d ≤ last.toNat - first.toNat + v := by
  obtain ⟨hlow, hhigh⟩ := h
  have hlow : first.toNat ≤ c.toNat := hlow
  have hhigh : c.toNat ≤ last.toNat := hhigh
  refine ⟨?_, by omega, by omega⟩
  rw [← Char.ofNat_toNat c]
  congr 1
  omega

theorem digit?_digitChar :
    ∀ d < 16, digit? 16 (Nat.digitChar d) = some d ∧ digit? 16 (Nat.digitChar d).toUpper = some d := by
  decide

theorem digit?_eq_some_iff (hb : base ≤ 16) : digit? base c = some d ↔ IsDigit base c d := by
  unfold digit?
  dsimp only
  rw [Option.filter_eq_some_iff, decide_eq_true_eq, and_comm]
  unfold IsDigit
  refine and_congr_right fun hd => ?_
  constructor
  · intro h
    split_ifs at h with hdec hlow hup
    · obtain ⟨rfl, -, hle⟩ := digit_of_range (v := 0) hdec (Option.some.inj h)
      have hall : ∀ d ≤ 9, Char.ofNat ('0'.toNat + (d - 0)) = Nat.digitChar d := by decide
      exact Or.inl (hall d hle)
    · obtain ⟨rfl, hge, hle⟩ := digit_of_range (v := 10) hlow (Option.some.inj h)
      have hall : ∀ d ≤ 15, 10 ≤ d → Char.ofNat ('a'.toNat + (d - 10)) = Nat.digitChar d := by decide
      exact Or.inl (hall d hle hge)
    · obtain ⟨rfl, hge, hle⟩ := digit_of_range (v := 10) hup (Option.some.inj h)
      have hall : ∀ d ≤ 15, 10 ≤ d →
        Char.ofNat ('A'.toNat + (d - 10)) = (Nat.digitChar d).toUpper := by decide
      exact Or.inr (hall d hle hge)
  · have hchar := digit?_digitChar d (Nat.lt_of_lt_of_le hd hb)
    rintro (rfl | rfl)
    · exact (Option.filter_eq_some_iff.mp hchar.1).1
    · exact (Option.filter_eq_some_iff.mp hchar.2).1

theorem digits?_eq_some_iff (hb : base ≤ 16) :
    digits? base n s = some k ↔
      ∃ ds, List.Forall₂ (IsDigit base) s ds ∧ k = n * base ^ s.length + Nat.ofDigits base ds.reverse := by
  induction s generalizing n with
  | nil =>
    constructor
    · intro h
      refine ⟨[], List.Forall₂.nil, ?_⟩
      rw [← Option.some.inj h]
      simp
    · rintro ⟨ds, hds, rfl⟩
      obtain rfl := List.forall₂_nil_left_iff.mp hds
      show some n = some (n * 1 + 0)
      rw [Nat.mul_one, Nat.add_zero]
  | cons c r ih =>
    -- the first digit counts as often as the base does for the digits behind it
    have hvalue : ∀ (d : Nat) (ds : List Nat), ds.length = r.length →
        (base * n + d) * base ^ r.length + Nat.ofDigits base ds.reverse
          = n * base ^ (c :: r).length + Nat.ofDigits base (d :: ds).reverse := by
      intro d ds hlen
      rw [List.reverse_cons, Nat.ofDigits_append, Nat.ofDigits_singleton, List.length_reverse, hlen,
        List.length_cons]
      ring
    show (digit? base c).bind _ = _ ↔ _
    rw [Option.bind_eq_some_iff]
    constructor
    · rintro ⟨d, hd, hr⟩
      obtain ⟨ds, hds, rfl⟩ := ih.mp hr
      exact ⟨d :: ds, List.Forall₂.cons ((digit?_eq_some_iff hb).mp hd) hds,
        hvalue d ds hds.length_eq.symm⟩
    · rintro ⟨ds, hds, rfl⟩
      obtain ⟨d, rest, hd, hrest, rfl⟩ := List.forall₂_cons_left_iff.mp hds
      refine ⟨d, (digit?_eq_some_iff hb).mpr hd, ih.mpr ⟨rest, hrest, ?_⟩⟩
      exact (hvalue d rest hrest.length_eq.symm).symm

theorem numeral_iff (hb : base ≤ 16) : Numeral base s n ↔ s ≠ [] ∧ digits? base 0 s = some n := by
  unfold Numeral
  rw [digits?_eq_some_iff hb]
  simp only [Nat.zero_mul, Nat.zero_add]

theorem Numeral.head (h : Numeral base (c :: s) n) : ∃ d, IsDigit base c d := by
  obtain ⟨-, ds, hds, -⟩ := h
  obtain ⟨d, -, hd, -⟩ := List.forall₂_cons_left_iff.mp hds
  exact ⟨d, hd⟩

theorem not_isDigit (hb : base ≤ 16) (hc : c = '+' ∨ c = 'x' ∨ c = 'X') : ¬ IsDigit base c d := by
  intro h
  have hdigit := (digit?_eq_some_iff hb).mpr h
  have hnone : digit? base c = none := by
    rcases hc with rfl | rfl | rfl <;> rfl
  rw [hnone] at hdigit
  cases hdigit

theorem number?_eq_some_iff (hb : base ≤ 16) : number? base s = some n ↔ SignedNumeral base s n := by
  have hplus : ∀ r, ¬ Numeral base ('+' :: r) n := by
    intro r h
    obtain ⟨d, hd⟩ := h.head
    exact not_isDigit hb (Or.inl rfl) hd
  unfold number? SignedNumeral
  split
  · rename_i c r
    rw [or_iff_right (hplus (c :: r))]
    simp [numeral_iff hb]
  · rename_i c r hno
    have hsigned : ¬ ∃ t, c :: r = '+' :: t ∧ Numeral base t n := by
      rintro ⟨t, ht, hn⟩
      obtain ⟨rfl, rfl⟩ := List.cons.inj ht
      obtain ⟨d, t, rfl⟩ := List.exists_cons_of_ne_nil hn.1
      exact hno d t rfl rfl
    rw [or_iff_left hsigned]
    simp [numeral_iff hb]
  · simp [numeral_iff hb]

theorem scalar?_eq_some_iff : scalar? n = some c ↔ n = c.toNat := by
  unfold scalar?
  constructor
  · intro h
    split_ifs at h with hv
    rw [← Option.some.inj h, Char.ofNat, dif_pos hv]
    rfl
  · rintro rfl
    have hv : c.toNat.isValidChar := c.valid
    rw [if_pos hv, Char.ofNat_toNat]

theorem number?_bind_scalar?_iff (hb : base ≤ 16) :
    (number? base s).bind scalar? = some c ↔ SignedNumeral base s c.toNat := by
  rw [Option.bind_eq_some_iff]
  constructor
  · rintro ⟨n, hn, hc⟩
    rw [← scalar?_eq_some_iff.mp hc]
    exact (number?_eq_some_iff hb).mp hn
  · intro h
    exact ⟨c.toNat, (number?_eq_some_iff hb).mpr h, scalar?_eq_some_iff.mpr rfl⟩

end

/-! ## Bodies -/

section
variable {body s after : List Char} {c : Char}

theorem resolve?_hex {x : Char} (hx : x = 'x' ∨ x = 'X') (s : List Char) :
    resolve? ('#' :: x :: s) = (number? 16 s).bind scalar? := by
  rcases hx with rfl | rfl
  · simp [resolve?]
  · simp [resolve?]

theorem resolve?_decimal (h : ∀ x r, s = x :: r → ¬ (x = 'x' ∨ x = 'X')) :
    resolve? ('#' :: s) = (number? 10 s).bind scalar? := by
  unfold resolve?
  simp only [↓Char.isValue, String.reduceToList, List.cons.injEq, Char.reduceEq, false_and, ↓reduceIte]
  split
  · rename_i r hr
    exact absurd (Or.inl rfl) (h 'x' r (List.cons.inj hr).2)
  · rename_i r hr
    exact absurd (Or.inr rfl) (h 'X' r (List.cons.inj hr).2)
  · rename_i r hr
    rw [(List.cons.inj hr).2]
  · rename_i hno
    exact absurd rfl (hno s)

theorem resolve?_eq_some_iff : resolve? body = some c ↔ Denotes SignedNumeral body c := by
  constructor
  · intro h
    unfold resolve? at h
    split_ifs at h with hlt hgt hamp hquot hapos hnbsp
    · cases h
      exact hlt ▸ .named (by decide)
    · cases h
      exact hgt ▸ .named (by decide)
    · cases h
      exact hamp ▸ .named (by decide)
    · cases h
      exact hquot ▸ .named (by decide)
    · cases h
      exact hapos ▸ .named (by decide)
    · cases h
      exact hnbsp ▸ .named (by decide)
    · split at h
      · exact .hex (Or.inl rfl) ((number?_bind_scalar?_iff (Nat.le_refl _)).mp h)
      · exact .hex (Or.inr rfl) ((number?_bind_scalar?_iff (Nat.le_refl _)).mp h)
      · exact .decimal ((number?_bind_scalar?_iff (by decide)).mp h)
      · cases h
  · intro h
    cases h with
    | named h =>
      simp only [known, List.mem_cons, Prod.mk.injEq, List.not_mem_nil, or_false] at h
      rcases h with ⟨rfl, rfl⟩ | ⟨rfl, rfl⟩ | ⟨rfl, rfl⟩ | ⟨rfl, rfl⟩ | ⟨rfl, rfl⟩ | ⟨rfl, rfl⟩
      all_goals rfl
    | decimal h =>
      rw [resolve?_decimal, number?_bind_scalar?_iff (by decide)]
      · exact h
      · -- hexadecimal digits are read behind an `x`, but no numeral begins with one
        rintro x r rfl hx
        rcases h with h | ⟨t, ht, -⟩
        · obtain ⟨d, hd⟩ := h.head
          exact not_isDigit (by decide) (Or.inr hx) hd
        · rw [(List.cons.inj ht).1] at hx
          revert hx
          decide
    | hex hx h =>
      rw [resolve?_hex hx, number?_bind_scalar?_iff (Nat.le_refl _)]
      exact h

/-- What is read up to the first `;` keeps to the limit. -/
theorem enclosed_of_beforeSemicolon? {limit : Nat} (h : beforeSemicolon? limit s = some (body, after)) :
    ';' ∉ body ∧ (body.map Char.utf8Size).sum ≤ limit := by
  induction s generalizing limit body with
  | nil => cases h
  | cons d r ih =>
    rw [beforeSemicolon?] at h
    split_ifs at h with hd hlimit
    · cases h
      exact ⟨List.not_mem_nil, Nat.zero_le _⟩
    · obtain ⟨⟨b, a⟩, hr, hb⟩ := Option.map_eq_some_iff.mp h
      obtain ⟨rfl, rfl⟩ := Prod.mk.inj hb
      obtain ⟨hclosed, hshort⟩ := ih hr
      refine ⟨?_, ?_⟩
      · rw [List.mem_cons, not_or]
        exact ⟨Ne.symm hd, hclosed⟩
      · rw [List.map_cons, List.sum_cons]
        omega

theorem one_le_utf8Size_iff : 1 ≤ (body.map Char.utf8Size).sum ↔ body ≠ [] := by
  cases body with
  | nil => simp
  | cons d r =>
    have hd : 0 < d.utf8Size := d.utf8Size_pos
    rw [List.map_cons, List.sum_cons]
    constructor
    · intro _
      exact List.cons_ne_nil d r
    · intro _
      omega

theorem body?_eq_some_iff :
    body? s = some (body, after) ↔ s = body ++ ';' :: after ∧ Enclosed body := by
  unfold body?
  rw [Option.filter_eq_some_iff]
  constructor
  · rintro ⟨h, hne⟩
    obtain ⟨hclosed, hshort⟩ := enclosed_of_beforeSemicolon? h
    have hbody : body ≠ [] := by
      rintro rfl
      cases hne
    exact ⟨eq_of_beforeSemicolon? h, one_le_utf8Size_iff.mpr hbody, hshort, hclosed⟩
  · rintro ⟨rfl, hb⟩
    refine ⟨beforeSemicolon?_append hb.unclosed hb.short after, ?_⟩
    have hne := one_le_utf8Size_iff.mp hb.nonempty
    simpa using hne

theorem read?_eq_some_iff : read? s = some (c, after) ↔ Begins SignedNumeral ('&' :: s) c after := by
  unfold read? Begins
  rw [Option.bind_eq_some_iff]
  constructor
  · rintro ⟨⟨body, rest⟩, hbody, hread⟩
    obtain ⟨d, hd, hpair⟩ := Option.map_eq_some_iff.mp hread
    obtain ⟨rfl, rfl⟩ := Prod.mk.inj hpair
    obtain ⟨rfl, henclosed⟩ := body?_eq_some_iff.mp hbody
    exact ⟨body, rfl, henclosed, resolve?_eq_some_iff.mp hd⟩
  · rintro ⟨body, hs, henclosed, hd⟩
    refine ⟨(body, after), body?_eq_some_iff.mpr ⟨(List.cons.inj hs).2, henclosed⟩, ?_⟩
    exact Option.map_eq_some_iff.mpr ⟨c, resolve?_eq_some_iff.mpr hd, rfl⟩

end

/-! ## Texts -/

section
variable {num other : Nat → List Char → Nat → Prop} {s t r after : List Char} {c : Char}

theorem decodeReferences_of_begins (h : Begins SignedNumeral s c after) :
    decodeReferences s = c :: decodeReferences after := by
  obtain ⟨body, rfl, -⟩ := id h
  have hread := read?_eq_some_iff.mpr h
  rw [decodeReferences, if_pos rfl]
  split
  · rename_i d rest hd
    rw [hread] at hd
    cases hd
    rfl
  · rename_i hd
    rw [hread] at hd
    cases hd

theorem decodeReferences_of_not_begins (h : ∀ d after, ¬ Begins SignedNumeral (c :: r) d after) :
    decodeReferences (c :: r) = c :: decodeReferences r := by
  rw [decodeReferences]
  split
  · rename_i hc
    subst hc
    split
    · rename_i d rest hd
      exact absurd (read?_eq_some_iff.mp hd) (h d rest)
    · rfl
  · rfl

theorem decoded_iff_signed : Decoded SignedNumeral s t ↔ t = decodeReferences s := by
  constructor
  · intro h
    induction h with
    | nil => rw [decodeReferences]
    | reference h _ ih => rw [decodeReferences_of_begins h, ih]
    | kept h _ ih => rw [decodeReferences_of_not_begins h, ih]
  · rintro rfl
    fun_induction decodeReferences s with
    | case1 => exact .nil
    | case2 r d after h ih => exact .reference (read?_eq_some_iff.mp h) ih
    | case3 r h ih =>
      refine .kept ?_ ih
      intro d after hb
      rw [read?_eq_some_iff.mpr hb] at h
      cases h
    | case4 c r hc ih =>
      refine .kept ?_ ih
      rintro d after ⟨body, hb, -⟩
      exact hc (List.cons.inj hb).1

/-- Only the references that can begin somewhere in the text count. -/
theorem Decoded.congr (h : ∀ u, u <:+ s → ∀ c after, Begins num u c after ↔ Begins other u c after)
    (hd : Decoded num s t) : Decoded other s t := by
  induction hd with
  | nil => exact .nil
  | reference hb _ ih =>
    refine .reference ((h _ (List.suffix_refl _) _ _).mp hb) (ih fun u hu => h u (hu.trans ?_))
    obtain ⟨body, rfl, -⟩ := hb
    exact ⟨'&' :: (body ++ [';']), by simp⟩
  | kept hb _ ih =>
    refine .kept ?_ (ih fun u hu => h u (hu.trans (List.suffix_cons _ _)))
    intro d after hd
    exact hb d after ((h _ (List.suffix_refl _) d after).mpr hd)

def Signless (s : List Char) : Prop :=
  ∀ sign ∈ ["&#+", "&#x+", "&#X+"], ¬ sign.toList <:+: s

instance (s : List Char) : Decidable (Signless s) := inferInstanceAs (Decidable (∀ sign ∈ _, _))

theorem Denotes.signed {body : List Char} (h : Denotes Numeral body c) : Denotes SignedNumeral body c := by
  cases h with
  | named h => exact .named h
  | decimal h => exact .decimal (Or.inl h)
  | hex hx h => exact .hex hx (Or.inl h)

theorem Signless.begins_iff (h : Signless s) : Begins Numeral s c after ↔ Begins SignedNumeral s c after := by
  constructor
  · rintro ⟨body, hs, henclosed, hd⟩
    exact ⟨body, hs, henclosed, hd.signed⟩
  · rintro ⟨body, rfl, henclosed, hd⟩
    refine ⟨body, rfl, henclosed, ?_⟩
    -- a sign would stand right behind the `#` or the `x`
    cases hd with
    | named h => exact .named h
    | decimal hn =>
      rcases hn with hn | ⟨r, rfl, -⟩
      · exact .decimal hn
      · exact absurd ⟨[], r ++ ';' :: after, rfl⟩ (h "&#+" (by decide))
    | hex hx hn =>
      rcases hn with hn | ⟨r, rfl, -⟩
      · exact .hex hx hn
      · rcases hx with rfl | rfl
        · exact absurd ⟨[], r ++ ';' :: after, rfl⟩ (h "&#x+" (by decide))
        · exact absurd ⟨[], r ++ ';' :: after, rfl⟩ (h "&#X+" (by decide))

theorem decoded_of_signless (h : Signless s) : Decoded Numeral s t ↔ t = decodeReferences s := by
  rw [← decoded_iff_signed]
  have hsuffix : ∀ u, u <:+ s → ∀ c after, Begins Numeral u c after ↔ Begins SignedNumeral u c after := by
    intro u hu c after
    refine Signless.begins_iff fun sign hsign hin => ?_
    exact h sign hsign (hin.trans hu.isInfix)
  constructor
  · exact Decoded.congr hsuffix
  · exact Decoded.congr fun u hu c after => (hsuffix u hu c after).symm

/-- A text reads as what its references make of it, if the number of a reference may have a sign; where
no number has one, reading resolves the references and nothing else. -/
theorem decoded_iff (s t : List Char) :
    (Decoded SignedNumeral s t ↔ t = decodeReferences s) ∧
    (Signless s → (Decoded Numeral s t ↔ t = decodeReferences s)) :=
  ⟨decoded_iff_signed, decoded_of_signless⟩

/-- A text with good references and bad ones. -/
theorem decoded_mixed :
    Decoded Numeral "&#8364;5 &#X42;&amp;lt; &#xZZ;&foo;&".toList "€5 B&lt; &#xZZ;&foo;&".toList := by
  have hsignless : Signless "&#8364;5 &#X42;&amp;lt; &#xZZ;&foo;&".toList := by decide +kernel
  exact ((decoded_iff _ _).2 hsignless).mpr (by decide +kernel)

theorem not_denotes_sign (r : List Char) (c : Char) : ¬ Denotes Numeral ('#' :: '+' :: r) c := by
  generalize hw : '#' :: '+' :: r = body
  intro h
  cases h with
  | named h =>
    simp only [known, List.mem_cons, Prod.mk.injEq, List.not_mem_nil, or_false] at h
    rcases h with ⟨rfl, rfl⟩ | ⟨rfl, rfl⟩ | ⟨rfl, rfl⟩ | ⟨rfl, rfl⟩ | ⟨rfl, rfl⟩ | ⟨rfl, rfl⟩
    all_goals simp at hw
  | decimal h =>
    obtain ⟨-, rfl⟩ := List.cons.inj hw
    obtain ⟨d, hd⟩ := h.head
    exact not_isDigit (by decide) (Or.inl rfl) hd
  | hex hx h =>
    obtain ⟨rfl, -⟩ := List.cons.inj (List.cons.inj hw).2
    revert hx
    decide

/-- A number with a sign is resolved, though a reference has none: the text is to read as it is
written. -/
theorem sign_resolved :
    decodeReferences "&#+65;".toList = "A".toList ∧
      Decoded Numeral "&#+65;".toList "&#+65;".toList ∧ ¬ Decoded Numeral "&#+65;".toList "A".toList := by
  have hno : ∀ c after, ¬ Begins Numeral "&#+65;".toList c after := by
    rintro c after ⟨body, hs, henclosed, hd⟩
    have hread : body? "#+65;".toList = some (body, after) :=
      body?_eq_some_iff.mpr ⟨(List.cons.inj hs).2, henclosed⟩
    have hbody : body? "#+65;".toList = some ("#+65".toList, []) := by decide
    obtain ⟨rfl, -⟩ := Prod.mk.inj (Option.some.inj (hread.symm.trans hbody))
    exact not_denotes_sign _ _ hd
  refine ⟨by decide +kernel, ?_, ?_⟩
  · have hrest : Decoded Numeral "#+65;".toList "#+65;".toList :=
      (decoded_of_signless (by decide +kernel)).mpr (by decide +kernel)
    exact .kept hno hrest
  · intro h
    generalize hs : "&#+65;".toList = s at h
    generalize ht : "A".toList = t at h
    cases h with
    | nil => cases ht
    | reference h _ => exact hno _ _ (hs ▸ h)
    | kept _ _ =>
      have hc := (List.cons.inj hs).1.trans (List.cons.inj ht).1.symm
      revert hc
      decide

end

end Bindery.Reference
