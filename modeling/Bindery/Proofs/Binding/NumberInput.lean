import Bindery.Proofs.Binding.WriteBack
import Bindery.Proofs.Number.Offsets

/-!
# What a number input writes back

A number input writes the number that its text begins with: the longest numeral after the blanks, with
whatever stands behind it passed over.  It writes null where there is none and where the number is
infinite, and so it never writes a text.

* `Numeral.SaysInfinity`             a text that begins with an infinity in words
* `leadingNumber?_of_infinity`, `leadingNumber?_of_not_infinity`   the number of a text
* `Engine.handle_number`             what the write-back of a number input stores
* `number_input_reads_longest`       both together
-/

namespace Bindery

namespace Numeral

/-- An optional sign and the word for infinity. -/
def SaysInfinity (sign s : List Char) : Prop := IsSign sign ∧ sign ++ "Infinity".toList <+: s

theorem unsigned_infinity : Unsigned "Infinity".toList :=
  ⟨'I', "nfinity".toList, by decide, by decide, by decide⟩

theorem splitSign_of_saysInfinity {sign s : List Char} (h : SaysInfinity sign s) :
    (splitSign s).1 = sign ∧ "Infinity".toList.isPrefixOf (splitSign s).2 = true := by
  obtain ⟨hsign, rest, rfl⟩ := h
  rw [List.append_assoc, splitSign_append_of_unsigned hsign (unsigned_infinity.append rest)]
  exact ⟨rfl, List.isPrefixOf_iff_prefix.mpr ⟨rest, rfl⟩⟩

theorem saysInfinity_splitSign {s : List Char}
    (h : "Infinity".toList.isPrefixOf (splitSign s).2 = true) : SaysInfinity (splitSign s).1 s := by
  obtain ⟨rest, hrest⟩ := List.isPrefixOf_iff_prefix.mp h
  refine ⟨isSign_splitSign s, rest, ?_⟩
  rw [List.append_assoc, hrest, splitSign_append]

end Numeral

open Numeral (SaysInfinity IsNumeral IsLongest)

/-! ## The number of a text -/

variable {text : String}

theorem leadingNumber?_of_infinity {sign : List Char}
    (h : SaysInfinity sign (Text.trimStart text.toList)) :
    leadingNumber? text = some (.infinite (sign = ['-'])) := by
  obtain ⟨hsign, hword⟩ := Numeral.splitSign_of_saysInfinity h
  unfold leadingNumber?
  dsimp only
  rw [if_pos hword, hsign]

theorem leadingNumber?_of_not_infinity
    (h : ∀ sign, ¬ SaysInfinity sign (Text.trimStart text.toList)) :
    leadingNumber? text = (Numeral.beginning? (Text.trimStart text.toList)).bind Numeral.read? :=
  if_neg fun hword => h _ (Numeral.saysInfinity_splitSign hword)

theorem leadingNumber?_of_isLongest {n : List Char}
    (h : ∀ sign, ¬ SaysInfinity sign (Text.trimStart text.toList))
    (hn : IsLongest n (Text.trimStart text.toList)) :
    ∃ x, Numeral.read? n = some x ∧ leadingNumber? text = some x := by
  obtain ⟨x, hx⟩ := Option.isSome_iff_exists.mp (Numeral.isSome_read?_iff.mpr hn.numeral)
  rw [leadingNumber?_of_not_infinity h, Numeral.beginning?_iff.mpr hn, Option.bind_some]
  exact ⟨x, hx, hx⟩

theorem leadingNumber?_eq_none_iff
    (h : ∀ sign, ¬ SaysInfinity sign (Text.trimStart text.toList)) :
    leadingNumber? text = none ↔ ∀ n, n <+: Text.trimStart text.toList → ¬ IsNumeral n := by
  rw [leadingNumber?_of_not_infinity h, ← Numeral.beginning?_eq_none_iff]
  cases hn : Numeral.beginning? (Text.trimStart text.toList) with
  | none => exact ⟨fun _ => rfl, fun _ => rfl⟩
  | some n =>
    obtain ⟨hnumeral, -⟩ := Numeral.isNumeral_of_beginning? hn
    obtain ⟨x, hx⟩ := Option.isSome_iff_exists.mp (Numeral.isSome_read?_iff.mpr hnumeral)
    rw [Option.bind_some, hx]
    exact ⟨nofun, nofun⟩

/-! ## Writing it back -/

/-- A number input turns a text into the finite number of its longest numeral, or else into null. -/
theorem toNumber_text (text : String) :
    (∃ n d, IsLongest n (Text.trimStart text.toList) ∧ Numeral.read? n = some (.finite d) ∧
      Control.toNumber (.text text) = .double d) ∨
    Control.toNumber (.text text) = .null ∧
      ((∃ sign, SaysInfinity sign (Text.trimStart text.toList)) ∨
        (∀ n, n <+: Text.trimStart text.toList → ¬ IsNumeral n) ∨
        ∃ n negative, IsLongest n (Text.trimStart text.toList) ∧
          Numeral.read? n = some (.infinite negative)) := by
  simp only [Control.toNumber]
  by_cases hinf : ∃ sign, SaysInfinity sign (Text.trimStart text.toList)
  · obtain ⟨sign, h⟩ := hinf
    rw [leadingNumber?_of_infinity h]
    exact Or.inr ⟨rfl, Or.inl ⟨sign, h⟩⟩
  · have h := not_exists.mp hinf
    cases hn : Numeral.beginning? (Text.trimStart text.toList) with
    | none =>
      have hnone := Numeral.beginning?_eq_none_iff.mp hn
      rw [(leadingNumber?_eq_none_iff h).mpr hnone]
      exact Or.inr ⟨rfl, Or.inr (Or.inl hnone)⟩
    | some n =>
      have hlongest := Numeral.beginning?_iff.mp hn
      obtain ⟨x, hx, hnumber⟩ := leadingNumber?_of_isLongest h hlongest
      rw [hnumber]
      cases x with
      | finite d => exact Or.inl ⟨n, d, hlongest, hx, rfl⟩
      | infinite negative => exact Or.inr ⟨rfl, Or.inr (Or.inr ⟨n, negative, hlongest, hx⟩)⟩

theorem toNumber_ne_text (v : Value) (t : String) : Control.toNumber v ≠ .text t := by
  intro h
  cases v with
  | text s =>
    rcases toNumber_text s with ⟨n, d, -, -, hd⟩ | ⟨hnull, -⟩
    · exact nomatch h.symm.trans hd
    · exact nomatch h.symm.trans hnull
  | _ => cases h

variable {κ σ : Type} {p : Page κ σ}

theorem Page.property_of_text {e : ElementId} {el : PageElement κ} (he : p.element? e = some el)
    {attr : String} (hattr : isBooleanProperty attr = false) :
    p.property e attr = .text ((el.attributes.get? attr).getD "") := by
  unfold Page.property Attributes.property
  rw [he]
  exact if_neg (Bool.eq_false_iff.mp hattr)

theorem Page.property_of_boolean {e : ElementId} {el : PageElement κ} (he : p.element? e = some el)
    {attr : String} (hattr : isBooleanProperty attr = true) :
    p.property e attr = .bool (el.attributes.contains attr) := by
  unfold Page.property Attributes.property
  rw [he]
  exact if_pos hattr

/-- The write-back of a number input stores the number of what the property reads, and announces it if
the model does that. -/
theorem Engine.handle_number (callbacks : Callbacks κ σ) (engine : Engine κ σ) (e : ElementId)
    {m : ModelId} {model : Model} (hm : p.model? m = some model) (attr key : String) :
    handle callbacks engine e (.writeBack (.strong m) attr key .number) p =
      if key ∈ model.observed then
        holding (.model m)
          (engine.publish model.bus (model.event key) (Control.toNumber (p.property e attr)))
          (p.store m key (Control.toNumber (p.property e attr)))
      else some (.ok (), p.store m key (Control.toNumber (p.property e attr))) := by
  rw [handle_of_strong]
  split
  · exact write_of_observed hm ‹_›
  · exact write_of_silent hm ‹_›

/-- The number that a text begins with is that of its longest numeral after the blanks, unless it says
infinity; every such numeral has a value, and to find it no offset is looked at that is out of range.
What the write-back of a number input stores for the text of an attribute is that number, or null where
it is missing or infinite.  For an attribute that is only there or not there it stores one or zero, and
never a text. -/
theorem number_input_reads_longest (text : String) :
    (∀ sign, SaysInfinity sign (Text.trimStart text.toList) →
      leadingNumber? text = some (.infinite (sign = ['-']))) ∧
    ((∀ sign, ¬ SaysInfinity sign (Text.trimStart text.toList)) →
      (∀ n, IsLongest n (Text.trimStart text.toList) →
        ∃ x, Numeral.read? n = some x ∧ leadingNumber? text = some x) ∧
      (leadingNumber? text = none ↔ ∀ n, n <+: Text.trimStart text.toList → ¬ IsNumeral n)) ∧
    numberByOffsets? text = some (leadingNumber? text) ∧
    ∀ (callbacks : Callbacks κ σ) (engine : Engine κ σ) (p : Page κ σ) (e : ElementId)
      (el : PageElement κ) (m : ModelId) (model : Model) (attr key : String),
      p.element? e = some el → p.model? m = some model →
      ∃ value,
        Engine.handle callbacks engine e (.writeBack (.strong m) attr key .number) p =
          (if key ∈ model.observed then
            holding (.model m) (engine.publish model.bus (model.event key) value) (p.store m key value)
          else some (.ok (), p.store m key value)) ∧
        ((p.store m key value).model? m).bind (·.get? key) = some value ∧
        (isBooleanProperty attr = false → (el.attributes.get? attr).getD "" = text →
          (∃ n d, IsLongest n (Text.trimStart text.toList) ∧ Numeral.read? n = some (.finite d) ∧
            value = .double d) ∨
          value = .null ∧ ((∃ sign, SaysInfinity sign (Text.trimStart text.toList)) ∨
            (∀ n, n <+: Text.trimStart text.toList → ¬ IsNumeral n) ∨
            ∃ n negative, IsLongest n (Text.trimStart text.toList) ∧
              Numeral.read? n = some (.infinite negative))) ∧
        (isBooleanProperty attr = true →
          value = .double (if el.attributes.contains attr then Double.one else Double.zero)) ∧
        ∀ t, value ≠ .text t := by
  refine ⟨fun _ => leadingNumber?_of_infinity, fun h => ⟨fun _ => leadingNumber?_of_isLongest h,
    leadingNumber?_eq_none_iff h⟩, numberByOffsets?_eq text, ?_⟩
  intro callbacks engine p e el m model attr key he hm
  refine ⟨_, Engine.handle_number callbacks engine e hm attr key, ?_, ?_, ?_, toNumber_ne_text _⟩
  · rw [Page.model?_store_self hm, Option.bind_some]
    exact Model.get?_written_self model key _
  · intro hattr htext
    rw [Page.property_of_text he hattr, htext]
    exact toNumber_text text
  · intro hattr
    rw [Page.property_of_boolean he hattr]
    rfl

def amountPage : Page Unit Unit where
  models := #[⟨⟨0⟩, "m", [("k", .text "a")], []⟩]
  elements := #[inputElement [("type", "number"), ("value", "\t-.5e3é7")]]
  host := ()

theorem amount_reads_longest :
    IsLongest "-.5e3".toList (Text.trimStart "\t-.5e3é7".toList) ∧
    ∃ q, Engine.handle idleCode Engine.empty ⟨0⟩ (.writeBack (.strong ⟨0⟩) "value" "k" .number) amountPage
        = some (.ok (), q) ∧
      (q.model? ⟨0⟩).bind (·.get? "k") = some (.double ⟨true, 0x407F400000000000, by decide⟩) := by
  have hn : Numeral.beginning? (Text.trimStart "\t-.5e3é7".toList) = some "-.5e3".toList := by
    decide +kernel
  have hread : Numeral.read? "-.5e3".toList
      = some (.finite ⟨true, 0x407F400000000000, by decide⟩) := by decide +kernel
  obtain ⟨-, -, -, hwrite⟩ := @number_input_reads_longest Unit Unit "\t-.5e3é7"
  obtain ⟨value, hhandle, hstored, hvalue, -⟩ := hwrite idleCode Engine.empty amountPage ⟨0⟩ _ ⟨0⟩ _
    "value" "k" rfl rfl
  refine ⟨Numeral.beginning?_iff.mp hn, _, hhandle, hstored.trans ?_⟩
  rcases hvalue (by decide) (by decide) with
    ⟨n, d, hlongest, hd, rfl⟩ | ⟨-, ⟨sign, hsign⟩ | hnone | ⟨n, negative, hlongest, hx⟩⟩
  · cases hn.symm.trans (Numeral.beginning?_iff.mpr hlongest)
    cases hread.symm.trans hd
    rfl
  · exact absurd (Numeral.splitSign_of_saysInfinity hsign).2 (by decide +kernel)
  · exact nomatch hn.symm.trans (Numeral.beginning?_eq_none_iff.mpr hnone)
  · cases hn.symm.trans (Numeral.beginning?_iff.mpr hlongest)
    exact nomatch hread.symm.trans hx

end Bindery
