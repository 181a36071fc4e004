/-!
# Letter case

Names in markup are compared without regard to the case of ASCII letters; all other characters are
left alone.
-/

namespace Bindery.Text

/-- The text with `A` to `Z` replaced by `a` to `z`. -/
def lower (s : String) : String := String.ofList (s.toList.map Char.toLower)

/-- the two texts differ at most in the case of ASCII letters -/
def sameLetters (s t : String) : Bool := lower s == lower t

theorem toLower_eq_self {c : Char} (h : ¬ (65 ≤ c.toNat ∧ c.toNat ≤ 90)) : c.toLower = c := by
  delta Char.toLower
  rw [dif_neg]
  intro hc
  apply h
  obtain ⟨h1, h2⟩ := hc
  exact ⟨by simpa [UInt32.le_iff_toNat_le] using h1, by simpa [UInt32.le_iff_toNat_le] using h2⟩

theorem toNat_toLower {c : Char} (h : 65 ≤ c.toNat ∧ c.toNat ≤ 90) :
    c.toLower.toNat = c.toNat + 32 := by
  have hc : c.val ≥ 'A'.val ∧ c.val ≤ 'Z'.val :=
    ⟨by simpa [UInt32.le_iff_toNat_le] using h.1, by simpa [UInt32.le_iff_toNat_le] using h.2⟩
  delta Char.toLower
  rw [dif_pos hc]
  show (c.val + 32).toNat = c.val.toNat + 32
  have hb : c.val.toNat ≤ 90 := h.2
  rw [UInt32.toNat_add]
  simp
  omega

theorem toLower_toLower (c : Char) : c.toLower.toLower = c.toLower := by
  by_cases h : 65 ≤ c.toNat ∧ c.toNat ≤ 90
  · exact toLower_eq_self (by rw [toNat_toLower h]; omega)
  · rw [toLower_eq_self h, toLower_eq_self h]

theorem lower_lower (s : String) : lower (lower s) = lower s := by
  simp only [lower, String.toList_ofList, List.map_map]
  congr 2
  funext c
  exact toLower_toLower c

end Bindery.Text
