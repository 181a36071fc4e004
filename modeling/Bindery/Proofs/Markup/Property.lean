import Bindery.Markup.Property

/-!
# Properties after a write

Writing a property gives it the value written, turned into the kind that the property has; the other
properties stay.

* `Value.asProperty`         a value turned into the kind of a property
* `property_setProperty`     the property that was written
* `get?_setProperty_of_ne`   any other
* `setProperty_eq_self`      a property that has the value already
-/

namespace Bindery

/-- What a property becomes when a value is written to it. -/
def Value.asProperty (name : String) (v : Value) : Value :=
  if isBooleanProperty name then .bool v.isTruthy else .text v.display

namespace Attributes

/-! ## One attribute -/

theorem find?_filter_ne (name : String) (l : List (String × String)) :
    find? name (l.filter fun e => e.1 ≠ name) = none := by
  induction l with
  | nil => rfl
  | cons e r ih =>
    obtain ⟨n, v⟩ := e
    by_cases h : n = name
    · rw [List.filter_cons_of_neg (by simpa using h), ih]
    · rw [List.filter_cons_of_pos (by simpa using h), find?, if_neg h, ih]

theorem find?_filter_of_ne {name other : String} (h : other ≠ name) (l : List (String × String)) :
    find? other (l.filter fun e => e.1 ≠ name) = find? other l := by
  induction l with
  | nil => rfl
  | cons e r ih =>
    obtain ⟨n, v⟩ := e
    by_cases hn : n = name
    · have hne : ¬ n = other := fun he => h (he.symm.trans hn)
      rw [List.filter_cons_of_neg (by simpa using hn), ih, find?, if_neg hne]
    · rw [List.filter_cons_of_pos (by simpa using hn), find?, find?, ih]

theorem get?_erase_self (a : Attributes) (name : String) : (a.erase name).get? name = none :=
  find?_filter_ne _ _

theorem get?_erase_of_ne (a : Attributes) {name other : String}
    (h : Text.lower other ≠ Text.lower name) : (a.erase name).get? other = a.get? other :=
  find?_filter_of_ne h _

/-! ## Properties -/

theorem get?_setProperty_of_ne (a : Attributes) {name other : String}
    (h : Text.lower other ≠ Text.lower name) (value : Value) :
    (a.setProperty name value).get? other = a.get? other := by
  unfold setProperty
  split
  · split
    · exact a.get?_set_of_ne h _
    · exact a.get?_erase_of_ne h
  · exact a.get?_set_of_ne h _

theorem get?_setProperty_self {name : String} (hb : isBooleanProperty name = false)
    (a : Attributes) (value : Value) : (a.setProperty name value).get? name = some value.display := by
  unfold setProperty
  rw [if_neg (by simp [hb])]
  exact a.get?_set_self _ _

theorem property_setProperty_self (a : Attributes) (name : String) (value : Value) :
    (a.setProperty name value).property name = value.asProperty name := by
  unfold property setProperty Value.asProperty contains
  split
  · split
    · rename_i ht
      rw [get?_set_self, ht]
      rfl
    · rename_i ht
      rw [get?_erase_self, Bool.eq_false_iff.mpr ht]
      rfl
  · rw [get?_set_self]
    rfl

/-! ## Writing a value again -/

theorem put_eq_self {name value : String} {l : List (String × String)}
    (h : find? name l = some value) : put name value l = l := by
  induction l with
  | nil => cases h
  | cons e r ih =>
    obtain ⟨n, v⟩ := e
    unfold find? at h
    unfold put
    by_cases hn : n = name
    · rw [if_pos hn, Option.some.injEq] at h
      rw [if_pos hn, h]
    · rw [if_neg hn] at h
      rw [if_neg hn, ih h]

theorem filter_ne_eq_self {name : String} {l : List (String × String)} (h : find? name l = none) :
    (l.filter fun e => e.1 ≠ name) = l := by
  induction l with
  | nil => rfl
  | cons e r ih =>
    obtain ⟨n, v⟩ := e
    unfold find? at h
    by_cases hn : n = name
    · rw [if_pos hn] at h
      cases h
    · rw [if_neg hn] at h
      rw [List.filter_cons_of_pos (by simpa using hn), ih h]

/-- What a property is after a write does not depend on what it was. -/
theorem get?_setProperty_congr (a a' : Attributes) (name : String) (value : Value) :
    (a.setProperty name value).get? name = (a'.setProperty name value).get? name := by
  unfold setProperty
  split
  · split
    · rw [get?_set_self, get?_set_self]
    · rw [get?_erase_self, get?_erase_self]
  · rw [get?_set_self, get?_set_self]

/-- A property that has the value already stays as it is, and so do the others. -/
theorem setProperty_eq_self {a : Attributes} {name : String} {value : Value}
    (h : (a.setProperty name value).get? name = a.get? name) : a.setProperty name value = a := by
  unfold setProperty at h ⊢
  split at h
  · split at h
    · rename_i hb ht
      rw [if_pos hb, if_pos ht]
      rw [get?_set_self] at h
      exact congrArg Attributes.mk (put_eq_self h.symm)
    · rename_i hb ht
      rw [if_pos hb, if_neg ht]
      rw [get?_erase_self] at h
      exact congrArg Attributes.mk (filter_ne_eq_self h.symm)
  · rename_i hb
    rw [if_neg hb]
    rw [get?_set_self] at h
    exact congrArg Attributes.mk (put_eq_self h.symm)

theorem setProperty_setProperty (a : Attributes) (name : String) (value : Value) :
    (a.setProperty name value).setProperty name value = a.setProperty name value :=
  setProperty_eq_self (get?_setProperty_congr ..)

theorem setProperty_eq_self_of_setProperty {a : Attributes} {name other : String} {value : Value}
    (h : a.setProperty name value = a)
    (hne : Text.lower name = Text.lower other → name = other) :
    (a.setProperty other value).setProperty name value = a.setProperty other value := by
  by_cases hn : name = other
  · rw [hn]
    exact a.setProperty_setProperty other value
  · refine setProperty_eq_self ?_
    rw [get?_setProperty_congr _ a, h]
    exact (a.get?_setProperty_of_ne (fun hl => hn (hne hl)) value).symm

end Attributes

end Bindery
