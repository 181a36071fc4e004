/-!
# The first occurrence of a text in a text

* `splitFirst?`       a text cut around the first place where another stands
* `replaceFirst`      the text with something else at that place
* `replaceFirst_eq`   replacing is cutting and joining again
-/

namespace Bindery.Text

/-- what stands before and after the first occurrence of `needle` -/
def splitFirst? (needle : List Char) : List Char → Option (List Char × List Char)
  | [] => if needle.isEmpty then some ([], []) else none
  | c :: r =>
    if needle.isPrefixOf (c :: r) then some ([], (c :: r).drop needle.length)
    else (splitFirst? needle r).map fun (before, after) => (c :: before, after)

def replaceFirst (needle replacement : List Char) : List Char → List Char
  | [] => if needle.isEmpty then replacement else []
  | c :: r =>
    if needle.isPrefixOf (c :: r) then replacement ++ (c :: r).drop needle.length
    else c :: replaceFirst needle replacement r

/-- The replacement stands where the cut is made; without an occurrence the text stays. -/
theorem replaceFirst_eq (needle replacement s : List Char) :
    replaceFirst needle replacement s =
      match splitFirst? needle s with
      | some (before, after) => before ++ replacement ++ after
      | none => s := by
  induction s with
  | nil =>
    simp only [replaceFirst, splitFirst?]
    split <;> simp
  | cons c r ih =>
    simp only [replaceFirst, splitFirst?]
    split
    · simp
    · rw [ih]
      cases splitFirst? needle r <;> simp

/-- The cut loses nothing. -/
theorem append_of_splitFirst? {needle s before after : List Char}
    (h : splitFirst? needle s = some (before, after)) : s = before ++ needle ++ after := by
  induction s generalizing before with
  | nil =>
    simp only [splitFirst?] at h
    split at h
    · rename_i hn
      simp only [List.isEmpty_iff] at hn
      simp_all
    · simp at h
  | cons c r ih =>
    simp only [splitFirst?] at h
    split at h
    · rename_i hp
      obtain ⟨t, ht⟩ := List.isPrefixOf_iff_prefix.mp hp
      simp only [Option.some.injEq, Prod.mk.injEq] at h
      obtain ⟨rfl, rfl⟩ := h
      rw [← ht]
      simp
    · rw [Option.map_eq_some_iff] at h
      obtain ⟨⟨b, a⟩, hr, hb⟩ := h
      simp only [Prod.mk.injEq] at hb
      obtain ⟨rfl, rfl⟩ := hb
      rw [ih hr]
      simp

example : replaceFirst ['b'] ['x', 'y'] ['a', 'b', 'b'] = ['a', 'x', 'y', 'b'] := by decide

end Bindery.Text
