import Mathlib.Data.List.TakeWhile

/-!
# Offsets in a text

In memory a text is a row of bytes, one to four for each character, and a place in it is an offset, the
number of bytes in front of it.  An offset can lie behind the end of the text, or between two bytes of
one character; then nothing can be cut off there, and `none` stands for that.

* `bytes`      the bytes of a text
* `cutAt?`     the two pieces around an offset
* `offset?`    the offset of the first character with a property
-/

namespace Bindery.Text

def bytes (s : List Char) : List UInt8 := s.flatMap String.utf8EncodeChar

/-- The pieces of a text before and after an offset; `none` behind the end and within a character. -/
def cutAt? : List Char → Nat → Option (List Char × List Char)
  | s, 0 => some ([], s)
  | [], _ + 1 => none
  | c :: r, offset + 1 =>
    if (String.utf8EncodeChar c).length ≤ offset + 1 then
      (cutAt? r (offset + 1 - (String.utf8EncodeChar c).length)).map fun x => (c :: x.1, x.2)
    else none

/-- Where the first character with a property stands. -/
def offset? (p : Char → Bool) : List Char → Option Nat
  | [] => none
  | c :: r => if p c then some 0 else (offset? p r).map ((String.utf8EncodeChar c).length + ·)

theorem bytes_append (s t : List Char) : bytes (s ++ t) = bytes s ++ bytes t := List.flatMap_append

theorem length_bytes_cons (c : Char) (r : List Char) :
    (bytes (c :: r)).length = (String.utf8EncodeChar c).length + (bytes r).length := by
  rw [bytes, List.flatMap_cons, List.length_append]
  rfl

theorem length_utf8EncodeChar_pos (c : Char) : 0 < (String.utf8EncodeChar c).length := by
  rw [String.length_utf8EncodeChar]
  exact c.utf8Size_pos

theorem length_bytes_pos_iff {s : List Char} : 0 < (bytes s).length ↔ s ≠ [] := by
  cases s with
  | nil => simp [bytes]
  | cons c r =>
    have hc := length_utf8EncodeChar_pos c
    rw [length_bytes_cons]
    exact ⟨fun _ => List.cons_ne_nil c r, fun _ => by omega⟩

theorem cutAt?_bytes (s t : List Char) : cutAt? (s ++ t) (bytes s).length = some (s, t) := by
  induction s with
  | nil => cases t <;> rfl
  | cons c r ih =>
    obtain ⟨k, hk⟩ := Nat.exists_eq_succ_of_ne_zero (Nat.ne_of_gt (length_utf8EncodeChar_pos c))
    have hoffset : (bytes (c :: r)).length = k + (bytes r).length + 1 := by
      rw [length_bytes_cons, hk]
      omega
    have hleft : k + (bytes r).length + 1 - (k + 1) = (bytes r).length := by omega
    rw [hoffset, List.cons_append, cutAt?, hk, Nat.succ_eq_add_one, if_pos (by omega), hleft, ih]
    rfl

section Offset

variable {p : Char → Bool} {s : List Char}

/-- The characters in front of an offset that was found do not have the property. -/
theorem eq_of_offset? {n : Nat} (h : offset? p s = some n) :
    ∃ front c r, s = front ++ c :: r ∧ (∀ d ∈ front, p d = false) ∧ p c = true ∧
      n = (bytes front).length := by
  induction s generalizing n with
  | nil => cases h
  | cons c r ih =>
    rw [offset?] at h
    split at h
    · rename_i hc
      exact ⟨[], c, r, rfl, nofun, hc, (Option.some.inj h).symm⟩
    · rename_i hc
      obtain ⟨m, hm, rfl⟩ := Option.map_eq_some_iff.mp h
      obtain ⟨front, d, back, rfl, hfront, hd, rfl⟩ := ih hm
      refine ⟨c :: front, d, back, rfl, ?_, hd, (length_bytes_cons c front).symm⟩
      exact List.forall_mem_cons.mpr ⟨(Bool.not_eq_true _).mp hc, hfront⟩

theorem of_offset?_eq_none (h : offset? p s = none) : ∀ c ∈ s, p c = false := by
  induction s with
  | nil => exact nofun
  | cons c r ih =>
    rw [offset?] at h
    split at h
    · cases h
    · rename_i hc
      exact List.forall_mem_cons.mpr ⟨(Bool.not_eq_true _).mp hc, ih (Option.map_eq_none_iff.mp h)⟩

/-- The offset of the first character with the property, or of the end if there is none. -/
theorem offset?_getD (p : Char → Bool) (s : List Char) :
    (offset? p s).getD (bytes s).length = (bytes (s.takeWhile fun c => !p c)).length := by
  induction s with
  | nil => rfl
  | cons c r ih =>
    rw [offset?]
    by_cases hc : p c = true
    · rw [if_pos hc, List.takeWhile_cons_of_neg (by simp [hc])]
      rfl
    · rw [if_neg hc, List.takeWhile_cons_of_pos (by simp [hc]), length_bytes_cons, length_bytes_cons, ← ih]
      cases offset? p r <;> rfl

theorem cutAt?_offset? (p : Char → Bool) (s : List Char) :
    cutAt? s ((offset? p s).getD (bytes s).length)
      = some (s.takeWhile fun c => !p c, s.dropWhile fun c => !p c) := by
  have hcut := cutAt?_bytes (s.takeWhile fun c => !p c) (s.dropWhile fun c => !p c)
  rwa [List.takeWhile_append_dropWhile, ← offset?_getD] at hcut

end Offset

end Bindery.Text
