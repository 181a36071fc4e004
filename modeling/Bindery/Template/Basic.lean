import Bindery.Text.Find

/-!
# Templates

A template is a text with slots.  A slot is written `${name}` with a name of ASCII letters and
digits; everything else stands for itself, malformed slots included.

* `Template.pieces`      the template cut into characters and slots, from left to right
* `Template.names?`      the names of its slots in order, repeated names kept
* `Template.fillFirst`   the text with the first slot of one name filled
* `source_pieces`        cutting a text into pieces loses nothing
-/

namespace Bindery

inductive Piece where
  | char (c : Char)
  | slot (name : List Char)
deriving DecidableEq

namespace Template

def isNameChar (c : Char) : Bool := c.isAlphanum

/-- The written form of the slot `name`, for any text as name. -/
def slotChars (name : List Char) : List Char := '$' :: '\x7b' :: name ++ ['\x7d']

/-- The name of the slot that stands first in the text, and what follows the slot. -/
def slotAt? : List Char → Option (List Char × List Char)
  | '$' :: '\x7b' :: r =>
    match r.takeWhile isNameChar, r.dropWhile isNameChar with
    | c :: name, '\x7d' :: after => some (c :: name, after)
    | _, _ => none
  | _ => none

theorem eq_of_slotAt? {s name after : List Char} (h : slotAt? s = some (name, after)) :
    s = slotChars name ++ after := by
  unfold slotAt? at h
  split at h
  · rename_i r
    split at h
    · rename_i c n a ht hd
      simp only [Option.some.injEq, Prod.mk.injEq] at h
      obtain ⟨rfl, rfl⟩ := h
      have e : r = (c :: n) ++ '\x7d' :: a := by
        rw [← ht, ← hd, List.takeWhile_append_dropWhile]
      rw [e]
      simp [slotChars]
    · simp at h
  · simp at h

theorem length_lt_of_slotAt? {s name after : List Char} (h : slotAt? s = some (name, after)) :
    after.length < s.length := by
  rw [eq_of_slotAt? h]
  simp [slotChars]
  omega

/-- The pieces of a text.  A slot is taken where it begins first, and the search goes on after it. -/
def pieces (s : List Char) : List Piece :=
  match s with
  | [] => []
  | c :: r =>
    match _h : slotAt? (c :: r) with
    | some (name, after) => .slot name :: pieces after
    | none => .char c :: pieces r
termination_by s.length
decreasing_by
  · exact length_lt_of_slotAt? (by assumption)
  · simp

end Template

namespace Piece

def source : Piece → List Char
  | char c => [c]
  | slot name => Template.slotChars name

def name? : Piece → Option String
  | char _ => none
  | slot name => some (String.ofList name)

end Piece

namespace Template

/-- Cutting a text into pieces loses nothing. -/
theorem source_pieces (s : List Char) : (pieces s).flatMap Piece.source = s := by
  fun_induction pieces s with
  | case1 => rfl
  | case2 c r name after h ih => simp [Piece.source, ih, eq_of_slotAt? h]
  | case3 c r h ih => simp [Piece.source, ih]

def names (text : String) : List String := (pieces text.toList).filterMap Piece.name?

/-- The names of the slots of a text, or `none` if it has no slot. -/
def names? (text : String) : Option (List String) :=
  if (names text).isEmpty then none else some (names text)

def slot (name : String) : String := String.ofList (slotChars name.toList)

/-- The text with the first occurrence of the slot `name` replaced.  `name` may be any text. -/
def fillFirstChars (text name value : List Char) : List Char :=
  Text.replaceFirst (slotChars name) value text

def fillFirst (text name value : String) : String :=
  String.ofList (fillFirstChars text.toList name.toList value.toList)

end Template

end Bindery
