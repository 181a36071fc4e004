import Bindery.Template.Basic
import Bindery.Value.Display

/-!
# Filling a template when one value changes

`Template.render` is the text a template shows after the value called `changed` became `value`.  The
names of the template are filled one after the other, each time the first slot left with that name:
first all the others from `lookup`, then `changed` from `value`.  One occurrence of `changed` is left
out of the others, so a name that stands once takes its text from `value` alone.

Every slot begins with `$`, so nothing in front of the first `$` is ever filled again, and filling
goes on behind it.

* `fillFirstChars_append`   filling leaves a text without `$` in front alone
* `fillEach_cons_of_some`   filling name by name, without regard to what is set aside
-/

namespace Bindery.Template

/-- Fills one slot per name from `lookup`; a name without a value keeps its slot. -/
def fillEach (lookup : String → Option Value) : List String → List Char → List Char
  | [], text => text
  | name :: r, text =>
    match lookup name with
    | some v =>
      let filled := fillFirstChars text name.toList v.displayChars
      filled.takeWhile (· ≠ '$') ++ fillEach lookup r (filled.dropWhile (· ≠ '$'))
    | none => fillEach lookup r text

def render (template : String) (names : List String) (changed : String) (value : Value)
    (lookup : String → Option Value) : String :=
  let text := fillEach lookup (names.erase changed) template.toList
  String.ofList (fillFirstChars text changed.toList value.displayChars)

theorem fillFirstChars_append {clean : List Char} (h : ∀ c ∈ clean, c ≠ '$')
    (text name value : List Char) :
    fillFirstChars (clean ++ text) name value = clean ++ fillFirstChars text name value := by
  induction clean with
  | nil => rfl
  | cons c r ih =>
    have hc : c ≠ '$' := h c (List.mem_cons_self ..)
    have hr := ih fun d hd => h d (List.mem_cons_of_mem _ hd)
    have hp : (slotChars name).isPrefixOf (c :: (r ++ text)) = false := by
      simp [slotChars, List.isPrefixOf, Ne.symm hc]
    rw [List.cons_append, List.cons_append, ← hr]
    show Text.replaceFirst (slotChars name) value (c :: (r ++ text)) = _
    rw [Text.replaceFirst, hp]
    rfl

theorem fillEach_append (lookup : String → Option Value) {clean : List Char}
    (h : ∀ c ∈ clean, c ≠ '$') (names : List String) (text : List Char) :
    fillEach lookup names (clean ++ text) = clean ++ fillEach lookup names text := by
  induction names generalizing text with
  | nil => rfl
  | cons name r ih =>
    simp only [fillEach]
    split
    · have hp : ∀ c ∈ clean, decide (c ≠ '$') = true := fun c hc => by simpa using h c hc
      simp only [fillFirstChars_append h, List.takeWhile_append_of_pos hp,
        List.dropWhile_append_of_pos hp, List.append_assoc]
    · exact ih text

theorem fillEach_cons_of_some {lookup : String → Option Value} {name : String} {v : Value}
    (h : lookup name = some v) (r : List String) (text : List Char) :
    fillEach lookup (name :: r) text
      = fillEach lookup r (fillFirstChars text name.toList v.displayChars) := by
  have hc : ∀ c ∈ (fillFirstChars text name.toList v.displayChars).takeWhile (· ≠ '$'), c ≠ '$' :=
    fun c hc => by simpa using List.all_eq_true.mp List.all_takeWhile c hc
  simp only [fillEach, h]
  rw [← fillEach_append lookup hc, List.takeWhile_append_dropWhile]

theorem fillEach_cons_of_none {lookup : String → Option Value} {name : String}
    (h : lookup name = none) (r : List String) (text : List Char) :
    fillEach lookup (name :: r) text = fillEach lookup r text := by
  simp only [fillEach, h]

end Bindery.Template
