import Bindery.Proofs.Markup.Ordering
import Bindery.Proofs.Markup.Property

/-!
# Writes to attributes

An attribute list is an ordered map.  Its keys are names in lower case, in the order in which they came,
and whatever was written, in whatever letter case, each name shows what the last write to it left.

* `Attributes.Edit`             a write to the attributes of an element
* `Edit.leaves`, `Edit.last?`   what a write leaves under its name, and the last of the writes to a name
* `Edit.Moves`                  what one write does to the order of the names and to other names
* `Edit.get?_runAll`            what a name shows after writes one after the other
* `Edit.property_runAll`        and what a property is
-/

namespace Bindery

namespace Attributes

/-! ## One write -/

inductive Edit where
  | set (name value : String)
  | erase (name : String)
  | setProperty (name : String) (value : Value)

namespace Edit

def name : Edit → String
  | set name _ => name
  | erase name => name
  | setProperty name _ => name

/-- What stands under the name after the write; `none` if the name was taken away. -/
def leaves : Edit → Option String
  | set _ value => some value
  | erase _ => none
  | setProperty name value =>
    if isBooleanProperty name then if value.isTruthy then some "" else none
    else some value.display

def run : Edit → Attributes → Attributes
  | set name value, a => a.set name value
  | erase name, a => a.erase name
  | setProperty name value, a => a.setProperty name value

/-- The last of the writes to a name, in any letter case. -/
def last? (name : String) (edits : List Edit) : Option Edit :=
  (edits.filter fun x => Text.lower x.name = Text.lower name).getLast?

/-- What a write does to a list and makes of it.  A name that is there keeps its place, and so do all
others; a new one comes last; one that is taken away leaves the others in their order.  No other name
gets another value. -/
structure Moves (x : Edit) (a b : Attributes) : Prop where
  kept : x.leaves ≠ none → Text.lower x.name ∈ a.names → b.names = a.names
  appended : x.leaves ≠ none → Text.lower x.name ∉ a.names → b.names = a.names ++ [Text.lower x.name]
  erased : x.leaves = none → b.names = a.names.filter (· ≠ Text.lower x.name)
  others : ∀ name, Text.lower name ≠ Text.lower x.name →
    b.get? name = a.get? name ∧ b.property name = a.property name

end Edit

theorem names_put_of_mem {name value : String} {l : List (String × String)}
    (h : name ∈ l.map Prod.fst) : (put name value l).map Prod.fst = l.map Prod.fst := by
  induction l with
  | nil => cases h
  | cons e r ih =>
    obtain ⟨n, v⟩ := e
    rw [put]
    split
    · rfl
    · rename_i hn
      have hr : name ∈ r.map Prod.fst := (List.mem_cons.mp h).resolve_left fun he => hn he.symm
      exact congrArg (n :: ·) (ih hr)

theorem names_erase (a : Attributes) (name : String) :
    (a.erase name).names = a.names.filter (· ≠ Text.lower name) := by
  show (a.entries.filter _).map Prod.fst = (a.entries.map Prod.fst).filter _
  rw [List.filter_map]
  rfl

theorem sound_erase {a : Attributes} (h : a.Sound) (name : String) : (a.erase name).Sound where
  nodup := by
    rw [names_erase]
    exact h.nodup.filter _
  lower n hn := by
    rw [names_erase] at hn
    exact h.lower n (List.mem_filter.mp hn).1

/-- A list in which each name stands once is told by its names and their values. -/
theorem Sound.entries_eq {a : Attributes} (h : a.Sound) :
    a.entries = a.names.map fun n => (n, (a.get? n).getD "") := by
  rw [names, List.map_map]
  calc a.entries = a.entries.map id := (List.map_id _).symm
    _ = _ := List.map_congr_left fun e he => ?_
  have hname : Text.lower e.1 = e.1 := h.lower e.1 (List.mem_map_of_mem he)
  rw [Function.comp_apply, get?, hname, (find?_eq_some_iff h.nodup).mpr he]
  rfl

theorem isBooleanProperty_congr {m n : String} (h : Text.lower m = Text.lower n) :
    isBooleanProperty m = isBooleanProperty n := by
  unfold isBooleanProperty Text.sameLetters
  rw [h]

theorem property_congr {a b : Attributes} {name : String} (h : b.get? name = a.get? name) :
    b.property name = a.property name := by
  unfold property contains
  rw [h]

namespace Edit

variable {a : Attributes}

theorem run_eq (x : Edit) (a : Attributes) :
    x.run a = match x.leaves with
      | some value => a.set x.name value
      | none => a.erase x.name := by
  cases x with
  | set name value => rfl
  | erase name => rfl
  | setProperty name value =>
    show a.setProperty name value = _
    unfold Attributes.setProperty leaves
    by_cases hb : isBooleanProperty name = true
    · by_cases ht : value.isTruthy = true
      · simp only [if_pos hb, if_pos ht]
        rfl
      · simp only [if_pos hb, if_neg ht]
        rfl
    · simp only [if_neg hb]
      rfl

theorem sound_run (h : a.Sound) (x : Edit) : (x.run a).Sound := by
  rw [run_eq]
  split
  · exact sound_set h x.name _
  · exact sound_erase h x.name

theorem get?_run (x : Edit) (a : Attributes) (name : String) :
    (x.run a).get? name
      = if Text.lower x.name = Text.lower name then x.leaves else a.get? name := by
  rw [run_eq]
  split
  · rename_i value hl
    split
    · rename_i hn
      rw [hl, get?, ← hn]
      exact a.get?_set_self x.name value
    · rename_i hn
      exact a.get?_set_of_ne (Ne.symm hn) value
  · rename_i hl
    split
    · rename_i hn
      rw [hl, get?, ← hn]
      exact a.get?_erase_self x.name
    · rename_i hn
      exact a.get?_erase_of_ne (Ne.symm hn)

theorem moves_run (x : Edit) (a : Attributes) : x.Moves a (x.run a) where
  kept hl hm := by
    obtain ⟨value, hvalue⟩ := Option.ne_none_iff_exists'.mp hl
    rw [run_eq, hvalue]
    exact names_put_of_mem hm
  appended hl hm := by
    obtain ⟨value, hvalue⟩ := Option.ne_none_iff_exists'.mp hl
    rw [run_eq, hvalue]
    show (put _ value a.entries).map Prod.fst = a.entries.map Prod.fst ++ _
    rw [put_of_not_mem hm, List.map_append]
    rfl
  erased hl := by
    rw [run_eq, hl]
    exact names_erase a x.name
  others name hn := by
    have hget : (x.run a).get? name = a.get? name := by rw [get?_run, if_neg (Ne.symm hn)]
    exact ⟨hget, property_congr hget⟩

/-! ## A history of writes -/

def runAll (edits : List Edit) (a : Attributes) : Attributes := edits.foldl (fun a x => x.run a) a

theorem sound_runAll (h : a.Sound) (edits : List Edit) : (runAll edits a).Sound := by
  induction edits generalizing a with
  | nil => exact h
  | cons x r ih => exact ih (sound_run h x)

theorem last?_cons (name : String) (x : Edit) (r : List Edit) :
    last? name (x :: r)
      = (last? name r).or (if Text.lower x.name = Text.lower name then some x else none) := by
  unfold last?
  by_cases hx : Text.lower x.name = Text.lower name
  · rw [List.filter_cons_of_pos (by simpa using hx), List.getLast?_cons, if_pos hx]
    cases (r.filter fun x => Text.lower x.name = Text.lower name).getLast? <;> rfl
  · rw [List.filter_cons_of_neg (by simpa using hx), if_neg hx, Option.or_none]

/-- A name shows what the last write to it left, and without a write what it showed before. -/
theorem get?_runAll (edits : List Edit) (a : Attributes) (name : String) :
    (runAll edits a).get? name = match last? name edits with
      | some x => x.leaves
      | none => a.get? name := by
  induction edits generalizing a with
  | nil => rfl
  | cons x r ih =>
    show (runAll r (x.run a)).get? name = _
    rw [ih, last?_cons, get?_run]
    cases last? name r with
    | some y => rfl
    | none =>
      rw [Option.none_or]
      by_cases hx : Text.lower x.name = Text.lower name
      · rw [if_pos hx, if_pos hx]
      · rw [if_neg hx, if_neg hx]

/-- A property that was written last as a property is the value written, turned into its kind. -/
theorem property_runAll {edits : List Edit} {name written : String} {value : Value}
    (h : last? name edits = some (.setProperty written value)) (a : Attributes) :
    (runAll edits a).property name = value.asProperty name := by
  have hname : Text.lower written = Text.lower name :=
    of_decide_eq_true (List.mem_filter.mp (List.mem_of_getLast? h)).2
  have hget := get?_runAll edits a name
  rw [h] at hget
  have hwritten : (a.setProperty written value).get? name = leaves (.setProperty written value) :=
    (get?_run (.setProperty written value) a name).trans (if_pos hname)
  rw [property_congr (hget.trans hwritten.symm)]
  have hself := a.property_setProperty_self written value
  unfold Attributes.property Attributes.contains Value.asProperty Attributes.get? at hself ⊢
  rwa [isBooleanProperty_congr hname, hname] at hself

end Edit

end Attributes

end Bindery
