import Bindery.Number.Double

/-!
# Data values

A `Value` is null, a truth value, a number, a text, a list of values or a record.  Integers and
doubles are different kinds of numbers: `45` and `45.0` are not the same value.  A record has its
keys in ascending order, each once.

* `Record.get?`, `Record.set`   reading and writing one key
* `Value.isTruthy`              what counts as true where a truth value is wanted
-/

namespace Bindery

inductive Value where
  | null
  | bool (b : Bool)
  | int (n : Int)
  | double (d : Double)
  | text (s : String)
  | list (items : List Value)
  /-- keys in ascending order, each once -/
  | record (fields : List (String × Value))

instance : Inhabited Value := ⟨.null⟩

/-- The fields of a record, their keys ascending. -/
abbrev Record := List (String × Value)

namespace Record

def get? (key : String) : Record → Option Value
  | [] => none
  | (k, v) :: r => if k = key then some v else get? key r

def contains (key : String) (fields : Record) : Bool := (get? key fields).isSome

def keys (fields : Record) : List String := fields.map Prod.fst

/-- The record with `value` under `key`, in the place that the order of the keys gives it. -/
def set (key : String) (value : Value) : Record → Record
  | [] => [(key, value)]
  | (k, v) :: r =>
    if k = key then (key, value) :: r
    else if key < k then (key, value) :: (k, v) :: r
    else (k, v) :: set key value r

/-- The record of a list of fields; of two with one key the later counts. -/
def ofFields (fields : List (String × Value)) : Record :=
  fields.foldl (fun r f => set f.1 f.2 r) []

@[simp] theorem get?_nil (key : String) : get? key [] = none := rfl

theorem get?_set_self (key : String) (value : Value) (fields : Record) :
    get? key (set key value fields) = some value := by
  induction fields with
  | nil => simp [set, get?]
  | cons f r ih =>
    obtain ⟨k, v⟩ := f
    simp only [set]
    split
    · simp [get?]
    · rename_i hk
      split
      · simp [get?]
      · simp [get?, hk, ih]

theorem get?_set_of_ne {key other : String} (h : other ≠ key) (value : Value) (fields : Record) :
    get? other (set key value fields) = get? other fields := by
  induction fields with
  | nil => simp [set, get?, Ne.symm h]
  | cons f r ih =>
    obtain ⟨k, v⟩ := f
    simp only [set]
    split
    · rename_i hk
      subst hk
      simp [get?, Ne.symm h]
    · split
      · simp [get?, Ne.symm h]
      · simp [get?, ih]

end Record

namespace Value

/-- What counts as true: a number other than zero, a text other than the empty one and `false`, and
every list and record. -/
def isTruthy : Value → Bool
  | null => false
  | bool b => b
  | int n => n != 0
  | double d => !d.isZero
  | text s => s != "" && s != "false"
  | list _ => true
  | record _ => true

end Value

end Bindery
