import Bindery.Text.Letter

/-!
# Attribute lists

The attributes of an element are an ordered list of names and values.  A name is looked up and
stored in lower case, so a list made by `set` and `erase` has each name once.

* `Attributes.get?`    the value under a name
* `Attributes.set`     replaces the value in place, or adds the name at the end
* `Attributes.erase`   takes a name away
-/

namespace Bindery

structure Attributes where
  entries : List (String × String)
deriving DecidableEq

namespace Attributes

def empty : Attributes := ⟨[]⟩

instance : Inhabited Attributes := ⟨empty⟩

def names (a : Attributes) : List String := a.entries.map Prod.fst

/-- the value of the first entry with exactly this name -/
def find? (name : String) : List (String × String) → Option String
  | [] => none
  | (n, v) :: r => if n = name then some v else find? name r

/-- The entries with `value` under `name`, in place if the name is there and last otherwise. -/
def put (name value : String) : List (String × String) → List (String × String)
  | [] => [(name, value)]
  | (n, v) :: r => if n = name then (n, value) :: r else (n, v) :: put name value r

def get? (a : Attributes) (name : String) : Option String := find? (Text.lower name) a.entries

def contains (a : Attributes) (name : String) : Bool := (a.get? name).isSome

def set (a : Attributes) (name value : String) : Attributes :=
  ⟨put (Text.lower name) value a.entries⟩

def erase (a : Attributes) (name : String) : Attributes :=
  ⟨a.entries.filter fun e => e.1 ≠ Text.lower name⟩

def ofList (pairs : List (String × String)) : Attributes :=
  pairs.foldl (fun a e => a.set e.1 e.2) empty

theorem find?_put_self (name value : String) (l : List (String × String)) :
    find? name (put name value l) = some value := by
  induction l with
  | nil => simp [put, find?]
  | cons e r ih =>
    obtain ⟨n, v⟩ := e
    simp only [put]
    split
    · rename_i hn
      simp [find?, hn]
    · rename_i hn
      simp [find?, hn, ih]

theorem find?_put_of_ne {name other : String} (h : other ≠ name) (value : String)
    (l : List (String × String)) : find? other (put name value l) = find? other l := by
  induction l with
  | nil => simp [put, find?, Ne.symm h]
  | cons e r ih =>
    obtain ⟨n, v⟩ := e
    simp only [put]
    split
    · rename_i hn
      subst hn
      simp [find?, Ne.symm h]
    · simp [find?, ih]

theorem get?_set_self (a : Attributes) (name value : String) :
    (a.set name value).get? name = some value :=
  find?_put_self _ _ _

theorem get?_set_of_ne (a : Attributes) {name other : String}
    (h : Text.lower other ≠ Text.lower name) (value : String) :
    (a.set name value).get? other = a.get? other :=
  find?_put_of_ne h _ _

end Attributes

end Bindery
