import Bindery.Markup.Fragment
import Bindery.Text.Blank

/-!
# Selectors

A selector names elements by identity (`#a`), by one of their classes (`.a`) or by tag (`a`).

* `Selector.ofText?`     the selector a text stands for; blanks around it do not count
* `Selector.selects`     whether an element is selected
* `Fragment.find?`       the first selected element, each element before those inside it
-/

namespace Bindery

inductive Selector where
  | byId (id : String)
  | byClass (name : String)
  | byTag (tag : String)
deriving DecidableEq

namespace Selector

def ofText? (text : String) : Option Selector :=
  match Text.trim text.toList with
  | [] => none
  | '#' :: r => if r.isEmpty then none else some (.byId (String.ofList r))
  | '.' :: r => if r.isEmpty then none else some (.byClass (String.ofList r))
  | s => some (.byTag (Text.lower (String.ofList s)))

/-- The classes of an element, separated by ASCII blanks in its attribute. -/
def classes (a : Attributes) : List String :=
  match a.get? "class" with
  | some v => (Text.words v.toList).map String.ofList
  | none => []

def selects (s : Selector) (tag : String) (a : Attributes) : Bool :=
  match s with
  | .byId id => a.get? "id" == some id
  | .byClass name => (classes a).contains name
  | .byTag t => tag == t

end Selector

namespace Fragment

variable {ι : Type}

/-- The first element that the selector names: an element comes before those inside it, and those
before its later siblings. -/
def find? (s : Selector) : Fragment ι → Option (Element ι)
  | nil => none
  | text _ rest => rest.find? s
  | element label tag attributes children rest =>
    if s.selects tag attributes then some ⟨label, tag, attributes⟩
    else (children.find? s).or (rest.find? s)

end Fragment

end Bindery
