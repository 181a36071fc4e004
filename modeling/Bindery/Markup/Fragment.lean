import Bindery.Markup.Attributes

/-!
# Fragments

A `Fragment` is a row of sibling nodes, each a text or an element with a fragment of its own as
children.  Elements carry a label of any type `ι`: the reader labels with `Unit`, a page with the
identities of its elements.

* `Fragment.textContent`   all text of the fragment, in order
* `Fragment.elements`      the elements of the row itself
* `Fragment.descendants`   every element, each before its own children
* `Fragment.nodes`         every node with its depth, in the same order
-/

namespace Bindery

/-- A row of sibling nodes, first one first. -/
inductive Fragment (ι : Type) where
  | nil
  | text (content : String) (rest : Fragment ι)
  | element (label : ι) (tag : String) (attributes : Attributes) (children rest : Fragment ι)
deriving DecidableEq

/-- An element without its children. -/
structure Element (ι : Type) where
  label : ι
  tag : String
  attributes : Attributes
deriving DecidableEq

/-- A node without its children. -/
inductive Node (ι : Type) where
  | text (content : String)
  | element (e : Element ι)
deriving DecidableEq

namespace Fragment

variable {ι κ : Type}

instance : Inhabited (Fragment ι) := ⟨nil⟩

def append : Fragment ι → Fragment ι → Fragment ι
  | nil, f => f
  | text content rest, f => text content (rest.append f)
  | element label tag attributes children rest, f =>
    element label tag attributes children (rest.append f)

instance : Append (Fragment ι) := ⟨append⟩

@[simp] theorem nil_append (f : Fragment ι) : nil ++ f = f := rfl

@[simp] theorem text_append (content : String) (rest f : Fragment ι) :
    text content rest ++ f = text content (rest ++ f) := rfl

@[simp] theorem element_append (label : ι) (tag : String) (attributes : Attributes)
    (children rest f : Fragment ι) :
    element label tag attributes children rest ++ f
      = element label tag attributes children (rest ++ f) := rfl

@[simp] theorem append_nil (f : Fragment ι) : f ++ nil = f := by
  induction f with
  | nil => rfl
  | text content rest ih => simp [ih]
  | element label tag attributes children rest _ ih => simp [ih]

theorem append_assoc (f g h : Fragment ι) : f ++ g ++ h = f ++ (g ++ h) := by
  induction f with
  | nil => rfl
  | text content rest ih => simp [ih]
  | element label tag attributes children rest _ ih => simp [ih]

def textContent : Fragment ι → List Char
  | nil => []
  | text content rest => content.toList ++ rest.textContent
  | element _ _ _ children rest => children.textContent ++ rest.textContent

def elements : Fragment ι → List (Element ι)
  | nil => []
  | text _ rest => rest.elements
  | element label tag attributes _ rest => ⟨label, tag, attributes⟩ :: rest.elements

/-- Every element of the fragment, each followed by those inside it. -/
def descendants : Fragment ι → List (Element ι)
  | nil => []
  | text _ rest => rest.descendants
  | element label tag attributes children rest =>
    ⟨label, tag, attributes⟩ :: children.descendants ++ rest.descendants

/-- Every node with its depth below the row. -/
def nodes (depth : Nat) : Fragment ι → List (Nat × Node ι)
  | nil => []
  | text content rest => (depth, .text content) :: rest.nodes depth
  | element label tag attributes children rest =>
    (depth, .element ⟨label, tag, attributes⟩) :: children.nodes (depth + 1) ++ rest.nodes depth

/-- The fragment with each element labelled by its path: the numbers of the elements that lead to it,
its own number first, counted among elements only.  `above` is the path of the element around the
row, and `next` is the number of the first element. -/
def withPaths (above : List Nat) (next : Nat) : Fragment ι → Fragment (List Nat)
  | nil => nil
  | text content rest => text content (rest.withPaths above next)
  | element _ tag attributes children rest =>
    element (next :: above) tag attributes (children.withPaths (next :: above) 0)
      (rest.withPaths above (next + 1))

end Fragment

end Bindery
