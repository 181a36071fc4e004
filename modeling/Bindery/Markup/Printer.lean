import Bindery.Markup.Fragment
import Bindery.Markup.Reference

/-!
# Writing a fragment

`Fragment.print` writes elements as tags, attributes in their order and in double quotes, and text
with its references.  A void element has only an opening tag, whatever children it holds.

* `Fragment.print`       a fragment in writing
* `Fragment.printOnto`   the same in front of a text, without copying what is inside an element;
                         `printOnto_eq` says that it is the same
-/

namespace Bindery

def voidTags : List String :=
  ["area", "base", "br", "col", "embed", "hr", "img", "input", "link", "meta", "source", "track",
   "wbr"]

/-- One attribute with the blank in front of it. -/
def printAttribute (name value : String) : List Char :=
  ' ' :: name.toList ++ '=' :: '"' :: escapeValue value.toList ++ ['"']

def Attributes.print (a : Attributes) : List Char :=
  a.entries.flatMap fun e => printAttribute e.1 e.2

def openingTag (tag : String) (attributes : Attributes) : List Char :=
  '<' :: tag.toList ++ attributes.print ++ ['>']

def closingTag (tag : String) : List Char := '<' :: '/' :: tag.toList ++ ['>']

/-- The tag with its children between, or the opening tag alone for a void element. -/
def printElement (tag : String) (attributes : Attributes) (children : List Char) : List Char :=
  if tag ∈ voidTags then openingTag tag attributes
  else openingTag tag attributes ++ children ++ closingTag tag

namespace Fragment

variable {ι : Type}

def print : Fragment ι → List Char
  | nil => []
  | text content rest => escapeText content.toList ++ rest.print
  | element _ tag attributes children rest =>
    printElement tag attributes children.print ++ rest.print

/-- The fragment in writing, in front of a text. -/
def printOnto : Fragment ι → List Char → List Char
  | nil, after => after
  | text content rest, after => escapeText content.toList ++ rest.printOnto after
  | element _ tag attributes children rest, after =>
    let after := rest.printOnto after
    if tag ∈ voidTags then openingTag tag attributes ++ after
    else openingTag tag attributes ++ children.printOnto (closingTag tag ++ after)

def markup (f : Fragment ι) : String := String.ofList (f.printOnto [])

theorem printOnto_eq (f : Fragment ι) (after : List Char) : f.printOnto after = f.print ++ after := by
  induction f generalizing after with
  | nil => rfl
  | text content rest ih => simp [printOnto, print, ih]
  | element label tag attributes children rest ihc ih =>
    simp only [printOnto, print, printElement]
    split <;> simp [ihc, ih]

theorem markup_eq (f : Fragment ι) : f.markup = String.ofList f.print := by
  rw [markup, printOnto_eq, List.append_nil]

theorem print_append (f g : Fragment ι) : (f ++ g).print = f.print ++ g.print := by
  induction f with
  | nil => rfl
  | text content rest ih => simp [print, ih]
  | element label tag attributes children rest _ ih => simp [print, ih]

end Fragment

end Bindery
