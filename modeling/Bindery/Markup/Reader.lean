import Bindery.Markup.Fragment
import Bindery.Markup.Reference
import Bindery.Markup.Token
import Bindery.Markup.WrittenOrder

/-!
# Reading a fragment

`Fragment.ofText` reads any text as a fragment.  The lexemes of the text go one by one through a stack
of open elements: an opening tag opens a level, a closing tag with exactly the name of the innermost
open element closes it, and any other closing tag is ignored.  What is open at the end of the text is
closed there.

* `Attributes.ofWritten`   the attributes of a tag, in the order in which it names them
* `Level`, `Stack.take`    the stack of open elements, and one step of it
-/

namespace Bindery

/-- Elements that are never open.  The name counts as it is written. -/
def standaloneTags : List (List Char) :=
  ["area", "base", "br", "col", "embed", "hr", "img", "input", "keygen", "link", "meta", "param",
   "source", "track", "wbr"].map String.toList

namespace Attributes

/-- The value under a name that a tag keeps once.  The last occurrence counts, and it gives no
attribute if it has no value. -/
def lastWritten (name : String) (l : List WrittenAttribute) : List WrittenAttribute :=
  match (l.filter (·.name = name.toList)).getLast? with
  | some a => if a.value?.isSome then [a] else []
  | none => []

/-- The name in lower case and the value with its references resolved; no value is the empty one. -/
def resolve (a : WrittenAttribute) : String × String :=
  (Text.lower (String.ofList a.name), String.ofList (decodeReferences (a.value?.getD [])))

/-- The pairs whose names are in `order`, in that order, and then the others.  Pairs with one name
keep their order. -/
def arrange (order : List String) (pairs : List (String × String)) : List (String × String) :=
  order.eraseDups.flatMap (fun name => pairs.filter (·.1 = name))
    ++ pairs.filter (fun p => p.1 ∉ order)

/-- The attributes of a tag.  Those named `id` and `class` come behind the others until the order in
which `source` names them is restored. -/
def ofWritten (l : List WrittenAttribute) (source : List Char) : Attributes :=
  let others := l.filter fun a => a.name ≠ "id".toList ∧ a.name ≠ "class".toList
  let all := others ++ lastWritten "id" l ++ lastWritten "class" l
  ofList (arrange (writtenOrder source) (all.map resolve))

end Attributes

/-- An open element, or the row at the top. -/
structure Level where
  /-- the name as written, in the closing tag too -/
  name : List Char
  attributes : List WrittenAttribute
  /-- the opening tag -/
  opening : List Char
  /-- what has been read since -/
  inside : List Char
  children : Fragment Unit

namespace Level

def add (l : Level) (nodes : Fragment Unit) (source : List Char) : Level :=
  { l with inside := l.inside ++ source, children := l.children ++ nodes }

/-- The element of a level, with the characters from which the order of its attributes is read. -/
def close (l : Level) (source : List Char) : Fragment Unit :=
  .element () (Text.lower (String.ofList l.name)) (Attributes.ofWritten l.attributes source)
    l.children .nil

end Level

/-- The open elements, innermost first, above the row at the top. -/
structure Stack where
  opened : List Level
  row : Fragment Unit

namespace Stack

def empty : Stack := ⟨[], .nil⟩

/-- Adds nodes and the characters they were read from to the innermost level. -/
def add (nodes : Fragment Unit) (source : List Char) (s : Stack) : Stack :=
  match s.opened with
  | [] => { s with row := s.row ++ nodes }
  | l :: outer => { s with opened := l.add nodes source :: outer }

def take (s : Stack) (lexeme : Lexeme) : Stack :=
  match lexeme.token with
  | .text content => s.add (.text (String.ofList (decodeReferences content)) .nil) lexeme.source
  | .opening name attributes selfClosing =>
    let level : Level := ⟨name, attributes, lexeme.source, [], .nil⟩
    if selfClosing ∨ name ∈ standaloneTags then s.add (level.close lexeme.source) lexeme.source
    else { s with opened := level :: s.opened }
  | .closing name =>
    match s.opened with
    | [] => s
    | l :: outer =>
      if l.name = name then
        let source := l.opening ++ l.inside ++ lexeme.source
        add (l.close source) source { s with opened := outer }
      else s.add .nil lexeme.source
  | .skipped => s.add .nil lexeme.source

/-- Closes what is still open, the innermost level first.  `inner` is the element just closed. -/
def finish (row inner : Fragment Unit) : List Level → Fragment Unit
  | [] => row ++ inner
  | l :: outer => finish row ({ l with children := l.children ++ inner }.close l.opening) outer

def result (s : Stack) : Fragment Unit := finish s.row .nil s.opened

end Stack

namespace Fragment

def ofChars (s : List Char) : Fragment Unit :=
  ((Lexeme.ofText s).foldl Stack.take Stack.empty).result

def ofText (s : String) : Fragment Unit := ofChars s.toList

end Fragment

end Bindery
