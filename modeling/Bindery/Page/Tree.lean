import Bindery.Markup.Printer
import Bindery.Markup.Reader
import Bindery.Markup.Selector
import Bindery.Page.Basic

/-!
# The trees of a page

The elements of a page refer to their children by identity.  `Page.inner` and `Page.outer` lay the
part of the page below an element out as a fragment labelled with identities.  `Page.setMarkup` goes
the other way and grafts a fragment in.

No tree among `n` elements is deeper than `n`, so the layout goes `n` levels down.  An element that
stood inside itself would have a layout without an end; the layout would stop, and is not meant for such
pages.

* `textContent`                  all text of a tree
* `query?`                       the first element that a selector names
* `innerMarkup`, `outerMarkup`   a tree in writing

The last three look only at the elements they need; `query?_eq`, `innerMarkup_eq` and
`outerMarkup_eq` say that they give what the whole tree would give.
-/

namespace Bindery.Page

variable {κ σ : Type}

/-- A row of children.  `below` lays out the children of an element of the row. -/
def row (p : Page κ σ) (below : List Child → Fragment ElementId) : List Child → Fragment ElementId
  | [] => .nil
  | .text content :: r => .text content (row p below r)
  | .element e :: r =>
    match p.element? e with
    | some d => .element e d.tag d.attributes (below d.children) (row p below r)
    | none => row p below r

/-- A row of children with the elements inside them, down to a depth. -/
def rowWithin (p : Page κ σ) : Nat → List Child → Fragment ElementId
  | 0 => row p fun _ => .nil
  | depth + 1 => row p (rowWithin p depth)

def inner (p : Page κ σ) (e : ElementId) : Fragment ElementId :=
  match p.element? e with
  | some d => rowWithin p p.elements.size d.children
  | none => .nil

def outer (p : Page κ σ) (e : ElementId) : Fragment ElementId :=
  match p.element? e with
  | some d => .element e d.tag d.attributes (p.inner e) .nil
  | none => .nil

def textContent (p : Page κ σ) (e : ElementId) : String := String.ofList (p.inner e).textContent

def textOf? (p : Page κ σ) (e : ElementId) : Option String :=
  let text := p.textContent e
  if text = "" then none else some text

def childElements (p : Page κ σ) (e : ElementId) : List ElementId :=
  match p.element? e with
  | some d => d.children.filterMap Child.element?
  | none => []

/-! ## Looking for an element -/

/-- The first element of a row that a selector names, or that `below` finds among the children of an
element of the row. -/
def findInRow (p : Page κ σ) (s : Selector) (below : List Child → Option ElementId) :
    List Child → Option ElementId
  | [] => none
  | .text _ :: r => findInRow p s below r
  | .element e :: r =>
    match p.element? e with
    | some d =>
      if s.selects d.tag d.attributes then some e
      else
        match below d.children with
        | some found => some found
        | none => findInRow p s below r
    | none => findInRow p s below r

/-- The first element that a selector names in a row and below it, down to a depth.  It looks no
further than that element. -/
def findWithin (p : Page κ σ) (s : Selector) : Nat → List Child → Option ElementId
  | 0 => findInRow p s fun _ => none
  | depth + 1 => findInRow p s (findWithin p s depth)

/-- The first element below `e` that a selector's text names. -/
def query? (p : Page κ σ) (e : ElementId) (selector : String) : Option ElementId :=
  match Selector.ofText? selector, p.element? e with
  | some s, some d => p.findWithin s p.elements.size d.children
  | _, _ => none

theorem findInRow_eq (p : Page κ σ) (s : Selector) (find : List Child → Option ElementId)
    (below : List Child → Fragment ElementId)
    (h : ∀ children, find children = ((below children).find? s).map Element.label)
    (children : List Child) :
    p.findInRow s find children = ((p.row below children).find? s).map Element.label := by
  induction children with
  | nil => rfl
  | cons child r ih =>
    cases child with
    | text content => simpa only [findInRow, row, Fragment.find?] using ih
    | element e =>
      simp only [findInRow, row]
      cases p.element? e with
      | none => exact ih
      | some d =>
        simp only [Fragment.find?, h]
        split
        · rfl
        · rw [ih]
          cases (below d.children).find? s <;> rfl

/-- Looking through the store finds what looking through the tree does. -/
theorem findWithin_eq (p : Page κ σ) (s : Selector) (depth : Nat) (children : List Child) :
    p.findWithin s depth children
      = ((p.rowWithin depth children).find? s).map Element.label := by
  induction depth generalizing children with
  | zero => exact p.findInRow_eq s (fun _ => none) (fun _ => .nil) (fun _ => rfl) children
  | succ depth ih => exact p.findInRow_eq s (p.findWithin s depth) (p.rowWithin depth) ih children

theorem query?_eq (p : Page κ σ) (e : ElementId) (selector : String) :
    p.query? e selector
      = (Selector.ofText? selector).bind fun s => ((p.inner e).find? s).map Element.label := by
  unfold query? inner
  cases Selector.ofText? selector with
  | none => rfl
  | some s =>
    cases p.element? e with
    | none => rfl
    | some d => exact p.findWithin_eq s _ d.children

/-! ## Writing markup -/

/-- A row of children in writing, in front of a text.  `below` writes the children of an element of
the row; those of a void element are not looked at. -/
def printRow (p : Page κ σ) (below : List Child → List Char → List Char) :
    List Child → List Char → List Char
  | [], after => after
  | .text content :: r, after => escapeText content.toList ++ printRow p below r after
  | .element e :: r, after =>
    match p.element? e with
    | some d =>
      let after := printRow p below r after
      if d.tag ∈ voidTags then openingTag d.tag d.attributes ++ after
      else openingTag d.tag d.attributes ++ below d.children (closingTag d.tag ++ after)
    | none => printRow p below r after

/-- A row of children in writing, with the elements inside them down to a depth. -/
def printWithin (p : Page κ σ) : Nat → List Child → List Char → List Char
  | 0 => printRow p fun _ after => after
  | depth + 1 => printRow p (printWithin p depth)

def innerMarkup (p : Page κ σ) (e : ElementId) : String :=
  match p.element? e with
  | some d => String.ofList (p.printWithin p.elements.size d.children [])
  | none => ""

def outerMarkup (p : Page κ σ) (e : ElementId) : String :=
  String.ofList (p.printWithin (p.elements.size + 1) [.element e] [])

theorem printRow_eq (p : Page κ σ) (write : List Child → List Char → List Char)
    (below : List Child → Fragment ElementId)
    (h : ∀ children after, write children after = (below children).print ++ after)
    (children : List Child) (after : List Char) :
    p.printRow write children after = (p.row below children).print ++ after := by
  induction children with
  | nil => rfl
  | cons child r ih =>
    cases child with
    | text content => simp only [printRow, row, Fragment.print, ih, List.append_assoc]
    | element e =>
      simp only [printRow, row]
      cases p.element? e with
      | none => exact ih
      | some d =>
        simp only [Fragment.print, printElement, h, ih]
        split <;> simp only [List.append_assoc]

theorem printWithin_eq (p : Page κ σ) (depth : Nat) (children : List Child) (after : List Char) :
    p.printWithin depth children after = (p.rowWithin depth children).print ++ after := by
  induction depth generalizing children after with
  | zero => exact p.printRow_eq (fun _ after => after) (fun _ => .nil) (fun _ _ => rfl) children after
  | succ depth ih =>
    exact p.printRow_eq (p.printWithin depth) (p.rowWithin depth) ih children after

theorem innerMarkup_eq (p : Page κ σ) (e : ElementId) :
    p.innerMarkup e = String.ofList (p.inner e).print := by
  unfold innerMarkup inner
  cases p.element? e with
  | none => rfl
  | some d => simp only [printWithin_eq, List.append_nil]

theorem outerMarkup_eq (p : Page κ σ) (e : ElementId) :
    p.outerMarkup e = String.ofList (p.outer e).print := by
  simp only [outerMarkup, printWithin_eq, List.append_nil, rowWithin, row, outer, inner]
  cases p.element? e with
  | none => rfl
  | some d => rfl

/-! ## Reading markup -/

/-- Makes the elements of a fragment and gives the row of children that it stands for. -/
def graft : Fragment Unit → Page κ σ → List Child × Page κ σ
  | .nil, p => ([], p)
  | .text content rest, p =>
    let (r, p) := graft rest p
    (.text content :: r, p)
  | .element _ tag attributes children rest, p =>
    let (inside, p) := graft children p
    let (e, p) := p.addElement { tag, attributes, children := inside }
    let (r, p) := graft rest p
    (.element e :: r, p)

/-- Replaces the children of an element of the page by what the markup stands for. -/
def setMarkup (e : ElementId) (markup : String) (p : Page κ σ) : Page κ σ :=
  match p.element? e with
  | some _ =>
    let (children, p) := graft (Fragment.ofText markup) p
    p.modifyElement e fun d => { d with children }
  | none => p

end Bindery.Page
