import Bindery.Page.Basic

/-!
# Lifetimes

A thing is alive while something alive holds it.  The program around the page holds what it took hold
of; a view holds its container, its model and the elements it was populated with; an element holds its
children and what its handlers captured strongly; and a listener holds what it captured strongly, for as
long as it is registered on a bus.  What a callback of the program captured counts as held by the program.

Owners are looked for upwards, those of a whole row of elements at a time, and at most as far as there
are elements.  A chain of owners longer than that runs in a circle, and a circle keeps itself alive.

* `isRooted`, `captures`         whether the program, or a listener, holds something
* `elementAlive`, `modelAlive`   whether something still holds an element or a model
* `someAliveWithin`              the search behind both
-/

namespace Bindery

namespace View

def keeps (v : View) (e : ElementId) : Bool :=
  v.container = e || v.children.contains e || v.targets.any (·.element = e)

end View

namespace PageElement

variable {κ : Type}

def hasChild (d : PageElement κ) (e : ElementId) : Bool := d.children.contains (.element e)

def captures (d : PageElement κ) (h : Handle) : Bool := d.handlers.any (·.2.keeps.contains h)

end PageElement

namespace Page

variable {κ σ : Type}

def isHeld (p : Page κ σ) (h : Handle) : Bool := p.held.contains h

def heldViews (p : Page κ σ) : List View :=
  (p.views.toList.zipIdx.filter fun (_, i) => p.isHeld (.view ⟨i⟩)).map Prod.fst

/-- The program holds one of the elements, itself or through a view. -/
def isRooted (p : Page κ σ) (es : List ElementId) : Bool :=
  es.any (fun e => p.isHeld (.element e)) || p.heldViews.any fun v => es.any v.keeps

def listeners (p : Page κ σ) : List (Listener κ) := p.buses.toList.flatMap Registry.listeners

def captures (p : Page κ σ) (h : Handle) : Bool := p.listeners.any (·.keeps.contains h)

/-- One of the elements is held by the program or by a listener. -/
def isKept (p : Page κ σ) (es : List ElementId) : Bool :=
  p.isRooted es || es.any fun e => p.captures (.element e)

/-- The elements of the page that `select` picks, in the order in which they were made. -/
def elementsWith (p : Page κ σ) (select : PageElement κ → Bool) : List ElementId :=
  (p.elements.toList.zipIdx.filter fun (d, _) => select d).map fun (_, i) => ⟨i⟩

/-- The elements that have one of these as a child. -/
def owners (p : Page κ σ) (es : List ElementId) : List ElementId :=
  p.elementsWith fun d => es.any d.hasChild

/-- One of the elements is alive, as far as `fuel` steps up can tell.  Each step goes from a row of
elements to the row of their owners. -/
def someAliveWithin (p : Page κ σ) : Nat → List ElementId → Bool
  | _, [] => false
  | 0, _ :: _ => true
  | fuel + 1, e :: r => p.isKept (e :: r) || p.someAliveWithin fuel (p.owners (e :: r))

def someAlive (p : Page κ σ) (es : List ElementId) : Bool :=
  p.someAliveWithin (p.elements.size + 1) es

def elementAlive (p : Page κ σ) (e : ElementId) : Bool := p.someAlive [e]

def modelAlive (p : Page κ σ) (m : ModelId) : Bool :=
  p.isHeld (.model m)
    || p.captures (.model m)
    || p.heldViews.any (·.model = m)
    || p.someAlive (p.elementsWith (·.captures (.model m)))

/-- The model of a reference can be used: a strong one needs no looking up. -/
def finds (p : Page κ σ) : Captured ModelId → Bool
  | .weak m => p.modelAlive m
  | .strong _ => true

end Page

end Bindery
