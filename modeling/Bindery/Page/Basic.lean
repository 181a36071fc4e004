import Bindery.Binding.Control
import Bindery.Bus.Registry
import Bindery.Source.Shelf

/-!
# Pages

A `Page` is everything that bindings join: elements, data models, the buses between them, views, and
the shelves that templates come from.  Each kind has identities of its own, numbered as they are made.
Nothing is ever taken out of a page; what nobody can reach any more is told by its lifetime
(`Bindery.Page.Lifetime`).

Two type parameters stand for the program around the page: `κ` for the code of its callbacks, and `σ`
for the state it keeps to itself.  A callback installed by the program is kept as its code.

* `Captured`              a reference that a listener or a handler keeps, weak or strong
* `Listener`, `Handler`   what waits on a bus, and on an element
* `Model`                 a record whose first keys announce every write
* `View`                  a container with a template of its own
-/

namespace Bindery

structure BusId where
  index : Nat
deriving DecidableEq

structure ModelId where
  index : Nat
deriving DecidableEq

structure ElementId where
  index : Nat
deriving DecidableEq

structure ViewId where
  index : Nat
deriving DecidableEq

structure ShelfId where
  index : Nat
deriving DecidableEq

/-- Something that a program around the page holds on to. -/
inductive Handle where
  | element (e : ElementId)
  | model (m : ModelId)
  | view (v : ViewId)
deriving DecidableEq

structure Subscription where
  bus : BusId
  place : Registration
deriving DecidableEq

/-- A reference that was captured by what is called later.  A strong one keeps what it refers to alive;
a weak one has to be looked up when the call comes. -/
inductive Captured (α : Type) where
  | weak (target : α)
  | strong (target : α)
deriving DecidableEq

namespace Captured

variable {α : Type}

def target : Captured α → α
  | weak a => a
  | strong a => a

@[simp] theorem target_weak (a : α) : (weak a).target = a := rfl

@[simp] theorem target_strong (a : α) : (strong a).target = a := rfl

def kept? : Captured α → Option α
  | weak _ => none
  | strong a => some a

end Captured

/-- What is called when an event is delivered. -/
inductive Listener (κ : Type) where
  /-- fills the template of an element's text again, after the value called `changed` changed -/
  | text (element : Captured ElementId) (model : Captured ModelId) (template : String)
      (names : List String) (changed : String)
  /-- writes the value delivered to a property of an element -/
  | property (element : Captured ElementId) (name : String)
  | callback (code : κ)

/-- What the listener keeps alive for as long as it is registered. -/
def Listener.keeps {κ : Type} : Listener κ → List Handle
  | text e m _ _ _ => (e.kept?.map .element).toList ++ (m.kept?.map .model).toList
  | property e _ => (e.kept?.map .element).toList
  | callback _ => []

/-- What is called when an event is fired on an element. -/
inductive Handler (κ : Type) where
  /-- writes a property of the element to a key of a model -/
  | writeBack (model : Captured ModelId) (property key : String) (control : Control)
  | callback (code : κ)

/-- What the handler keeps alive for as long as its element is. -/
def Handler.keeps {κ : Type} : Handler κ → List Handle
  | writeBack m _ _ _ => (m.kept?.map .model).toList
  | callback _ => []

inductive Child where
  | text (content : String)
  | element (e : ElementId)
deriving DecidableEq

namespace Child

def element? : Child → Option ElementId
  | text _ => none
  | element e => some e

end Child

structure PageElement (κ : Type) where
  tag : String
  attributes : Attributes := .empty
  children : List Child := []
  handlers : List (EventKind × Handler κ) := []

structure Model where
  bus : BusId
  name : String
  values : Record
  /-- the keys that announce every write, ascending -/
  observed : List String

/-- Where in an element a binding shows its values. -/
inductive Spot where
  | text
  | property (name : String)
deriving DecidableEq

/-- A text or attribute that shows values. -/
structure Target where
  element : ElementId
  spot : Spot
  /-- as it was found, with its slots -/
  template : String
  /-- the names of its slots in order, repeated names kept -/
  names : List String
deriving DecidableEq

inductive ViewState where
  | uninitialized
  | fetching
  | populated
  | bound
  | errored
deriving DecidableEq

structure View where
  bus : BusId
  container : ElementId
  model : ModelId
  path : String
  state : ViewState := .uninitialized
  /-- the container's elements when it was populated -/
  children : List ElementId := []
  targets : List Target := []

structure Page (κ σ : Type) where
  buses : Array (Registry (Listener κ)) := #[]
  models : Array Model := #[]
  elements : Array (PageElement κ) := #[]
  views : Array View := #[]
  shelves : Array Shelf := #[]
  /-- what the program around the page holds, once for each time it took hold -/
  held : List Handle := []
  /-- the state of the program around the page -/
  host : σ

def changeEvent (model key : String) : String := model ++ "." ++ key ++ ":change"

namespace ViewState

def name : ViewState → String
  | uninitialized => "Uninitialized"
  | fetching => "Fetching"
  | populated => "Populated"
  | bound => "Bound"
  | errored => "Errored"

end ViewState

namespace Model

def contains (m : Model) (key : String) : Bool := m.values.contains key

def get? (m : Model) (key : String) : Option Value := m.values.get? key

def event (m : Model) (key : String) : String := changeEvent m.name key

end Model

namespace Page

variable {κ σ : Type}

def bus? (p : Page κ σ) (b : BusId) : Option (Registry (Listener κ)) := p.buses[b.index]?

def model? (p : Page κ σ) (m : ModelId) : Option Model := p.models[m.index]?

def element? (p : Page κ σ) (e : ElementId) : Option (PageElement κ) := p.elements[e.index]?

def view? (p : Page κ σ) (v : ViewId) : Option View := p.views[v.index]?

def shelf? (p : Page κ σ) (s : ShelfId) : Option Shelf := p.shelves[s.index]?

def modifyBus (b : BusId) (f : Registry (Listener κ) → Registry (Listener κ)) (p : Page κ σ) :
    Page κ σ :=
  { p with buses := p.buses.modify b.index f }

def modifyModel (m : ModelId) (f : Model → Model) (p : Page κ σ) : Page κ σ :=
  { p with models := p.models.modify m.index f }

def modifyElement (e : ElementId) (f : PageElement κ → PageElement κ) (p : Page κ σ) : Page κ σ :=
  { p with elements := p.elements.modify e.index f }

def modifyView (v : ViewId) (f : View → View) (p : Page κ σ) : Page κ σ :=
  { p with views := p.views.modify v.index f }

def modifyShelf (s : ShelfId) (f : Shelf → Shelf) (p : Page κ σ) : Page κ σ :=
  { p with shelves := p.shelves.modify s.index f }

/-! ## New things -/

def addBus (maxDepth : Nat) (p : Page κ σ) : BusId × Page κ σ :=
  (⟨p.buses.size⟩, { p with buses := p.buses.push { maxDepth } })

/-- A model on a bus.  The keys it begins with are the ones that announce. -/
def addModel (bus : BusId) (name : String) (values : Record) (p : Page κ σ) : ModelId × Page κ σ :=
  (⟨p.models.size⟩, { p with models := p.models.push ⟨bus, name, values, values.keys⟩ })

def addElement (element : PageElement κ) (p : Page κ σ) : ElementId × Page κ σ :=
  (⟨p.elements.size⟩, { p with elements := p.elements.push element })

/-- An element without attributes and children.  Tags are in lower case. -/
def createElement (tag : String) (p : Page κ σ) : ElementId × Page κ σ :=
  p.addElement { tag := Text.lower tag }

def addView (view : View) (p : Page κ σ) : ViewId × Page κ σ :=
  (⟨p.views.size⟩, { p with views := p.views.push view })

def addShelf (entries : List (String × Fetched)) (p : Page κ σ) : ShelfId × Page κ σ :=
  (⟨p.shelves.size⟩, { p with shelves := p.shelves.push { entries } })

/-! ## Holding on -/

def hold (h : Handle) (p : Page κ σ) : Page κ σ := { p with held := h :: p.held }

/-- Lets go once. -/
def release (h : Handle) (p : Page κ σ) : Page κ σ := { p with held := p.held.erase h }

/-! ## Writing -/

/-- Stores a value without announcing it. -/
def store (m : ModelId) (key : String) (value : Value) : Page κ σ → Page κ σ :=
  modifyModel m fun d => { d with values := d.values.set key value }

def setAttribute (e : ElementId) (name value : String) : Page κ σ → Page κ σ :=
  modifyElement e fun d => { d with attributes := d.attributes.set name value }

def removeAttribute (e : ElementId) (name : String) : Page κ σ → Page κ σ :=
  modifyElement e fun d => { d with attributes := d.attributes.erase name }

def setProperty (e : ElementId) (name : String) (value : Value) : Page κ σ → Page κ σ :=
  modifyElement e fun d => { d with attributes := d.attributes.setProperty name value }

def property (p : Page κ σ) (e : ElementId) (name : String) : Value :=
  match p.element? e with
  | some d => d.attributes.property name
  | none => .null

/-- Replaces the children by a single text, or by nothing if the text is empty. -/
def setText (e : ElementId) (text : String) : Page κ σ → Page κ σ :=
  modifyElement e fun d => { d with children := if text = "" then [] else [.text text] }

def appendChild (e : ElementId) (child : Child) : Page κ σ → Page κ σ :=
  modifyElement e fun d => { d with children := d.children ++ [child] }

def listen (e : ElementId) (kind : EventKind) (handler : Handler κ) : Page κ σ → Page κ σ :=
  modifyElement e fun d => { d with handlers := d.handlers ++ [(kind, handler)] }

/-- The handlers of one kind, first installed first. -/
def handlers (p : Page κ σ) (e : ElementId) (kind : EventKind) : List (Handler κ) :=
  match p.element? e with
  | some d => (d.handlers.filter (·.1 = kind)).map Prod.snd
  | none => []

def subscribe (bus : BusId) (event : String) (listener : Listener κ) (p : Page κ σ) :
    Option Subscription × Page κ σ :=
  match p.bus? bus with
  | some r =>
    let (place, r) := r.subscribe event listener
    (some ⟨bus, place⟩, p.modifyBus bus fun _ => r)
  | none => (none, p)

def unsubscribe (s : Subscription) : Page κ σ → Page κ σ :=
  modifyBus s.bus (·.remove s.place)

def request (s : ShelfId) (path : String) (p : Page κ σ) : Option Fetched × Page κ σ :=
  match p.shelf? s with
  | some shelf =>
    let (answer, shelf) := shelf.retrieve path
    (some answer, p.modifyShelf s fun _ => shelf)
  | none => (none, p)

end Page

end Bindery
