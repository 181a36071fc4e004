import Bindery.View.Lifecycle
import Bindery.View.Setup

/-!
# Programs over a page

A `Program` is what code around a page may do: look at the page, change the state it keeps there for
itself, and make calls.  It is data: a call is one of a fixed list, and what comes after it depends on
the answer only.  So a program cannot reach into the page otherwise, and each run of it is finite.

* `Call`, `Call.Answer`   the calls, and what each answers
* `Call.run`              what a call does, given an engine
* `Program.run`           what a program does
-/

namespace Bindery

/-- What a program may ask of a page.  `κ` is the code of callbacks. -/
inductive Call (κ : Type) where
  | openBus (maxDepth : Nat)
  | subscribe (bus : BusId) (event : String) (code : κ)
  | unsubscribe (s : Subscription)
  | clear (bus : BusId)
  | publish (bus : BusId) (event : String) (value : Value)
  /-- a model on a bus -/
  | observe (bus : BusId) (name : String) (values : Record)
  | write (m : ModelId) (key : String) (value : Value)
  | create (tag : String)
  | setAttribute (e : ElementId) (name value : String)
  | removeAttribute (e : ElementId) (name : String)
  | setProperty (e : ElementId) (name : String) (value : Value)
  | setText (e : ElementId) (text : String)
  | setMarkup (e : ElementId) (markup : String)
  | append (e : ElementId) (child : Child)
  | listen (e : ElementId) (kind : EventKind) (code : κ)
  | dispatch (e : ElementId) (kind : EventKind)
  | bind (bus : BusId) (m : ModelId) (e : ElementId)
  | stock (entries : List (String × Fetched))
  | openView (bus : BusId) (request : ViewRequest)
  /-- fetches the template from a shelf, or from somewhere that does not answer -/
  | load (v : ViewId) (shelf : Option ShelfId)
  | populate (v : ViewId) (markup : String)
  | hold (h : Handle)
  | release (h : Handle)

namespace Call

variable {κ σ : Type}

def Answer : Call κ → Type
  | openBus _ => BusId
  | subscribe .. => Option Subscription
  | publish .. => Outcome
  | observe .. => ModelId
  | write .. => Outcome
  | create _ => ElementId
  | dispatch .. => Outcome
  | bind .. => Except BusError (List Target)
  | stock _ => ShelfId
  | openView .. => Except SetupError ViewId
  | load .. => Except ViewError Loaded
  | populate .. => Except ViewError Unit
  | _ => Unit

def run (engine : Engine κ σ) : (c : Call κ) → Run κ σ c.Answer
  | openBus maxDepth => modifyGet (Page.addBus maxDepth)
  | subscribe bus event code => modifyGet (Page.subscribe bus event (.callback code))
  | unsubscribe s => modify (Page.unsubscribe s)
  | clear bus => modify (Page.modifyBus bus Registry.clear)
  | publish bus event value => engine.publish bus event value
  | observe bus name values => modifyGet (Page.addModel bus name values)
  | write m key value => engine.write m key value
  | create tag => modifyGet (Page.createElement tag)
  | setAttribute e name value => modify (Page.setAttribute e name value)
  | removeAttribute e name => modify (Page.removeAttribute e name)
  | setProperty e name value => modify (Page.setProperty e name value)
  | setText e text => modify (Page.setText e text)
  | setMarkup e markup => modify (Page.setMarkup e markup)
  | append e child => modify (Page.appendChild e child)
  | listen e kind code => modify (Page.listen e kind (.callback code))
  | dispatch e kind => engine.dispatch e kind
  | bind bus m e => engine.bindElement bus m e
  | stock entries => modifyGet (Page.addShelf entries)
  | openView bus request => modifyGet (Page.openView bus request)
  | load v shelf => engine.load v shelf
  | populate v markup => engine.populate v markup
  | hold h => modify (Page.hold h)
  | release h => modify (Page.release h)

end Call

/-- A program over a page, with a result of type `α`. -/
inductive Program (κ σ : Type) (α : Type) where
  | done (a : α)
  | inspect (next : Page κ σ → Program κ σ α)
  | amend (f : σ → σ) (next : Program κ σ α)
  | call (c : Call κ) (next : c.Answer → Program κ σ α)

namespace Program

variable {κ σ α β : Type}

def bind : Program κ σ α → (α → Program κ σ β) → Program κ σ β
  | done a, f => f a
  | inspect next, f => inspect fun p => (next p).bind f
  | amend g next, f => amend g (next.bind f)
  | call c next, f => call c fun a => (next a).bind f

instance : Monad (Program κ σ) where
  pure := done
  bind := bind

def run (engine : Engine κ σ) : Program κ σ α → Run κ σ α
  | done a => return a
  | inspect next => do (next (← get)).run engine
  | amend f next => do
    modify fun p => { p with host := f p.host }
    next.run engine
  | call c next => do (next (← c.run engine)).run engine

/-- A program goes on with the page that its first part leaves. -/
theorem run_bind (engine : Engine κ σ) (p : Program κ σ α) (f : α → Program κ σ β) :
    (p.bind f).run engine = p.run engine >>= fun a => (f a).run engine := by
  induction p with
  | done a => simp [Program.bind, run]
  | inspect next ih => simp [Program.bind, run, ih]
  | amend g next ih => simp [Program.bind, run, ih]
  | call c next ih => simp [Program.bind, run, ih]

def page : Program κ σ (Page κ σ) := inspect done

def asks (f : Page κ σ → α) : Program κ σ α := inspect fun p => done (f p)

def host : Program κ σ σ := asks Page.host

def modifyHost (f : σ → σ) : Program κ σ Unit := amend f (done ())

def ask (c : Call κ) : Program κ σ c.Answer := call c done

end Program

/-- What the code of callbacks stands for. -/
structure Callbacks (κ σ : Type) where
  /-- called with the value delivered -/
  onPublish : κ → Value → Program κ σ Outcome
  /-- called with the element that the event was fired on -/
  onEvent : κ → ElementId → Program κ σ Outcome

end Bindery
