import Bindery.Page.Basic

/-!
# Engines

An `Engine` carries out the two operations that call code: publishing an event on a bus and firing an
event on an element.  Code that is called may publish and fire events itself, so an engine is built
from a smaller one; how deep calls may go is the number of frames an engine was built from.

* `Run`            a computation over a page; without a result if the frames did not suffice
* `holding`        a computation that holds on to something while it goes on
* `Engine.write`   a write to a model, announced on the model's bus
-/

namespace Bindery

/-- A computation over a page.  It gives nothing if it ran out of frames. -/
abbrev Run (κ σ : Type) := StateT (Page κ σ) Option

/-- How an operation that calls code ends. -/
abbrev Outcome := Except BusError Unit

structure Engine (κ σ : Type) where
  /-- delivers a value to the listeners of an event -/
  publish : BusId → String → Value → Run κ σ Outcome
  /-- fires an event on an element -/
  dispatch : ElementId → EventKind → Run κ σ Outcome

namespace Run

variable {κ σ α : Type}

def exhausted : Run κ σ α := fun _ => none

end Run

/-- Holds on to something for as long as the computation goes on. -/
def holding {κ σ α : Type} (h : Handle) (run : Run κ σ α) : Run κ σ α := do
  modify (Page.hold h)
  let a ← run
  modify (Page.release h)
  return a

namespace Engine

variable {κ σ : Type}

def empty : Engine κ σ where
  publish _ _ _ := .exhausted
  dispatch _ _ := .exhausted

/-- Stores a value and then, if the key announces its writes, publishes it. -/
def write (engine : Engine κ σ) (m : ModelId) (key : String) (value : Value) : Run κ σ Outcome := do
  match (← get).model? m with
  | none => return .ok ()
  | some model =>
    modify (Page.store m key value)
    if key ∈ model.observed then
      holding (.model m) (engine.publish model.bus (model.event key) value)
    else return .ok ()

end Engine

end Bindery
