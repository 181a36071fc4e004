import Bindery.Engine.Program
import Bindery.Page.Lifetime
import Bindery.Template.Render

/-!
# Delivery

Delivering an event calls the listeners that its channel has at the start, in order, and looks up each
again when its turn comes: a listener that is gone by then is passed over, and a channel that is gone
ends the delivery.  Firing an event on an element calls the handlers that it has at the start.  The
first failure ends either.

* `Engine.publish`, `Engine.dispatch` of `Engine.next`   with one frame more than a given engine
* `Engine.ofFrames`                                      with a number of frames
-/

namespace Bindery.Engine

variable {κ σ : Type}

/-! ## Listeners and handlers -/

/-- The text of a binding after the value called `changed` became `value`. -/
def renderedText (p : Page κ σ) (m : ModelId) (template : String) (names : List String)
    (changed : String) (value : Value) : String :=
  Template.render template names changed value fun name => (p.model? m).bind (·.get? name)

/-- A listener of a binding does nothing once its element or its model is dead.  What it captured
strongly is alive, since it is registered itself when it is called. -/
def notify (callbacks : Callbacks κ σ) (engine : Engine κ σ) (listener : Listener κ) (value : Value) :
    Run κ σ Outcome := do
  match listener with
  | .text e m template names changed =>
    let p ← get
    if p.elementAlive e.target && p.modelAlive m.target then
      set (p.setText e.target (renderedText p m.target template names changed value))
    return .ok ()
  | .property e name =>
    let p ← get
    if p.elementAlive e.target then set (p.setProperty e.target name value)
    return .ok ()
  | .callback code => (callbacks.onPublish code value).run engine

def handle (callbacks : Callbacks κ σ) (engine : Engine κ σ) (e : ElementId) (handler : Handler κ) :
    Run κ σ Outcome := do
  match handler with
  | .writeBack m property key control =>
    let p ← get
    if p.finds m then engine.write m.target key (control.coerce (p.property e property))
    else return .ok ()
  | .callback code => (callbacks.onEvent code e).run engine

/-! ## One frame -/

def deliver (callbacks : Callbacks κ σ) (engine : Engine κ σ) (bus : BusId) (event : String)
    (generation : Nat) (value : Value) : List Nat → Run κ σ Outcome
  | [] => return .ok ()
  | i :: r => do
    match ((← get).bus? bus).bind (·.slot? event generation i) with
    | none => return .ok ()
    | some none => deliver callbacks engine bus event generation value r
    | some (some listener) =>
      match ← notify callbacks engine listener value with
      | .ok () => deliver callbacks engine bus event generation value r
      | .error failure => return .error failure

/-- Publishes an event; its channel is entered, gone through and left. -/
def publishWith (callbacks : Callbacks κ σ) (engine : Engine κ σ) (bus : BusId) (event : String)
    (value : Value) : Run κ σ Outcome := do
  match (← get).bus? bus with
  | none => return .ok ()
  | some registry =>
    match registry.enter event with
    | .error failure => return .error failure
    | .ok none => return .ok ()
    | .ok (some (delivery, registry)) =>
      modify (Page.modifyBus bus fun _ => registry)
      let outcome ← deliver callbacks engine bus event delivery.generation value
        (List.range delivery.length)
      modify (Page.modifyBus bus Registry.leave)
      return outcome

def handleAll (callbacks : Callbacks κ σ) (engine : Engine κ σ) (e : ElementId) :
    List (Handler κ) → Run κ σ Outcome
  | [] => return .ok ()
  | h :: r => do
    match ← handle callbacks engine e h with
    | .ok () => handleAll callbacks engine e r
    | .error failure => return .error failure

def dispatchWith (callbacks : Callbacks κ σ) (engine : Engine κ σ) (e : ElementId)
    (kind : EventKind) : Run κ σ Outcome :=
  holding (.element e) do
    handleAll callbacks engine e ((← get).handlers e kind)

/-! ## Frames -/

/-- The engine whose callbacks are carried out by a given one. -/
def next (callbacks : Callbacks κ σ) (engine : Engine κ σ) : Engine κ σ where
  publish := publishWith callbacks engine
  dispatch := dispatchWith callbacks engine

/-- The engine in which publishing and firing may be nested `frames` deep.  The engine with one frame
less is made when a call needs it, so frames that are not used cost nothing. -/
def ofFrames (callbacks : Callbacks κ σ) : Nat → Engine κ σ
  | 0 => empty
  | frames + 1 =>
    { publish := fun bus event value => publishWith callbacks (ofFrames callbacks frames) bus event value
      dispatch := fun e kind => dispatchWith callbacks (ofFrames callbacks frames) e kind }

@[simp] theorem ofFrames_zero (callbacks : Callbacks κ σ) : ofFrames callbacks 0 = empty := rfl

theorem ofFrames_succ (callbacks : Callbacks κ σ) (frames : Nat) :
    ofFrames callbacks (frames + 1) = next callbacks (ofFrames callbacks frames) := rfl

end Bindery.Engine
