import Bindery.Proofs.Binding.Calm
import Bindery.Proofs.Engine.Routine

/-!
# What calls do, in order

A call announces values and binds attributes, some calls many times.  What happened before and after
an attribute was bound is read off a list of these deeds.  The deeds of a routine are what it
announces itself; nothing that only bindings listen to announces more.

* `Deed`                 something done that an attribute may depend on
* `Routine.deeds`        what a routine announces
* `Engine.bindDeeds`     binding announces the values of a text, and then binds attributes
* `Call.deeds`           what a call does
* `lastAnnounced`        the value announced last among some events
-/

namespace Bindery

inductive Deed where
  /-- a value was announced, and the bus let it in -/
  | announced (bus : BusId) (event : String) (value : Value)
  /-- the attributes of an element, such as they were, were bound to a model such as it was -/
  | bound (bus : BusId) (e : ElementId) (d : Model) (entries : List (String × String))
  /-- somebody wrote an attribute -/
  | edited (e : ElementId) (name : String)

namespace Deed

/-- The value announced, if it is one of these events. -/
def payload? (b : BusId) (events : List String) : Deed → Option Value
  | announced bus event value => if bus = b ∧ event ∈ events then some value else none
  | _ => none

/-- The element was bound, or somebody wrote this attribute of it. -/
def Touches (e : ElementId) (attr : String) : Deed → Prop
  | announced .. => False
  | bound _ c _ _ => c = e
  | edited c name => c = e ∧ Text.lower attr = Text.lower name

end Deed

/-- The value announced last among these events. -/
def lastAnnounced (b : BusId) (events : List String) (deeds : List Deed) : Option Value :=
  (deeds.filterMap (·.payload? b events)).getLast?

theorem lastAnnounced_append (b : BusId) (events : List String) (ds ds' : List Deed) :
    lastAnnounced b events (ds ++ ds')
      = (lastAnnounced b events ds').or (lastAnnounced b events ds) := by
  unfold lastAnnounced
  rw [List.filterMap_append, List.getLast?_append]

variable {κ σ α : Type}

/-- What was announced, if the bus let it in. -/
def Deed.ofOutcome (bus : BusId) (event : String) (value : Value) : Outcome → List Deed
  | .ok _ => [.announced bus event value]
  | .error _ => []

def Routine.deeds (engine : Engine κ σ) : Routine κ σ α → Page κ σ → List Deed
  | .done _, _ => []
  | .look next, p => (next p).deeds engine p
  | .change f next, p => next.deeds engine (f p)
  | .publish bus event value next, p =>
    match engine.publish bus event value p with
    | some (outcome, q) => Deed.ofOutcome bus event value outcome ++ (next outcome).deeds engine q
    | none => []
  | .dispatch e kind next, p =>
    match engine.dispatch e kind p with
    | some (outcome, q) => (next outcome).deeds engine q
    | none => []

namespace Engine

variable (callbacks : Callbacks κ σ) (engine : Engine κ σ)

def bindDeeds (b : BusId) (m : ModelId) (e : ElementId) (p : Page κ σ) : List Deed :=
  let p := (p.hold (.element e)).hold (.model m)
  (Routine.bindText b m e).deeds engine p ++
    match engine.bindText b m e p with
    | some (.ok _, q) => (q.model? m).toList.map fun d => .bound b e d (q.attributesOf e).entries
    | _ => []

def childDeeds (v : ViewId) (b : BusId) (m : ModelId) : List ElementId → Page κ σ → List Deed
  | [], _ => []
  | e :: r, p =>
    engine.bindDeeds b m e p ++
      match engine.bindElement b m e p with
      | some (.ok targets, q) =>
        childDeeds v b m r (q.modifyView v fun w => { w with targets := w.targets ++ targets })
      | _ => []

/-- Populating a view: if it waits for its content, its new children are bound. -/
def populateDeeds (v : ViewId) (markup : String) (p : Page κ σ) : List Deed :=
  match p.view? v with
  | some view =>
    if view.state ∈ [ViewState.uninitialized, .fetching] then
      engine.childDeeds v view.bus view.model
        ((p.furnish v view markup).childElements view.container) (p.furnish v view markup)
    else []
  | none => []

def handlerDeeds (e : ElementId) : List (Handler κ) → Page κ σ → List Deed
  | [], _ => []
  | h :: r, p =>
    (h.routine callbacks e).deeds engine p ++
      match handle callbacks engine e h p with
      | some (.ok _, q) => handlerDeeds e r q
      | _ => []

end Engine

def Call.deeds (callbacks : Callbacks κ σ) (frames : Nat) : Call κ → Page κ σ → List Deed
  | .bind b m e, p => (Engine.ofFrames callbacks frames).bindDeeds b m e p
  | .populate v markup, p => (Engine.ofFrames callbacks frames).populateDeeds v markup p
  | .dispatch e kind, p =>
    Engine.handlerDeeds callbacks (Engine.ofFrames callbacks (frames - 1)) e (p.handlers e kind)
      (p.hold (.element e))
  | .setAttribute e name _, _ => [.edited e name]
  | .removeAttribute e name, _ => [.edited e name]
  | .setProperty e name _, _ => [.edited e name]
  | c, p => c.routine.deeds (Engine.ofFrames callbacks frames) p

end Bindery
