import Bindery.Binding.Element

/-!
# The life of a view

A view starts uninitialized.  Loading fetches its template, once; populating puts markup into its
container and binds the elements of the container.  A view that is bound stays so, and so does one
that failed.

* `populate`   from uninitialized or fetching to bound, or to errored if a binding fails
* `load`       from uninitialized over fetching to what `populate` makes of the template, or to
               errored if there is none
-/

namespace Bindery

inductive Loaded where
  | bound
  /-- The answer did not come. -/
  | pending
deriving DecidableEq

namespace Engine

variable {κ σ : Type}

/-- Refuses an operation that the state of a view does not allow. -/
def allowed (operation : String) (states : List ViewState) (view : View) : Except ViewError Unit :=
  if view.state ∈ states then .ok () else .error (.invalidState operation view.state.name)

def enterState (v : ViewId) (state : ViewState) : Run κ σ Unit :=
  modify (Page.modifyView v fun view => { view with state })

/-- Binds elements one after the other.  The targets of an element count once all of it is bound. -/
def bindChildren (engine : Engine κ σ) (v : ViewId) (bus : BusId) (m : ModelId) :
    List ElementId → Run κ σ Outcome
  | [] => return .ok ()
  | e :: r => do
    match ← engine.bindElement bus m e with
    | .error failure => return .error failure
    | .ok targets =>
      modify (Page.modifyView v fun view => { view with targets := view.targets ++ targets })
      engine.bindChildren v bus m r

/-- Puts markup into the container of a view and binds the elements there. -/
def fillContainer (engine : Engine κ σ) (v : ViewId) (view : View) (markup : String) :
    Run κ σ (Except ViewError Unit) := do
  modify (Page.setMarkup view.container markup)
  let children := (← get).childElements view.container
  modify (Page.modifyView v fun view => { view with children, state := .populated })
  match ← engine.bindChildren v view.bus view.model children with
  | .ok () =>
    enterState v .bound
    return .ok ()
  | .error failure =>
    enterState v .errored
    return .error (.bus failure)

def populate (engine : Engine κ σ) (v : ViewId) (markup : String) :
    Run κ σ (Except ViewError Unit) := do
  match (← get).view? v with
  | none => return .ok ()
  | some view =>
    match allowed "populate" [.uninitialized, .fetching] view with
    | .error failure => return .error failure
    | .ok () => holding (.view v) (engine.fillContainer v view markup)

/-- Loads the template of a view from a shelf; without a shelf the answer does not come. -/
def load (engine : Engine κ σ) (v : ViewId) (shelf : Option ShelfId) :
    Run κ σ (Except ViewError Loaded) := do
  match (← get).view? v with
  | none => return .ok .bound
  | some view =>
    match allowed "load" [.uninitialized] view with
    | .error failure => return .error failure
    | .ok () =>
      enterState v .fetching
      let answer ← modifyGet fun p =>
        match shelf with
        | some s => p.request s view.path
        | none => (none, p)
      match answer with
      | none => return .ok .pending
      | some (.error failure) =>
        enterState v .errored
        return .error (.fetch failure)
      | some (.ok markup) => return (← engine.populate v markup).map fun _ => .bound

end Engine

end Bindery
