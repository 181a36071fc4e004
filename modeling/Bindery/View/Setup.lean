import Bindery.Page.Tree

/-!
# Setting up a view

A view needs a container, a record of data and the path of a template; the name of its model may be
left out.  They are checked in that order, and the first that is missing or wrong is the error.

* `ViewRequest.settle`   the checked parts of a request
* `Page.openView`        the view, with a model of its own on the bus
-/

namespace Bindery

inductive ContainerChoice where
  | element (e : ElementId)
  /-- the first element below `root` that a selector names -/
  | selected (root : ElementId) (selector : String)
deriving DecidableEq

structure ViewRequest where
  container? : Option ContainerChoice := none
  data? : Option Value := none
  path? : Option String := none
  model? : Option String := none

/-- A request of which nothing is missing. -/
structure ViewPlan where
  container : ElementId
  values : Record
  path : String
  model : String

namespace Value

def kindName : Value → String
  | null => "null"
  | bool _ => "boolean"
  | int _ => "number"
  | double _ => "number"
  | text _ => "string"
  | list _ => "array"
  | record _ => "object"

end Value

namespace ViewRequest

variable {κ σ : Type}

def settleContainer (p : Page κ σ) : Option ContainerChoice → Except SetupError ElementId
  | none => .error .missingContainer
  | some (.element e) => .ok e
  | some (.selected root selector) =>
    match p.query? root selector with
    | some e => .ok e
    | none => .error (.containerNotFound selector)

/-- The record of data.  Null counts as missing. -/
def settleData : Option Value → Except SetupError Record
  | none => .error .missingData
  | some .null => .error .missingData
  | some (.record fields) => .ok fields
  | some v => .error (.dataNotRecord v.kindName)

/-- Checks the container, then the data, then the path. -/
def settle (p : Page κ σ) (r : ViewRequest) : Except SetupError ViewPlan := do
  let container ← settleContainer p r.container?
  let values ← settleData r.data?
  match r.path? with
  | none => .error .missingPath
  | some path => return ⟨container, values, path, r.model?.getD ""⟩

end ViewRequest

namespace Page

variable {κ σ : Type}

def openPlan (bus : BusId) (plan : ViewPlan) (p : Page κ σ) : ViewId × Page κ σ :=
  let (model, p) := p.addModel bus plan.model plan.values
  p.addView { bus, container := plan.container, model, path := plan.path }

/-- A view for a request; an error leaves the page as it is. -/
def openView (bus : BusId) (r : ViewRequest) (p : Page κ σ) : Except SetupError ViewId × Page κ σ :=
  match r.settle p with
  | .error failure => (.error failure, p)
  | .ok plan =>
    let (v, p) := p.openPlan bus plan
    (.ok v, p)

end Page

end Bindery
