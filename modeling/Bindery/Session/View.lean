import Bindery.Session.Element

/-!
# Steps on views

`ViewStep.task` is the meaning of a step that binds or that works on a view.  While a view is loaded or
populated, it is at work and no step can use it.
-/

namespace Bindery.Session

namespace Task

variable {α : Type}

def request (spec : ViewSpec) : Task ViewRequest := do
  let container? ←
    match spec.container? with
    | none => pure none
    | some (.element name) => do pure (some (.element (← element name)))
    | some (.selected name selector) => do pure (some (.selected (← document name) selector))
  return { container?, data? := spec.data?, path? := spec.path?, model? := spec.model? }

def openView (spec : ViewSpec) : Task ViewId := do
  let b ← bus spec.bus
  let r ← request spec
  match ← ask (.openView b r) with
  | .ok v => return v
  | .error e => throw (.view (.setup e))

/-- Makes a call during which the view is at work. -/
def atWork (v : ViewId) (c : Call Installed) : Task c.Answer := do
  modifyDesk fun d => { d with busy := v :: d.busy }
  let a ← ask c
  modifyDesk fun d => { d with busy := d.busy.erase v }
  return a

def answerLoaded : Loaded → Answer
  | .bound => .nothing
  | .pending => .pending

def answerTargets (p : Page Installed Desk) (targets : List Target) : Answer :=
  .targets (targets.map fun t => (((p.element? t.element).map PageElement.tag).getD "", t))

end Task

namespace ViewStep

def task : ViewStep → Task Answer
  | bind bus data el => do
    let b ← Task.bus bus
    let m ← Task.data data
    let targets ← Task.ofOutcome (← Task.ask (.bind b m (← Task.element el)))
    return Task.answerTargets (← Task.page) targets
  | stock as? entries => do
    Task.keep as? (.shelf (← Task.ask (.stock entries)))
    return .nothing
  | requests shelf => do
    let s ← Task.shelf shelf
    return .number (← Task.need ((← Task.page).shelf? s)).requests
  | create as? spec => do
    Task.keep as? (.view (← Task.openView spec))
    return .nothing
  | mount as? spec shelf => do
    let s ← Task.shelf shelf
    let v ← Task.openView spec
    let loaded ← Task.ofView (← Task.ask (.load v (some s)))
    Task.keep as? (.view v)
    return Task.answerLoaded loaded
  | load view shelf? => do
    let v ← Task.viewId view
    let shelf ←
      match shelf? with
      | some name => some <$> Task.shelf name
      | none => pure none
    return Task.answerLoaded (← Task.ofView (← Task.atWork v (.load v shelf)))
  | populate view markup => do
    let v ← Task.viewId view
    Task.ofView (← Task.atWork v (.populate v markup))
    return .nothing
  | info view => do
    let v ← Task.view view
    let p ← Task.page
    let m ← Task.need (p.model? v.model)
    return .view v.state m.name v.path (Task.tagsOf p v.children) (p.outerMarkup v.container)
  | targets view => return Task.answerTargets (← Task.page) (← Task.view view).targets
  | modelOf view as? => do
    Task.keep as? (.data (← Task.view view).model)
    return .nothing
  | containerOf view as? => do
    Task.keep as? (.element (← Task.view view).container)
    return .nothing
  | childAt view index as? => do
    match (← Task.view view).children[index]? with
    | some e =>
      Task.keep as? (.element e)
      return .flag true
    | none => return .flag false

end ViewStep

end Bindery.Session
