import Bindery.Page.Summary
import Bindery.Session.Task

/-!
# Steps on models

`DataStep.task` is the meaning of a step on a model.  `carried` is the value being delivered to the
listener that runs the step.
-/

namespace Bindery.Session.DataStep

def task (carried : Value) : DataStep → Task Answer
  | create as? bus model values => do
    let m ← Task.ask (.observe (← Task.bus bus) model values)
    Task.keep as? (.data m)
    return .nothing
  | write data key payload => do
    let m ← Task.data data
    Task.ofOutcome (← Task.ask (.write m key (Task.payload carried payload)))
    return .nothing
  | read data key => do
    match (← Task.model data).get? key with
    | some v => return .value v
    | none => return .nothing
  | status data key => do
    let m ← Task.model data
    return .key (m.contains key) (m.observed.contains key)
  | info data => do
    let m ← Task.model data
    return .model m.name m.observed
  | snapshot data => return .record (← Task.model data).values
  | property data key => do
    let m ← Task.model data
    if key ∈ m.observed then return .property key (m.event key) ((m.get? key).getD .null)
    else return .nothing
  | writeProperty data key payload => do
    if key ∈ (← Task.model data).observed then
      let m ← Task.data data
      Task.ofOutcome (← Task.ask (.write m key (Task.payload carried payload)))
      return .flag true
    else return .flag false
  | summary data => return .text (← Task.model data).summary

end Bindery.Session.DataStep
