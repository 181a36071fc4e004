import Bindery.Page.Summary
import Bindery.Session.Task

/-!
# Steps on buses

`BusStep.task` is the meaning of a step on a bus.  `carried` is the value being delivered to the
listener that runs the step.
-/

namespace Bindery.Session

namespace Task

/-- The listeners of a named bus as they are now. -/
def registry (name : String) : Task (Registry (Listener Installed)) := do
  let b ← bus name
  need ((← page).bus? b)

end Task

namespace BusStep

def task (carried : Value) : BusStep Reaction → Task Answer
  | create as? settings => do
    let b ← Task.ask (.openBus settings.maxDepth)
    Task.keep as? (.bus b)
    return .nothing
  | subscribe bus event as? reaction => do
    let b ← Task.bus bus
    let s ← Task.need (← Task.ask (.subscribe b event (← Task.install reaction)))
    Task.keep as? (.subscription s)
    return .nothing
  | publish bus event payload? => do
    let b ← Task.bus bus
    let value := (payload?.map (Task.payload carried)).getD (.record [])
    Task.ofOutcome (← Task.ask (.publish b event value))
    return .nothing
  | remove subscription => do
    Task.ask (.unsubscribe (← Task.subscription subscription))
    return .nothing
  | eventOf subscription => return .text (← Task.subscription subscription).place.event
  | clear bus => do
    Task.ask (.clear (← Task.bus bus))
    return .nothing
  | count bus event => do
    let r ← Task.registry bus
    return .count (r.isRegistered event) (r.listenerCount event)
  | summary bus => return .text (← Task.registry bus).summary
  | fail e => throw (.bus e)

end BusStep

end Bindery.Session
