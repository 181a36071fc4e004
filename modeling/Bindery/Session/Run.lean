import Bindery.Engine.Delivery
import Bindery.Session.Bus
import Bindery.Session.Data
import Bindery.Session.View

/-!
# Running a session

`Session.run` carries out the steps of a session one after the other and reports on each.  After each
step the steps that watch are carried out; what they leave in the log does not count.

* `Step.task`   what a step means
* `react`       what a listener does when it is called
* `run`         the reports of a session
-/

namespace Bindery.Session

def Step.task (carried : Value) : Step Reaction → Task Answer
  | bus s => s.task carried
  | data s => s.task carried
  | element s => s.task carried
  | view s => s.task
  | drop kind name => do
    Task.drop kind name
    return .nothing
  | unreadable => throw .unknown

/-! ## Listeners -/

def note (entry : Entry) : Script Unit := Program.modifyHost (Desk.write entry)

/-- The actions of a reaction in order.  A failure on a bus that is not caught ends them; every other
fault goes into the log. -/
def runActions (label : String) (carried : Value) : List (Action Reaction) → Script Outcome
  | [] => return .ok ()
  | a :: r => do
    match ← (a.step.task carried).run with
    | .ok answer =>
      if a.isLogged then note (.answered label answer)
      runActions label carried r
    | .error (.bus e) =>
      if a.isCaught then
        note (.failed label (.bus e))
        runActions label carried r
      else return .error e
    | .error fault =>
      note (.failed label fault)
      runActions label carried r

/-- What a listener does when it is called: it logs what it saw and then runs the actions, unless they
were run as often as they may be. -/
def react (i : Installed) (seen : Answer) (carried : Value) : Script Outcome := do
  note (.called i.reaction.label seen)
  let runs := (← Program.host).runsOf i.number
  if i.reaction.times?.any (· ≤ runs) then return .ok ()
  else
    Program.modifyHost (Desk.countRun i.number)
    runActions i.reaction.label carried i.reaction.actions

def callbacks : Callbacks Installed Desk where
  onPublish i value := react i (.value value) value
  onEvent i e := do react i (.text ((← Program.page).outerMarkup e)) .null

/-! ## Sessions -/

/-- How deep publishing and firing may be nested in a session. -/
def frames : Nat := 0x100000000

def engine : Engine Installed Desk := .ofFrames callbacks frames

/-- Carries out a step; one that nests too deep is a fault and changes nothing. -/
def runStep (s : Step Reaction) (p : Page Installed Desk) : Result × Page Installed Desk :=
  (((s.task .null).run.run engine).run p).getD (.error .unknown, p)

/-- A step that watches.  What it cannot find is nothing. -/
def runWatch (s : Step Reaction) (p : Page Installed Desk) : Result × Page Installed Desk :=
  match runStep s p with
  | (.error .unknown, p) => (.ok .nothing, p)
  | r => r

def runWatches : List (Step Reaction) → Page Installed Desk → List Result × Page Installed Desk
  | [], p => ([], p)
  | s :: r, p =>
    let (result, p) := runWatch s p
    let (results, p) := runWatches r p
    (result :: results, p)

def clearLog (p : Page Installed Desk) : Page Installed Desk :=
  { p with host := { p.host with log := [] } }

def runFrom (watch : List (Step Reaction)) :
    List (Step Reaction) → Page Installed Desk → List Report
  | [], _ => []
  | s :: r, p =>
    let (result, p) := runStep s (clearLog p)
    let (watched, q) := runWatches watch p
    ⟨result, p.host.entries, watched⟩ :: runFrom watch r q

def run (steps watch : List (Step Reaction)) : List Report :=
  runFrom watch steps { host := {} }

end Bindery.Session
