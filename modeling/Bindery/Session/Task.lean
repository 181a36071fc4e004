import Bindery.Engine.Program
import Bindery.Session.Desk

/-!
# Tasks

A task is a program over a page with a desk, which may end in a fault.  The steps of a session are
tasks; here are the parts that they have in common.

* `Task.bus`, `Task.element`, …   what a name stands for; a fault if it stands for nothing
* `Task.keep`, `Task.drop`        giving a name, which holds on to the thing, and forgetting one
* `Task.install`                  a number for a new reaction
-/

namespace Bindery.Session

abbrev Script := Program Installed Desk

abbrev Task := ExceptT Fault Script

namespace Task

variable {α : Type}

def ask (c : Call Installed) : Task c.Answer := (Program.ask c : Script c.Answer)

def page : Task (Page Installed Desk) := (Program.page : Script (Page Installed Desk))

def desk : Task Desk := (Program.host : Script Desk)

def modifyDesk (f : Desk → Desk) : Task Unit := (Program.modifyHost f : Script Unit)

/-- A fault if there is nothing. -/
def need : Option α → Task α
  | some a => return a
  | none => throw .unknown

/-! ## What names stand for -/

def thing (kind : NameKind) (name : String) : Task Thing := do
  need ((← desk).thing? kind name)

def bus (name : String) : Task BusId := do
  match ← thing .bus name with
  | .bus b => return b
  | _ => throw .unknown

def data (name : String) : Task ModelId := do
  match ← thing .data name with
  | .data m => return m
  | _ => throw .unknown

def model (name : String) : Task Model := do
  let m ← data name
  need ((← page).model? m)

def element (name : String) : Task ElementId := do
  match ← thing .element name with
  | .element e => return e
  | _ => throw .unknown

def document (name : String) : Task ElementId := do
  match ← thing .document name with
  | .document root => return root
  | _ => throw .unknown

def weak (name : String) : Task ElementId := do
  match ← thing .weak name with
  | .weak e => return e
  | _ => throw .unknown

def subscription (name : String) : Task Subscription := do
  match ← thing .subscription name with
  | .subscription s => return s
  | _ => throw .unknown

def shelf (name : String) : Task ShelfId := do
  match ← thing .shelf name with
  | .shelf s => return s
  | _ => throw .unknown

def viewId (name : String) : Task ViewId := do
  match ← thing .view name with
  | .view v => if v ∈ (← desk).busy then throw .unknown else return v
  | _ => throw .unknown

def view (name : String) : Task View := do
  let v ← viewId name
  need ((← page).view? v)

/-! ## Names given and forgotten -/

def hold (t : Thing) : Task Unit :=
  match t.handle? with
  | some h => ask (.hold h)
  | none => return ()

def release (t : Thing) : Task Unit :=
  match t.handle? with
  | some h => ask (.release h)
  | none => return ()

/-- Gives a thing a name, if there is one to give.  The name holds the thing, and what it stood for
before is let go. -/
def keep (as? : Option String) (t : Thing) : Task Unit := do
  match as? with
  | none => return ()
  | some name =>
    let old := (← desk).thing? t.kind name
    hold t
    modifyDesk (Desk.call name t)
    match old with
    | some o => release o
    | none => return ()

/-- Forgets a name, if it stands for something. -/
def drop (kind : NameKind) (name : String) : Task Unit := do
  match (← desk).thing? kind name with
  | some t =>
    modifyDesk (Desk.forget kind name)
    release t
  | none => return ()

/-! ## Outcomes, values and reactions -/

def ofOutcome : Except BusError α → Task α
  | .ok a => return a
  | .error e => throw (.bus e)

def ofView : Except ViewError α → Task α
  | .ok a => return a
  | .error e => throw (.view e)

/-- The value of a payload; `carried` is the one being delivered. -/
def payload (carried : Value) : Payload → Value
  | .given v => v
  | .carried => carried

/-- A number for a new reaction. -/
def install (reaction : Reaction) : Task Installed := do
  let number := (← desk).runs.length
  modifyDesk fun d => { d with runs := d.runs ++ [0] }
  return ⟨number, reaction⟩

end Task

end Bindery.Session
