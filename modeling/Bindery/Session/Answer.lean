import Bindery.Markup.Fragment
import Bindery.Page.Basic

/-!
# Answers of a session

A step answers with an `Answer` or fails with a `Fault`.  Listeners leave entries in the log.
-/

namespace Bindery.Session

inductive Fault where
  /-- The step names something that does not exist, or cannot be read. -/
  | unknown
  | bus (e : BusError)
  | view (e : ViewError)
deriving DecidableEq

inductive Answer where
  | nothing
  | flag (b : Bool)
  | number (n : Nat)
  | text (s : String)
  | value (v : Value)
  /-- whether an event has a channel, and how many listeners -/
  | count (isRegistered : Bool) (listeners : Nat)
  /-- whether a model has a key, and whether writes to it are announced -/
  | key (isContained isObserved : Bool)
  | model (name : String) (observed : List String)
  | record (values : Record)
  | property (name event : String) (value : Value)
  | attributes (entries : List (String × String))
  | nodes (nodes : List (Nat × Node ElementId))
  | tags (tags : List String)
  /-- how many handlers there are for `input` and for `change` -/
  | handlers (input change : Nat)
  /-- targets with the tags of their elements -/
  | targets (targets : List (String × Target))
  | view (state : ViewState) (model path : String) (children : List String) (container : String)
  /-- The answer to a request did not come. -/
  | pending

abbrev Result := Except Fault Answer

/-- What a listener leaves in the log. -/
inductive Entry where
  /-- The listener was called and saw this. -/
  | called (label : String) (seen : Answer)
  | failed (label : String) (fault : Fault)
  | answered (label : String) (answer : Answer)

structure Report where
  result : Result
  log : List Entry
  /-- the results of the steps that watch -/
  watched : List Result

end Bindery.Session
