import Bindery.Binding.Control
import Bindery.Settings
import Bindery.Source.Shelf
import Bindery.Value.Basic

/-!
# Steps of a session

A session drives a page step by step.  What a step makes can be given a name, and later steps refer to
it by that name; buses, models, elements, documents, subscriptions, views, shelves and weak handles
have names of their own.

A step that installs a listener says how it reacts.  A `Reaction` is a list of steps again, each with
what becomes of its result; the steps are written over the type `ρ` of reactions, which is tied in the
end.
-/

namespace Bindery.Session

inductive Payload where
  | given (v : Value)
  /-- the value being delivered to the listener that runs the step, null for none -/
  | carried

inductive BusStep (ρ : Type) where
  | create (as? : Option String) (settings : BusSettings)
  | subscribe (bus event : String) (as? : Option String) (reaction : ρ)
  /-- without a payload the empty record is published -/
  | publish (bus event : String) (payload? : Option Payload)
  | remove (subscription : String)
  | eventOf (subscription : String)
  | clear (bus : String)
  | count (bus event : String)
  | summary (bus : String)
  /-- fails with this error -/
  | fail (e : BusError)

inductive DataStep where
  | create (as? : Option String) (bus model : String) (values : Record)
  | write (data key : String) (payload : Payload)
  | read (data key : String)
  | status (data key : String)
  | info (data : String)
  | snapshot (data : String)
  | property (data key : String)
  /-- writes a key if its writes are announced -/
  | writeProperty (data key : String) (payload : Payload)
  | summary (data : String)

structure ElementContent where
  attributes : List (String × String) := []
  text? : Option String := none
  markup? : Option String := none

inductive Scope where
  | document (name : String)
  | element (name : String)

inductive ElementStep (ρ : Type) where
  | create (as? : Option String) (tag : String) (content : ElementContent)
  | createDocument (as? : Option String) (markup? : Option String)
  | rootOf (document : String) (as? : Option String)
  | getAttribute (el name : String)
  | hasAttribute (el name : String)
  | setAttribute (el name value : String)
  | removeAttribute (el name : String)
  | attributes (el : String)
  /-- the text, nothing if it is empty -/
  | textOf (el : String)
  | readProperty (el name : String)
  | writeProperty (el name : String) (payload : Payload)
  | textContent (el : String)
  | setText (el text : String)
  | setMarkup (el markup : String)
  | inner (el : String)
  | outer (el : String)
  | nodes (el : String)
  | appendText (el text : String)
  | appendChild (el child : String)
  | children (el : String)
  | childAt (el : String) (index : Nat) (as? : Option String)
  | query (scope : Scope) (selector : String) (as? : Option String)
  | same (el other : String)
  | createWeak (el : String) (as? : Option String)
  | alive (weak : String)
  | listen (el : String) (kind : EventKind) (reaction : ρ)
  | listeners (el : String)
  | dispatch (el : String) (kind : EventKind)
  | summary (el : String)

inductive ContainerName where
  | element (name : String)
  | selected (document selector : String)

structure ViewSpec where
  bus : String
  container? : Option ContainerName := none
  data? : Option Value := none
  path? : Option String := none
  model? : Option String := none

inductive ViewStep where
  | bind (bus data el : String)
  | stock (as? : Option String) (entries : List (String × Fetched))
  | requests (shelf : String)
  | create (as? : Option String) (spec : ViewSpec)
  | mount (as? : Option String) (spec : ViewSpec) (shelf : String)
  /-- without a shelf the answer does not come -/
  | load (view : String) (shelf? : Option String)
  | populate (view markup : String)
  | info (view : String)
  | targets (view : String)
  | modelOf (view : String) (as? : Option String)
  | containerOf (view : String) (as? : Option String)
  | childAt (view : String) (index : Nat) (as? : Option String)

/-- The kinds of names.  A name can be used once in each. -/
inductive NameKind where
  | bus
  | data
  | element
  | document
  | weak
  | subscription
  | view
  | shelf
deriving DecidableEq

inductive Step (ρ : Type) where
  | bus (s : BusStep ρ)
  | data (s : DataStep)
  | element (s : ElementStep ρ)
  | view (s : ViewStep)
  | drop (kind : NameKind) (name : String)
  /-- a step that cannot be read -/
  | unreadable

instance {ρ : Type} : Inhabited (Step ρ) := ⟨.unreadable⟩

/-- A step of a listener. -/
structure Action (ρ : Type) where
  step : Step ρ
  /-- a failure on a bus does not end the listener -/
  isCaught : Bool
  /-- a good result goes into the log -/
  isLogged : Bool

/-- What a listener does when it is called. -/
structure Reaction where
  label : String
  /-- how often the actions are run -/
  times? : Option Nat
  actions : List (Action Reaction)

instance : Inhabited Reaction := ⟨⟨"", none, []⟩⟩

end Bindery.Session
