import Bindery.Session.Answer
import Bindery.Session.Step

/-!
# The desk of a session

The state that a session keeps beside its page: what its names stand for, which views are at work, the
log, and how often each reaction was run.
-/

namespace Bindery.Session

/-- What a name stands for. -/
inductive Thing where
  | bus (b : BusId)
  | data (m : ModelId)
  | element (e : ElementId)
  | document (root : ElementId)
  /-- an element that the name does not hold -/
  | weak (e : ElementId)
  | subscription (s : Subscription)
  | view (v : ViewId)
  | shelf (s : ShelfId)
deriving DecidableEq

namespace Thing

def kind : Thing → NameKind
  | bus _ => .bus
  | data _ => .data
  | element _ => .element
  | document _ => .document
  | weak _ => .weak
  | subscription _ => .subscription
  | view _ => .view
  | shelf _ => .shelf

/-- What a name of the thing holds on to. -/
def handle? : Thing → Option Handle
  | data m => some (.model m)
  | element e => some (.element e)
  | document root => some (.element root)
  | view v => some (.view v)
  | _ => none

end Thing

structure Desk where
  /-- no two of one kind and name -/
  names : List (String × Thing) := []
  /-- the views being loaded or populated -/
  busy : List ViewId := []
  /-- last entry first -/
  log : List Entry := []
  /-- how often each installed reaction was run -/
  runs : List Nat := []

namespace Desk

def isNamed (kind : NameKind) (name : String) (entry : String × Thing) : Bool :=
  entry.1 = name && entry.2.kind = kind

def thing? (d : Desk) (kind : NameKind) (name : String) : Option Thing :=
  (d.names.find? (isNamed kind name)).map Prod.snd

def forget (kind : NameKind) (name : String) (d : Desk) : Desk :=
  { d with names := d.names.filter fun entry => !isNamed kind name entry }

/-- From now on the name stands for `t` among the things of its kind. -/
def call (name : String) (t : Thing) (d : Desk) : Desk :=
  { d with names := (name, t) :: (d.forget t.kind name).names }

def write (entry : Entry) (d : Desk) : Desk := { d with log := entry :: d.log }

def entries (d : Desk) : List Entry := d.log.reverse

def runsOf (d : Desk) (number : Nat) : Nat := (d.runs[number]?).getD 0

def countRun (number : Nat) (d : Desk) : Desk := { d with runs := d.runs.modify number (· + 1) }

end Desk

/-- A reaction with the number under which its runs are counted. -/
structure Installed where
  number : Nat
  reaction : Reaction

end Bindery.Session
