/-!
# Errors

Each concern has its own type of causes; `ViewError` unites them.  `message` gives the text of an
error, `code` its fixed name, and `isRetryable` says whether trying again may help.
-/

namespace Bindery

inductive BusError where
  /-- The event is being delivered already; `chain` holds the events in flight, outermost first. -/
  | cycle (event : String) (chain : List String)
  /-- As many publishes as the bus allows are nested already. -/
  | depthExceeded (event : String) (limit : Nat)
deriving DecidableEq

inductive SetupError where
  | missingContainer
  | containerNotFound (selector : String)
  | missingData
  /-- The data is no record but a value of this kind. -/
  | dataNotRecord (kind : String)
  | missingPath
deriving DecidableEq

/-- Why a template could not be fetched.  The status is there when a server answered. -/
structure FetchError where
  detail : String
  status? : Option Nat
deriving DecidableEq

/-- Why markup could not be read.  `Fragment.ofText` reads every text, so it never arises there. -/
structure MarkupError where
  detail : String
deriving DecidableEq

inductive ViewError where
  | setup (e : SetupError)
  | fetch (e : FetchError)
  | markup (e : MarkupError)
  | bus (e : BusError)
  /-- The operation is not allowed in this state. -/
  | invalidState (operation state : String)
deriving DecidableEq

namespace BusError

def message : BusError → String
  | cycle event chain =>
    "publish cycle detected on '" ++ event ++ "' (in flight: " ++ " -> ".intercalate chain ++ ")"
  | depthExceeded event limit =>
    "publish depth limit of " ++ toString limit ++ " exceeded on '" ++ event ++ "'"

def code : BusError → String
  | cycle .. => "E_PUBLISH_CYCLE"
  | depthExceeded .. => "E_PUBLISH_DEPTH"

end BusError

namespace SetupError

def message : SetupError → String
  | missingContainer => "No container element for template."
  | containerNotFound selector => "No container element matches selector '" ++ selector ++ "'."
  | missingData => "No data object for template binding."
  | dataNotRecord kind => "Data for template binding must be an object, got " ++ kind ++ "."
  | missingPath => "A template path must be specified"

def code : SetupError → String
  | missingContainer => "E_MISSING_CONTAINER"
  | containerNotFound _ => "E_CONTAINER_NOT_FOUND"
  | missingData => "E_MISSING_DATA"
  | dataNotRecord _ => "E_DATA_NOT_OBJECT"
  | missingPath => "E_MISSING_PATH"

end SetupError

namespace FetchError

def message (e : FetchError) : String := e.detail

def code (e : FetchError) : String :=
  if e.status?.isSome then "E_FETCH_STATUS" else "E_FETCH_TRANSPORT"

/-- No answer at all, too many requests, or a fault of the server. -/
def isRetryable (e : FetchError) : Bool :=
  match e.status? with
  | none => true
  | some n => n == 429 || (500 ≤ n && n ≤ 599)

end FetchError

namespace MarkupError

def message (e : MarkupError) : String := "failed to parse markup: " ++ e.detail

def code (_ : MarkupError) : String := "E_MARKUP_PARSE"

end MarkupError

namespace ViewError

def message : ViewError → String
  | setup e => e.message
  | fetch e => e.message
  | markup e => e.message
  | bus e => e.message
  | invalidState operation state => operation ++ " is not allowed in state " ++ state

def code : ViewError → String
  | setup e => e.code
  | fetch e => e.code
  | markup e => e.code
  | bus e => e.code
  | invalidState .. => "E_INVALID_STATE"

def isRetryable : ViewError → Bool
  | fetch e => e.isRetryable
  | _ => false

end ViewError

end Bindery
