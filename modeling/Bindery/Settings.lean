import Bindery.Source.Address
import Bindery.Text.Blank

/-!
# Settings

Limits and addresses, read from the variables of an environment.  A number is a row of digits, which
may have a plus sign in front and blanks around it; anything else counts as missing, and so does a
number that does not fit into 64 bits.

* `BusSettings.ofEnvironment`      the depth limit of a bus, at least 1
* `SourceSettings.ofEnvironment`   base address and time limits of a template source
-/

namespace Bindery

abbrev Environment := List (String × String)

namespace Environment

def get? (name : String) : Environment → Option String
  | [] => none
  | (n, v) :: r => if n = name then some v else get? name r

end Environment

/-- The number that a row of digits stands for, below `2 ^ 64`. -/
def digitsNumber? (digits : List Char) : Option Nat :=
  if digits.isEmpty || !digits.all Char.isDigit then none
  else
    let n := digits.foldl (fun n c => 10 * n + (c.toNat - '0'.toNat)) 0
    if n < UInt64.size then some n else none

def settingNumber? (text : String) : Option Nat :=
  match Text.trim text.toList with
  | '+' :: r => digitsNumber? r
  | r => digitsNumber? r

/-- The number under `name`, or `default` if there is none. -/
def Environment.number (env : Environment) (name : String) (default : Nat) : Nat :=
  ((env.get? name).bind settingNumber?).getD default

structure BusSettings where
  /-- how many publishes may be nested inside one another -/
  maxDepth : Nat := 64
deriving DecidableEq

namespace BusSettings

def depthVariable : String := "VBIND_MAX_PUBLISH_DEPTH"

def ofEnvironment (env : Environment) : BusSettings where
  maxDepth := max 1 (env.number depthVariable 64)

end BusSettings

structure SourceSettings where
  /-- in front of relative paths; the empty base leaves them as they are -/
  base : String := ""
  requestSeconds : Nat := 30
  connectSeconds : Nat := 10
deriving DecidableEq

namespace SourceSettings

def baseVariable : String := "VBIND_BASE_URL"

def requestVariable : String := "VBIND_REQUEST_TIMEOUT_SECS"

def connectVariable : String := "VBIND_CONNECT_TIMEOUT_SECS"

def ofEnvironment (env : Environment) : SourceSettings where
  base := trimSlashes ((env.get? baseVariable).getD "")
  requestSeconds := env.number requestVariable 30
  connectSeconds := env.number connectVariable 10

def withBase (s : SourceSettings) (base : String) : SourceSettings :=
  { s with base := trimSlashes base }

end SourceSettings

end Bindery
