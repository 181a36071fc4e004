import Bindery.Markup.Property
import Bindery.Number.Numeral

/-!
# Form controls

A control writes what a user does back into the data.  `Control.classify` tells from tag and type
which control an element is; `Control.event` is the event it writes on, and `Control.coerce` what it
writes for the property it reads.
-/

namespace Bindery

inductive EventKind where
  | input
  | change
deriving DecidableEq

inductive Control where
  /-- a check box or radio button -/
  | toggle
  | number
  /-- any other input -/
  | text
  | select
deriving DecidableEq

namespace Control

def classify (tag : String) (a : Attributes) : Option Control :=
  if tag = "input" then
    if a.inputType = "checkbox" ∨ a.inputType = "radio" then some toggle
    else if a.inputType = "number" then some number
    else some text
  else if tag = "select" then some select
  else none

def event : Control → EventKind
  | toggle => .change
  | number => .input
  | text => .input
  | select => .change

/-- A number for what a number input holds: the one its text begins with, 1 or 0 for a truth value,
and null if there is none or it is infinite. -/
def toNumber : Value → Value
  | .int n => .int n
  | .double d => .double d
  | .text s =>
    match (leadingNumber? s).bind Reading.finite? with
    | some d => .double d
    | none => .null
  | .bool b => .double (if b then Double.one else Double.zero)
  | _ => .null

def coerce : Control → Value → Value
  | number, v => toNumber v
  | _, v => v

end Control

end Bindery
