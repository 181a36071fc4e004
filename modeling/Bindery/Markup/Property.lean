import Bindery.Markup.Attributes
import Bindery.Value.Display

/-!
# Properties

The attributes of an element read and written as data values.  `checked`, `selected` and `disabled`
are truth values: the attribute is there or it is not.  Every other property is a text.

* `Attributes.property`      the value of a property
* `Attributes.setProperty`   the attributes after a property was written
-/

namespace Bindery

/-- Names of properties that are truth values, in any letter case. -/
def isBooleanProperty (name : String) : Bool :=
  ["checked", "selected", "disabled"].any fun p => Text.sameLetters p name

namespace Attributes

def property (a : Attributes) (name : String) : Value :=
  if isBooleanProperty name then .bool (a.contains name) else .text ((a.get? name).getD "")

/-- A truth value is written as the presence of the attribute, anything else as display text. -/
def setProperty (a : Attributes) (name : String) (value : Value) : Attributes :=
  if isBooleanProperty name then
    if value.isTruthy then a.set name "" else a.erase name
  else a.set name value.display

/-- The type of an input control: `text` unless it says otherwise. -/
def inputType (a : Attributes) : String :=
  match a.get? "type" with
  | some t => Text.lower t
  | none => "text"

end Attributes

end Bindery
