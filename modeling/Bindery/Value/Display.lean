import Bindery.Value.Compact

/-!
# The display text of a value

What a page shows for a value: a text as it is, a number in decimal, the items of a list with commas
between them, and a record in its compact text.
-/

namespace Bindery.Value

mutual

def displayChars : Value → List Char
  | null => "null".toList
  | bool b => if b then "true".toList else "false".toList
  | int n => intDigits n
  | double d => d.positional
  | text s => s.toList
  | list items => joinWith [','] (displayItems items)
  | record fields => (record fields).compactChars

def displayItems : List Value → List (List Char)
  | [] => []
  | v :: r => v.displayChars :: displayItems r

end

def display (v : Value) : String := String.ofList v.displayChars

end Bindery.Value
