import Bindery.Number.Notation
import Bindery.Value.Basic

/-!
# The compact text of a value

No spaces; texts in double quotes; the keys of a record in their order.  Inside quotes only the
quote, the backslash and the control characters below U+0020 are escaped.
-/

namespace Bindery

/-- The written form of one character between quotes. -/
def escapeQuoted (c : Char) : List Char :=
  if c = '"' then ['\\', '"']
  else if c = '\\' then ['\\', '\\']
  else if c = '\x08' then ['\\', 'b']
  else if c = '\x0c' then ['\\', 'f']
  else if c = '\n' then ['\\', 'n']
  else if c = '\r' then ['\\', 'r']
  else if c = '\t' then ['\\', 't']
  else if c.toNat < 0x20 then
    ['\\', 'u', '0', '0', Nat.digitChar (c.toNat / 16), Nat.digitChar (c.toNat % 16)]
  else [c]

def quoted (s : List Char) : List Char := '"' :: s.flatMap escapeQuoted ++ ['"']

/-- The pieces with `separator` between each two. -/
def joinWith (separator : List Char) : List (List Char) → List Char
  | [] => []
  | [s] => s
  | s :: t :: r => s ++ separator ++ joinWith separator (t :: r)

namespace Value

mutual

def compactChars : Value → List Char
  | null => "null".toList
  | bool b => if b then "true".toList else "false".toList
  | int n => intDigits n
  | double d => d.compact
  | text s => quoted s.toList
  | list items => '[' :: joinWith [','] (compactItems items) ++ [']']
  | record fields => '{' :: joinWith [','] (compactFields fields) ++ ['}']

def compactItems : List Value → List (List Char)
  | [] => []
  | v :: r => v.compactChars :: compactItems r

def compactFields : List (String × Value) → List (List Char)
  | [] => []
  | (key, v) :: r => (quoted key.toList ++ ':' :: v.compactChars) :: compactFields r

end

def compact (v : Value) : String := String.ofList v.compactChars

end Value

end Bindery
