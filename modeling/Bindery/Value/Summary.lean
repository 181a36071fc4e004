import Bindery.Text.Quoted
import Bindery.Value.Compact

/-!
# The summary of a value

A value written for people, with the kind of every part: `Number(1)`, `Array [Null, Bool(true)]`.
-/

namespace Bindery.Value

mutual

def summaryChars : Value → List Char
  | null => "Null".toList
  | bool b => "Bool(".toList ++ (if b then "true".toList else "false".toList) ++ [')']
  | int n => "Number(".toList ++ intDigits n ++ [')']
  | double d => "Number(".toList ++ d.compact ++ [')']
  | text s => "String(".toList ++ (Text.shown s).toList ++ [')']
  | list items => "Array [".toList ++ joinWith [',', ' '] (summaryItems items) ++ [']']
  | record fields =>
    "Object \x7b".toList ++ joinWith [',', ' '] (summaryFields fields) ++ ['\x7d']

def summaryItems : List Value → List (List Char)
  | [] => []
  | v :: r => v.summaryChars :: summaryItems r

def summaryFields : List (String × Value) → List (List Char)
  | [] => []
  | (key, v) :: r =>
    ((Text.shown key).toList ++ ':' :: ' ' :: v.summaryChars) :: summaryFields r

end

def summary (v : Value) : String := String.ofList v.summaryChars

end Bindery.Value
