import Bindery.Text.Hidden

/-!
# Texts between quotes, for people

A text in double quotes in which every character can be seen: the quote, the backslash and four
controls are written with a backslash and a letter, and every other hidden character by its code
point.
-/

namespace Bindery.Text

/-- The code point of a character in braces. -/
def escapeCodePoint (c : Char) : List Char :=
  '\\' :: 'u' :: '\x7b' :: Nat.toDigits 16 c.toNat ++ ['\x7d']

def escapeShown (c : Char) : List Char :=
  if c = '\x00' then ['\\', '0']
  else if c = '\t' then ['\\', 't']
  else if c = '\n' then ['\\', 'n']
  else if c = '\r' then ['\\', 'r']
  else if c = '"' then ['\\', '"']
  else if c = '\\' then ['\\', '\\']
  else if isHidden c then escapeCodePoint c
  else [c]

/-- The text between quotes. -/
def shown (s : String) : String :=
  String.ofList ('"' :: s.toList.flatMap escapeShown ++ ['"'])

end Bindery.Text
