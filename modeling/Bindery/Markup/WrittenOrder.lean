import Bindery.Text.Blank
import Bindery.Text.Letter

/-!
# The order in which a tag names its attributes

`writtenOrder source` lists the attribute names of the tag at the start of `source`, in lower case
and in the order in which they stand there.  It steps over quoted and bare values, so that nothing
inside a value counts as a name.

Every step consumes at least one character, so reading ends on any text at all.
-/

namespace Bindery

namespace WrittenOrder

open Text

def isSeparator (c : Char) : Bool := isAsciiBlank c || c == '/'

def endsName (c : Char) : Bool := isAsciiBlank c || c == '=' || c == '>' || c == '/'

def endsValue (c : Char) : Bool := isAsciiBlank c || c == '>'

/-- What follows the value that begins the text.  A quote that is not closed takes everything. -/
def afterValue : List Char → List Char
  | [] => []
  | c :: r =>
    if c = '"' ∨ c = '\'' then (r.dropWhile (· ≠ c)).drop 1
    else (c :: r).dropWhile (fun d => !endsValue d)

/-- What follows a name: its value if `=` stands next, blanks aside. -/
def afterName (s : List Char) : List Char :=
  match trimStart s with
  | '=' :: r => afterValue (trimStart r)
  | r => r

theorem length_afterValue_le (s : List Char) : (afterValue s).length ≤ s.length := by
  cases s with
  | nil => simp [afterValue]
  | cons c r =>
    simp only [afterValue]
    split
    · have := length_dropWhile_le (· ≠ c) r
      simp only [List.length_drop, List.length_cons]
      omega
    · exact length_dropWhile_le _ _

theorem length_afterName_le (s : List Char) : (afterName s).length ≤ s.length := by
  have h := length_trimStart_le s
  unfold afterName
  split
  · rename_i r hr
    rw [hr] at h
    have h1 := length_afterValue_le (trimStart r)
    have h2 := length_trimStart_le r
    simp only [List.length_cons] at h
    omega
  · exact h

def namesFrom (s : List Char) : List String :=
  match _h : s.dropWhile isSeparator with
  | [] => []
  | c :: r =>
    if c = '>' then []
    else if c = '=' then namesFrom (afterValue (trimStart r))
    else
      Text.lower (String.ofList (c :: r.takeWhile (fun d => !endsName d))) ::
        namesFrom (afterName (r.dropWhile (fun d => !endsName d)))
termination_by s.length
decreasing_by
  · have h := length_dropWhile_le isSeparator s
    have h1 := length_afterValue_le (trimStart r)
    have h2 := length_trimStart_le r
    simp only [_h, List.length_cons] at h
    omega
  · have h := length_dropWhile_le isSeparator s
    have h1 := length_afterName_le (r.dropWhile (fun d => !endsName d))
    have h2 := length_dropWhile_le (fun d => !endsName d) r
    simp only [_h, List.length_cons] at h
    omega

end WrittenOrder

/-- The attribute names of the tag that begins `source`. -/
def writtenOrder (source : List Char) : List String :=
  WrittenOrder.namesFrom
    ((source.dropWhile (· = '<')).dropWhile fun c => !(Text.isAsciiBlank c || c == '>' || c == '/'))

example : writtenOrder "<a b=\"c d\" E f='g'>h</a>".toList = ["b", "e", "f"] := by decide +kernel

end Bindery
