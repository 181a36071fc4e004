import Bindery.Text.Blank

/-!
# Tokens of markup

Markup is cut into tags, comments and the text between them.  Reading never fails: what is no tag is
skipped or becomes text.

* `Token`            a piece of markup that matters, or `skipped`
* `Lexeme`           a token with the characters it was read from
* `Lexeme.ofText`    all lexemes of a text; `sources_ofText` says that their characters are the text

Reading steps over a separator one byte at a time.  Where the separator is a character of several
bytes, the bytes after the first stay behind; `strays` counts them.  A stray byte stands for no
character: in text it shows as U+FFFD, and among attributes it is an attribute without a name.
-/

namespace Bindery

structure WrittenAttribute where
  name : List Char
  value? : Option (List Char)
deriving DecidableEq

inductive Token where
  | text (content : List Char)
  | opening (name : List Char) (attributes : List WrittenAttribute) (selfClosing : Bool)
  | closing (name : List Char)
  /-- a comment, a declaration or a broken tag -/
  | skipped
deriving DecidableEq

structure Lexeme where
  token : Token
  source : List Char
deriving DecidableEq

namespace Token

def isNameChar (c : Char) : Bool := c.isAlphanum || c == '-' || c == '_' || c == ':' || c == '+' || c == '/'

/-- Only spaces and line feeds separate the parts of a tag. -/
def isTagBlank (c : Char) : Bool := c == ' ' || c == '\n'

def endsAttributes (c : Char) : Bool := c == '/' || c == '>'

def skipBlanks (s : List Char) : List Char := s.dropWhile isTagBlank

/-- The bytes of a character after its first. -/
def strays (c : Char) : Nat := c.utf8Size - 1

/-- A value and what follows it.  The closing quote of a quoted value is not taken. -/
def splitValue : List Char → List Char × List Char
  | [] => ([], [])
  | c :: r =>
    if c = '"' ∨ c = '\'' then (r.takeWhile (· ≠ c), r.dropWhile (· ≠ c))
    else
      let stops (d : Char) := isTagBlank d || endsAttributes d
      ((c :: r).takeWhile (fun d => !stops d), (c :: r).dropWhile (fun d => !stops d))

/-- The value of an attribute whose name has been read, and what follows.  Blanks are skipped whether
or not a value comes. -/
def splitAssignment (s : List Char) : Option (List Char) × List Char :=
  match skipBlanks s with
  | '=' :: r =>
    let (value, rest) := splitValue (skipBlanks r)
    (some value, rest)
  | r => (none, r)

/-- An attribute without a name for each stray byte of `c`. -/
def strayAttributes (c : Char) : List WrittenAttribute := List.replicate (strays c) ⟨[], none⟩

theorem not_isTagBlank_of_skipBlanks {s r : List Char} {c : Char} (h : skipBlanks s = c :: r) :
    isTagBlank c = false := by
  have := List.head?_dropWhile_not isTagBlank s
  rw [skipBlanks] at h
  rw [h] at this
  simpa using this

theorem skipBlanks_suffix (s : List Char) : skipBlanks s <:+ s := List.dropWhile_suffix _

theorem splitValue_suffix (s : List Char) : (splitValue s).2 <:+ s := by
  cases s with
  | nil => simp [splitValue]
  | cons c r =>
    simp only [splitValue]
    split
    · exact (List.dropWhile_suffix _).trans (List.suffix_cons c r)
    · exact List.dropWhile_suffix _

theorem splitAssignment_suffix (s : List Char) : (splitAssignment s).2 <:+ s := by
  have h := skipBlanks_suffix s
  unfold splitAssignment
  split
  · rename_i r hr
    rw [hr] at h
    exact ((splitValue_suffix _).trans (skipBlanks_suffix r)).trans ((List.suffix_cons _ r).trans h)
  · exact h

/-- Reading an attribute goes forward: it takes a character of the name, or the `=`, or it stands
before a character that does not end the attributes. -/
theorem length_splitAssignment_lt {r after : List Char} {c d : Char} {value? : Option (List Char)}
    (hb : isTagBlank c = false) (hc : endsAttributes c = false) (hd : endsAttributes d = true)
    (h : splitAssignment ((c :: r).dropWhile isNameChar) = (value?, d :: after)) :
    (d :: after).length < (c :: r).length := by
  by_cases hn : isNameChar c = true
  · have h1 := (splitAssignment_suffix ((c :: r).dropWhile isNameChar)).length_le
    rw [h] at h1
    have h2 := Text.length_dropWhile_le isNameChar r
    rw [List.dropWhile_cons_of_pos hn] at h1
    simp only [List.length_cons] at h1 ⊢
    omega
  · rw [List.dropWhile_cons_of_neg hn, splitAssignment, skipBlanks,
      List.dropWhile_cons_of_neg (by simp [hb])] at h
    split at h
    · rename_i r' hr
      simp only [List.cons.injEq] at hr
      obtain ⟨_, rfl⟩ := hr
      have h1 := ((splitValue_suffix _).trans (skipBlanks_suffix r)).length_le
      simp only [Prod.mk.injEq] at h
      rw [h.2] at h1
      simp only [List.length_cons] at h1 ⊢
      omega
    · simp only [Prod.mk.injEq, List.cons.injEq] at h
      rw [h.2.1, hd] at hc
      simp at hc

/-- The attributes of a tag and the text from the character that ends them; `none` if the text ends
before.  One character after each attribute is dropped unless it ends the attributes: the closing
quote, a blank, or after an attribute without a value the first character of whatever comes. -/
def splitAttributes (s : List Char) : Option (List WrittenAttribute × List Char) :=
  match _h : skipBlanks s with
  | [] => none
  | c :: r =>
    if _hc : endsAttributes c then some ([], c :: r)
    else
      let name := (c :: r).takeWhile isNameChar
      match _hr : splitAssignment ((c :: r).dropWhile isNameChar) with
      | (_, []) => none
      | (value?, d :: after) =>
        if _hd : endsAttributes d then
          (splitAttributes (d :: after)).map fun (l, rest) => (⟨name, value?⟩ :: l, rest)
        else
          (splitAttributes after).map fun (l, rest) =>
            (⟨name, value?⟩ :: strayAttributes d ++ l, rest)
termination_by s.length
decreasing_by
  · have h1 := length_splitAssignment_lt (not_isTagBlank_of_skipBlanks _h) (by simpa using _hc) _hd _hr
    have h2 := (skipBlanks_suffix s).length_le
    rw [_h] at h2
    omega
  · have h1 := (splitAssignment_suffix ((c :: r).dropWhile isNameChar)).length_le
    have h2 := (skipBlanks_suffix s).length_le
    have h3 := Text.length_dropWhile_le isNameChar (c :: r)
    rw [_hr] at h1
    rw [_h] at h2
    simp only [List.length_cons] at h1 h2 h3
    omega

theorem splitAttributes_suffix {s rest : List Char} {l : List WrittenAttribute}
    (h : splitAttributes s = some (l, rest)) : rest <:+ s := by
  fun_induction splitAttributes s generalizing l rest with
  | case1 => simp at h
  | case2 s c r hs hc =>
    simp only [Option.some.injEq, Prod.mk.injEq] at h
    rw [← h.2, ← hs]
    exact skipBlanks_suffix s
  | case3 => simp at h
  | case4 s c r hs hc name value? d after hr hd =>
    rename_i ih
    simp only [Option.map_eq_some_iff, Prod.exists, Prod.mk.injEq] at h
    obtain ⟨l', rest', hl, _, rfl⟩ := h
    have h1 := splitAssignment_suffix ((c :: r).dropWhile isNameChar)
    rw [hr] at h1
    exact (ih hl).trans (h1.trans ((List.dropWhile_suffix _).trans (hs ▸ skipBlanks_suffix s)))
  | case5 s c r hs hc name value? d after hr hd =>
    rename_i ih
    simp only [Option.map_eq_some_iff, Prod.exists, Prod.mk.injEq] at h
    obtain ⟨l', rest', hl, _, rfl⟩ := h
    have h1 := (List.suffix_cons d after).trans (hr ▸ splitAssignment_suffix ((c :: r).dropWhile isNameChar))
    exact (ih hl).trans (h1.trans ((List.dropWhile_suffix _).trans (hs ▸ skipBlanks_suffix s)))

/-- What follows a comment, read from its own opening dashes on.  Two dashes end it if `>` comes
next; otherwise they are dropped with the character after them. -/
def afterComment : List Char → List Char
  | [] => []
  | '-' :: '-' :: '>' :: r => r
  | '-' :: '-' :: _ :: r => afterComment r
  | _ :: r => afterComment r

theorem afterComment_suffix (s : List Char) : afterComment s <:+ s := by
  fun_induction afterComment s with
  | case1 => exact List.suffix_refl _
  | case2 r => exact ⟨['-', '-', '>'], rfl⟩
  | case3 c r _ ih => exact ih.trans ⟨['-', '-', c], rfl⟩
  | case4 c r _ _ ih => exact ih.trans (List.suffix_cons c r)

def readDeclaration (s : List Char) : Nat × List Char :=
  if ['-', '-'].isPrefixOf s then (0, afterComment s)
  else
    let word := s.takeWhile isNameChar
    let rest := skipBlanks (s.dropWhile isNameChar)
    if word.map Char.toLower = "doctype".toList then
      match skipBlanks (rest.dropWhile isNameChar) with
      | [] => (0, [])
      | c :: r => (strays c, r)
    else (0, rest)

/-- Reads on after `<` and the name of an opening tag. -/
def readOpening (name s : List Char) : Token × List Char :=
  match splitAttributes s with
  | none => (skipped, [])
  | some (attributes, rest) =>
    let selfClosing := ['/'].isPrefixOf rest
    match if selfClosing then rest.drop 1 else rest with
    | '>' :: r => (opening name attributes selfClosing, r)
    | r => (skipped, r)

/-- Reads on after `<`.  Gives the token, the stray bytes left behind, and the rest. -/
def readTag (s : List Char) : Token × Nat × List Char :=
  match skipBlanks s with
  | [] => (skipped, 0, [])
  | '/' :: r => (closing (r.takeWhile (· ≠ '>')), 0, (r.dropWhile (· ≠ '>')).drop 1)
  | '!' :: r => (skipped, readDeclaration r)
  | r =>
    let (token, rest) := readOpening (r.takeWhile isNameChar) (r.dropWhile isNameChar)
    (token, 0, rest)

theorem readDeclaration_suffix (s : List Char) : (readDeclaration s).2 <:+ s := by
  have h := (skipBlanks_suffix (s.dropWhile isNameChar)).trans (List.dropWhile_suffix _)
  unfold readDeclaration
  split
  · exact afterComment_suffix s
  · simp only
    split
    · have h1 := ((skipBlanks_suffix _).trans (List.dropWhile_suffix isNameChar)).trans h
      split
      · exact List.nil_suffix
      · rename_i c r hr
        exact (List.suffix_cons c r).trans (hr ▸ h1)
    · exact h

theorem readOpening_suffix (name s : List Char) : (readOpening name s).2 <:+ s := by
  unfold readOpening
  split
  · exact List.nil_suffix
  · rename_i attributes rest h
    have h1 := splitAttributes_suffix h
    have h2 : (if ['/'].isPrefixOf rest then rest.drop 1 else rest) <:+ s := by
      split
      · exact (List.drop_suffix 1 rest).trans h1
      · exact h1
    simp only
    split
    · rename_i r hr
      exact (List.suffix_cons _ r).trans (hr ▸ h2)
    · exact h2

theorem strays_lt_four (c : Char) : strays c < 4 := by
  have := c.utf8Size_le_four
  unfold strays
  omega

theorem readDeclaration_strays_lt_four (s : List Char) : (readDeclaration s).1 < 4 := by
  unfold readDeclaration
  split
  · exact Nat.zero_lt_succ 3
  · dsimp only
    split
    · split
      · exact Nat.zero_lt_succ 3
      · exact strays_lt_four _
    · exact Nat.zero_lt_succ 3

theorem readTag_strays_lt_four (s : List Char) : (readTag s).2.1 < 4 := by
  unfold readTag
  split
  · exact Nat.zero_lt_succ 3
  · exact Nat.zero_lt_succ 3
  · exact readDeclaration_strays_lt_four _
  · exact Nat.zero_lt_succ 3

theorem readTag_suffix (s : List Char) : (readTag s).2.2 <:+ s := by
  have h := skipBlanks_suffix s
  unfold readTag
  split
  · exact List.nil_suffix
  · rename_i r hr
    rw [hr] at h
    exact (((List.drop_suffix 1 _).trans (List.dropWhile_suffix _)).trans (List.suffix_cons _ r)).trans h
  · rename_i r hr
    rw [hr] at h
    exact ((readDeclaration_suffix r).trans (List.suffix_cons _ r)).trans h
  · exact ((readOpening_suffix _ _).trans (List.dropWhile_suffix _)).trans h

end Token

namespace Lexeme

/-- The lexemes of a text behind `strays` stray bytes. -/
def read (strays : Nat) (s : List Char) : List Lexeme :=
  match s with
  | [] => if strays = 0 then [] else [⟨.text (List.replicate strays '\ufffd'), []⟩]
  | c :: r =>
    if _h : strays = 0 ∧ c = '<' then
      let tag := Token.readTag r
      ⟨tag.1, (c :: r).take ((c :: r).length - tag.2.2.length)⟩ :: read tag.2.1 tag.2.2
    else
      let content := (c :: r).takeWhile (· ≠ '<')
      ⟨.text (List.replicate strays '\ufffd' ++ content), content⟩
        :: read 0 ((c :: r).dropWhile (· ≠ '<'))
termination_by 4 * s.length + strays
decreasing_by
  · have hle := (Token.readTag_suffix r).length_le
    have hlt := Token.readTag_strays_lt_four r
    simp only [List.length_cons]
    omega
  · have hle := Text.length_dropWhile_le (· ≠ '<') (c :: r)
    by_cases hs : strays = 0
    · have hc : c ≠ '<' := fun hc => _h ⟨hs, hc⟩
      rw [List.dropWhile_cons_of_pos (by simpa using hc)]
      have := Text.length_dropWhile_le (· ≠ '<') r
      simp only [List.length_cons]
      omega
    · omega

def ofText (s : List Char) : List Lexeme := read 0 s

/-- The characters of the lexemes are the text, in order. -/
theorem sources_read (strays : Nat) (s : List Char) : (read strays s).flatMap Lexeme.source = s := by
  fun_induction read strays s with
  | case1 => rfl
  | case2 => simp
  | case3 strays c r h tag ih =>
    have hs : tag.2.2 <:+ c :: r := (Token.readTag_suffix r).trans (List.suffix_cons c r)
    obtain ⟨front, hf⟩ := hs
    have hl : (c :: r).length - tag.2.2.length = front.length := by
      rw [← hf, List.length_append]
      omega
    simp only [List.flatMap_cons, ih, hl]
    rw [← hf]
    simp
  | case4 strays c r h content ih =>
    rw [List.flatMap_cons, ih]
    exact List.takeWhile_append_dropWhile

theorem sources_ofText (s : List Char) : (ofText s).flatMap Lexeme.source = s := sources_read 0 s

end Lexeme

end Bindery
