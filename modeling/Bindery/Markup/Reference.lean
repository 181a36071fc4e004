/-!
# Character references

Text inside markup stands for other text: `&lt;` for `<` and so on.

* `escapeText`, `escapeValue`   text as it is written between tags, and inside quotes
* `Reference.resolve?`          the character a reference's body stands for
* `decodeReferences`            every reference of a text resolved, everything else as written
-/

namespace Bindery

def escapeTextChar (c : Char) : List Char :=
  if c = '&' then "&amp;".toList
  else if c = '<' then "&lt;".toList
  else if c = '>' then "&gt;".toList
  else [c]

def escapeText (s : List Char) : List Char := s.flatMap escapeTextChar

def escapeValueChar (c : Char) : List Char :=
  if c = '"' then "&quot;".toList else escapeTextChar c

def escapeValue (s : List Char) : List Char := s.flatMap escapeValueChar

namespace Reference

def digit? (base : Nat) (c : Char) : Option Nat :=
  let value? :=
    if '0' ≤ c ∧ c ≤ '9' then some (c.toNat - '0'.toNat)
    else if 'a' ≤ c ∧ c ≤ 'f' then some (c.toNat - 'a'.toNat + 10)
    else if 'A' ≤ c ∧ c ≤ 'F' then some (c.toNat - 'A'.toNat + 10)
    else none
  value?.filter (· < base)

/-- The number of a nonempty row of digits that continues `n`. -/
def digits? (base n : Nat) : List Char → Option Nat
  | [] => some n
  | c :: r => (digit? base c).bind fun d => digits? base (base * n + d) r

/-- An unsigned number, which may have a plus sign in front. -/
def number? (base : Nat) : List Char → Option Nat
  | '+' :: c :: r => digits? base 0 (c :: r)
  | c :: r => digits? base 0 (c :: r)
  | [] => none

/-- The character with this code point, if there is one. -/
def scalar? (n : Nat) : Option Char :=
  if n.isValidChar then some (Char.ofNat n) else none

def resolve? (body : List Char) : Option Char :=
  if body = "lt".toList then some '<'
  else if body = "gt".toList then some '>'
  else if body = "amp".toList then some '&'
  else if body = "quot".toList then some '"'
  else if body = "apos".toList then some '\''
  else if body = "nbsp".toList then some '\u00a0'
  else
    match body with
    | '#' :: 'x' :: r => (number? 16 r).bind scalar?
    | '#' :: 'X' :: r => (number? 16 r).bind scalar?
    | '#' :: r => (number? 10 r).bind scalar?
    | _ => none

/-- The text before the first `;` and the text after it, if the first takes at most `limit` bytes. -/
def beforeSemicolon? (limit : Nat) : List Char → Option (List Char × List Char)
  | [] => none
  | c :: r =>
    if c = ';' then some ([], r)
    else if limit < c.utf8Size then none
    else (beforeSemicolon? (limit - c.utf8Size) r).map fun (body, after) => (c :: body, after)

/-- The body of the reference whose `&` has just been read, and what follows its `;`.  A body has one
to ten bytes. -/
def body? (s : List Char) : Option (List Char × List Char) :=
  (beforeSemicolon? 10 s).filter fun (body, _) => !body.isEmpty

/-- The character of the reference whose `&` has just been read, and what follows it. -/
def read? (s : List Char) : Option (Char × List Char) :=
  (body? s).bind fun (body, after) => (resolve? body).map fun c => (c, after)

theorem eq_of_beforeSemicolon? {limit : Nat} {s body after : List Char}
    (h : beforeSemicolon? limit s = some (body, after)) : s = body ++ ';' :: after := by
  induction s generalizing limit body with
  | nil => simp [beforeSemicolon?] at h
  | cons c r ih =>
    simp only [beforeSemicolon?] at h
    split at h
    · rename_i hc
      simp only [Option.some.injEq, Prod.mk.injEq] at h
      obtain ⟨rfl, rfl⟩ := h
      simp [hc]
    · split at h
      · simp at h
      · rw [Option.map_eq_some_iff] at h
        obtain ⟨⟨b, a⟩, hr, hb⟩ := h
        simp only [Prod.mk.injEq] at hb
        obtain ⟨rfl, rfl⟩ := hb
        rw [ih hr]
        simp

theorem eq_of_body? {s body after : List Char} (h : body? s = some (body, after)) :
    s = body ++ ';' :: after :=
  eq_of_beforeSemicolon? (Option.filter_eq_some_iff.mp h).1

theorem length_lt_of_read? {s after : List Char} {c : Char} (h : read? s = some (c, after)) :
    after.length < s.length := by
  unfold read? at h
  rw [Option.bind_eq_some_iff] at h
  obtain ⟨⟨body, rest⟩, hb, hr⟩ := h
  rw [Option.map_eq_some_iff] at hr
  obtain ⟨d, _, hd⟩ := hr
  simp only [Prod.mk.injEq] at hd
  obtain ⟨_, rfl⟩ := hd
  rw [eq_of_body? hb]
  simp
  omega

end Reference

/-- The text with its references resolved.  An `&` that starts no reference is kept, and reading goes
on right after it. -/
def decodeReferences (s : List Char) : List Char :=
  match s with
  | [] => []
  | c :: r =>
    if c = '&' then
      match _h : Reference.read? r with
      | some (d, after) => d :: decodeReferences after
      | none => c :: decodeReferences r
    else c :: decodeReferences r
termination_by s.length
decreasing_by
  · have := Reference.length_lt_of_read? (by assumption)
    simp only [List.length_cons]
    omega
  · simp
  · simp

end Bindery
