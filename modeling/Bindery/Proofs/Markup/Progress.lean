import Bindery.Proofs.Markup.Naming
import Bindery.Proofs.Text.Offsets

/-!
# The search for names ends

The search for the attribute names of a tag is a loop.  A turn steps over what stands between
attributes, takes a name if one begins there, and steps over a value if `=` is next.  Every part is found
by its offset and cut off there.  The text does not have to be a tag: names may be empty, quotes may never
be closed, and blanks beyond ASCII count behind a name though none of them ends it.

Whatever the text is, no offset is out of range, and a turn that does not end the loop leaves less text
than it was given.  A turn that finds no name has `=` in front of it, so it takes at least that; any
other takes the first character of a name.  So the loop takes at most one turn more than there are
characters.

* `Turn`, `turn?`                one turn by offsets
* `loop?`, `searched?`           so many turns at most
* `turn?_eq`, `Turn.progress`    what a turn takes and leaves
* `search_ends`                  the whole search
-/

namespace Bindery

namespace WrittenOrder

open Text (isAsciiBlank trimStart bytes cutAt? offset? cutAt?_bytes cutAt?_offset? offset?_getD
  length_bytes_pos_iff)

/-- The name that a turn finds, if it finds one, and the text that is left to search. -/
structure Turn where
  name? : Option String
  rest : List Char

/-- What is behind a value, by offsets: behind the quote that closes it, or where a bare value ends.
`none` if an offset is out of range. -/
def behindValue? (value : List Char) : Option (List Char) :=
  match value.head?.filter fun c => c = '"' ∨ c = '\'' with
  | some quote => do
    let (_, inside) ← cutAt? value 1
    match offset? (· == quote) inside with
    | some close => (cutAt? value (close + 2)).map Prod.snd
    | none => some []
  | none => (cutAt? value ((offset? endsValue value).getD (bytes value).length)).map Prod.snd

/-- What is behind a name, with its value if it has one. -/
def behindName? (s : List Char) : Option (List Char) :=
  match trimStart s with
  | '=' :: value => behindValue? (trimStart value)
  | rest => some rest

/-- One turn by offsets: the outer `none` if one is out of range, the inner `none` if the search ends. -/
def turn? (s : List Char) : Option (Option Turn) :=
  let here := s.dropWhile isSeparator
  if here = [] ∨ here.head? = some '>' then some none
  else do
    let stop := (offset? endsName here).getD (bytes here).length
    let (name, behind) ← cutAt? here stop
    let name? := if 0 < stop then some (Text.lower (String.ofList name)) else none
    (behindName? behind).map fun rest => some ⟨name?, rest⟩

/-- The search with the names found so far; `none` if an offset is out of range, or if it does not end
within `n` turns. -/
def loop? : Nat → List String → List Char → Option (List String)
  | 0, _, _ => none
  | n + 1, found, s =>
    match turn? s with
    | none => none
    | some none => some found
    | some (some t) => loop? n (found ++ t.name?.toList) t.rest

def searched? (n : Nat) (source : List Char) : Option (List String) :=
  loop? n [] ((source.dropWhile (· = '<')).dropWhile fun c => !(isAsciiBlank c || c == '>' || c == '/'))

/-! ## One turn -/

def turn (s : List Char) : Option Turn :=
  match s.dropWhile isSeparator with
  | [] => none
  | c :: r =>
    if c = '>' then none
    else if c = '=' then some ⟨none, afterValue (trimStart r)⟩
    else some ⟨some (Text.lower (String.ofList (c :: r.takeWhile fun d => !endsName d))),
      afterName (r.dropWhile fun d => !endsName d)⟩

theorem behindValue?_eq (value : List Char) : behindValue? value = some (afterValue value) := by
  cases value with
  | nil => rfl
  | cons c r =>
    by_cases hc : c = '"' ∨ c = '\''
    · have hone : cutAt? (c :: r) 1 = some ([c], r) := by
        rcases hc with rfl | rfl <;> exact cutAt?_bytes [_] r
      have hbyte : (String.utf8EncodeChar c).length = 1 := by
        rcases hc with rfl | rfl <;> rfl
      have hquote : (some c).filter (fun c => c = '"' ∨ c = '\'') = some c := by
        rw [Option.filter_some, if_pos (decide_eq_true hc)]
      rw [behindValue?, List.head?_cons, hquote, afterValue, if_pos hc]
      dsimp only [Option.bind_eq_bind]
      rw [hone, Option.bind_some]
      dsimp only
      cases hclose : offset? (· == c) r with
      | none =>
        have hopen : r.dropWhile (· ≠ c) = [] := List.dropWhile_eq_nil_iff.mpr fun d hd =>
          decide_eq_true (beq_eq_false_iff_ne.mp (Text.of_offset?_eq_none hclose d hd))
        rw [hopen]
        rfl
      | some n =>
        obtain ⟨inside, d, after, rfl, hinside, hd, rfl⟩ := Text.eq_of_offset? hclose
        obtain rfl : d = c := beq_iff_eq.mp hd
        have hvalue : ∀ e ∈ inside, (e ≠ d : Bool) = true := fun e he =>
          decide_eq_true (beq_eq_false_iff_ne.mp (hinside e he))
        have hoffset : (bytes inside).length + 2 = (bytes (d :: inside ++ [d])).length := by
          rw [Text.bytes_append, List.length_append, Text.length_bytes_cons, hbyte,
            Text.length_bytes_cons, hbyte]
          simp only [bytes, List.flatMap_nil, List.length_nil]
          omega
        have hwhole : d :: (inside ++ d :: after) = d :: inside ++ [d] ++ after := by simp
        dsimp only
        rw [hwhole, hoffset, cutAt?_bytes, Text.dropWhile_append_stop hvalue (by simp)]
        rfl
    · have hbare : (some c).filter (fun c => c = '"' ∨ c = '\'') = none := by
        rw [Option.filter_some, if_neg (by simpa using hc)]
      rw [behindValue?, List.head?_cons, hbare, afterValue, if_neg hc]
      dsimp only
      rw [cutAt?_offset?]
      rfl

theorem behindName?_eq (s : List Char) : behindName? s = some (afterName s) := by
  by_cases hs : ∃ r, trimStart s = '=' :: r
  · obtain ⟨r, hr⟩ := hs
    rw [behindName?, hr, afterName, hr]
    exact behindValue?_eq (trimStart r)
  · have hbehind : behindName? s = some (trimStart s) := by
      unfold behindName?
      split
      · rename_i r hr
        exact absurd ⟨r, hr⟩ hs
      · rfl
    have hafter : afterName s = trimStart s := by
      unfold afterName
      split
      · rename_i r hr
        exact absurd ⟨r, hr⟩ hs
      · rfl
    rw [hbehind, hafter]

/-- No offset of a turn is out of range. -/
theorem turn?_eq (s : List Char) : turn? s = some (turn s) := by
  unfold turn? turn
  cases hs : s.dropWhile isSeparator with
  | nil => rfl
  | cons c r =>
    by_cases hend : c = '>'
    · simp [hend]
    have hgo : ¬ (c :: r = [] ∨ (c :: r).head? = some '>') := by simpa using hend
    dsimp only
    rw [if_neg hgo, if_neg hend, cutAt?_offset?, offset?_getD]
    dsimp only [Option.bind_eq_bind, Option.bind_some]
    by_cases heq : c = '='
    · -- The name is empty, and the value is what there is to step over.
      subst heq
      have hempty : ('=' :: r).takeWhile (fun d => !endsName d) = [] :=
        List.takeWhile_cons_of_neg (by decide)
      have hstay : ('=' :: r).dropWhile (fun d => !endsName d) = '=' :: r :=
        List.dropWhile_cons_of_neg (by decide)
      have hvalue : afterName ('=' :: r) = afterValue (trimStart r) := rfl
      rw [hempty, hstay, if_neg (by decide), if_pos rfl, behindName?_eq, hvalue]
      rfl
    · have hc : (!endsName c) = true := by rw [not_endsName_head hs hend heq, Bool.not_false]
      have hname : (c :: r).takeWhile (fun d => !endsName d) = c :: r.takeWhile fun d => !endsName d :=
        List.takeWhile_cons_of_pos hc
      have hbehind : (c :: r).dropWhile (fun d => !endsName d) = r.dropWhile fun d => !endsName d :=
        List.dropWhile_cons_of_pos hc
      rw [hname, hbehind, if_pos (length_bytes_pos_iff.mpr (List.cons_ne_nil _ _)), if_neg heq,
        behindName?_eq]
      rfl

/-! ## What a turn takes and leaves -/

theorem afterValue_suffix (s : List Char) : afterValue s <:+ s := by
  cases s with
  | nil => exact List.suffix_refl []
  | cons c r =>
    rw [afterValue]
    split
    · exact ((List.drop_suffix 1 _).trans (List.dropWhile_suffix _)).trans (List.suffix_cons c r)
    · exact List.dropWhile_suffix _

theorem afterName_suffix (s : List Char) : afterName s <:+ s := by
  have htrim : trimStart s <:+ s := List.dropWhile_suffix _
  unfold afterName
  split
  · rename_i r hr
    have hvalue := (afterValue_suffix (trimStart r)).trans (List.dropWhile_suffix _)
    exact (hvalue.trans (List.suffix_cons '=' r)).trans (hr ▸ htrim)
  · exact htrim

theorem Turn.progress {s : List Char} {t : Turn} (h : turn s = some t) :
    ∃ passed, passed ≠ [] ∧ s = passed ++ t.rest := by
  unfold turn at h
  split at h
  · cases h
  · rename_i c r hs
    have hrest : t.rest <:+ r := by
      split at h
      · cases h
      split at h
      · obtain rfl := Option.some.inj h
        exact (afterValue_suffix _).trans (List.dropWhile_suffix _)
      · obtain rfl := Option.some.inj h
        exact (afterName_suffix _).trans (List.dropWhile_suffix _)
    obtain ⟨front, hfront⟩ : c :: r <:+ s := hs ▸ List.dropWhile_suffix _
    obtain ⟨middle, hmiddle⟩ := hrest
    refine ⟨front ++ c :: middle, by simp, ?_⟩
    rw [← hfront, ← hmiddle, List.append_assoc, List.cons_append]

theorem Turn.length_lt {s : List Char} {t : Turn} (h : turn s = some t) : t.rest.length < s.length := by
  obtain ⟨passed, hne, rfl⟩ := Turn.progress h
  have hpos := List.length_pos_iff.mpr hne
  rw [List.length_append]
  omega

theorem namesFrom_eq_turn (s : List Char) :
    namesFrom s = match turn s with
      | none => []
      | some t => t.name?.toList ++ namesFrom t.rest := by
  rw [namesFrom, turn]
  split
  · rename_i hs
    rw [hs]
  · rename_i c r hs
    rw [hs]
    dsimp only
    by_cases hend : c = '>'
    · rw [if_pos hend, if_pos hend]
    rw [if_neg hend, if_neg hend]
    by_cases heq : c = '='
    · rw [if_pos heq, if_pos heq]
      rfl
    · rw [if_neg heq, if_neg heq]
      rfl

theorem Turn.isFoundName {s : List Char} {t : Turn} (h : turn s = some t) {n : String}
    (hn : n ∈ t.name?) : IsFoundName n := by
  have hmem : n ∈ namesFrom s := by
    rw [namesFrom_eq_turn, h]
    exact List.mem_append_left _ (Option.mem_toList.mpr hn)
  exact of_mem_namesFrom hmem

/-! ## The whole search -/

/-- With more turns than characters the search ends, with the names of the text. -/
theorem loop?_eq {n : Nat} {s : List Char} (h : s.length < n) (found : List String) :
    loop? n found s = some (found ++ namesFrom s) := by
  induction n generalizing s found with
  | zero => exact absurd h (Nat.not_lt_zero _)
  | succ n ih =>
    rw [loop?, turn?_eq, namesFrom_eq_turn]
    cases ht : turn s with
    | none => rw [List.append_nil]
    | some t =>
      have hlt := Turn.length_lt ht
      dsimp only
      rw [ih (by omega), List.append_assoc]

theorem searched?_eq {n : Nat} {source : List Char} (h : source.length < n) :
    searched? n source = some (writtenOrder source) := by
  have hlength := Text.length_dropWhile_le (fun c => !(isAsciiBlank c || c == '>' || c == '/'))
    (source.dropWhile (· = '<'))
  have hopen := Text.length_dropWhile_le (· = '<') source
  rw [searched?, loop?_eq (by omega), List.nil_append]
  rfl

/-- Each turn on any text ends the search, or takes at least one character and leaves the rest.  So the
search of any text ends within one turn more than it has characters.  Names are found in lower case; they
are not empty and have no ASCII blank and no `=`, `>` or `/` in them. -/
theorem search_ends (source : List Char) :
    (∀ s, ∃ next, turn? s = some next ∧ ∀ t ∈ next,
      (∃ passed, passed ≠ [] ∧ s = passed ++ t.rest) ∧ ∀ n ∈ t.name?, IsFoundName n) ∧
    searched? (source.length + 1) source = some (writtenOrder source) ∧
    ∀ n ∈ writtenOrder source, IsFoundName n := by
  have hturn : ∀ s, ∃ next, turn? s = some next ∧ ∀ t ∈ next,
      (∃ passed, passed ≠ [] ∧ s = passed ++ t.rest) ∧ ∀ n ∈ t.name?, IsFoundName n :=
    fun s => ⟨turn s, turn?_eq s, fun t ht => ⟨Turn.progress ht, fun n hn => Turn.isFoundName ht hn⟩⟩
  exact ⟨hturn, searched?_eq (Nat.lt_succ_self _), fun n hn => of_mem_namesFrom hn⟩

example : searched? 3 "<p ==a B='c".toList = some ["b"] := by decide +kernel

end WrittenOrder

end Bindery
