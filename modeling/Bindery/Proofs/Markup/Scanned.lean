import Mathlib.Data.List.TakeWhile
import Bindery.Markup.Reader
import Bindery.Proofs.Markup.Ordering

/-!
# What reading can give

Any text reads as a fragment, but not every fragment is read from a text.  A name is a run of name
characters in small letters that does not begin with `/`, an element has each attribute once, and no
text is empty.  This holds of the lexemes first, then of everything on the stack after each of them.

* `Token.Scanned`              the names and texts of a token
* `isReadTag_ofWritten`        a tag put in order
* `Fragment.Every`             a test that all elements pass, and one that all texts pass
* `Stack.every_take`           one step of reading
* `Fragment.scanned_ofText`    whatever is read
-/

namespace Bindery

open Token (isNameChar IsNameRun)

/-! ## Tokens -/

namespace Token

/-- The names of a token are runs of name characters, and a text is not empty. -/
def Scanned : Token → Prop
  | text content => content ≠ []
  | opening name attributes _ => IsNameRun name ∧ ∀ w ∈ attributes, IsNameRun w.name
  | closing _ => True
  | skipped => True

theorem isNameRun_takeWhile {s : List Char} (h : ∀ c ∈ s.head?, c ≠ '/') :
    IsNameRun (s.takeWhile isNameChar) where
  chars _ hc := List.mem_takeWhile_imp hc
  head c hc := by
    cases s with
    | nil => cases hc
    | cons d r =>
      rw [List.takeWhile_cons] at hc
      split at hc
      · exact (Option.some.inj hc) ▸ h d rfl
      · cases hc

theorem scanned_splitAttributes {s rest : List Char} {l : List WrittenAttribute}
    (h : splitAttributes s = some (l, rest)) : ∀ w ∈ l, IsNameRun w.name := by
  have hname : ∀ {c : Char} {r : List Char}, ¬ endsAttributes c = true →
      IsNameRun ((c :: r).takeWhile isNameChar) := by
    intro c r hc
    refine isNameRun_takeWhile fun d hd hs => hc ?_
    cases hd
    rw [hs]
    rfl
  fun_induction splitAttributes s generalizing l rest with
  | case1 => cases h
  | case2 =>
    cases h
    exact fun w hw => absurd hw List.not_mem_nil
  | case3 => cases h
  | case4 s c r hs hc name value? d after hr hd =>
    rename_i ih
    obtain ⟨⟨l', rest'⟩, hl, he⟩ := Option.map_eq_some_iff.mp h
    cases he
    intro w hw
    rcases List.mem_cons.mp hw with rfl | hw
    · exact hname hc
    · exact ih hl w hw
  | case5 s c r hs hc name value? d after hr hd =>
    rename_i ih
    obtain ⟨⟨l', rest'⟩, hl, he⟩ := Option.map_eq_some_iff.mp h
    cases he
    intro w hw
    rcases List.mem_cons.mp hw with rfl | hw
    · exact hname hc
    · rcases List.mem_append.mp hw with hw | hw
      · rw [List.eq_of_mem_replicate hw]
        exact .nil
      · exact ih hl w hw

theorem scanned_readOpening {name : List Char} (hn : IsNameRun name) (s : List Char) :
    (readOpening name s).1.Scanned := by
  unfold readOpening
  split
  · trivial
  · rename_i attributes rest h
    dsimp only
    split
    · exact ⟨hn, scanned_splitAttributes h⟩
    · trivial

theorem scanned_readTag (s : List Char) : (readTag s).1.Scanned := by
  unfold readTag
  generalize skipBlanks s = r
  split
  · trivial
  · trivial
  · trivial
  · rename_i hslash _
    refine scanned_readOpening (isNameRun_takeWhile fun c hc hs => ?_) _
    obtain ⟨t, rfl⟩ := List.head?_eq_some_iff.mp hc
    exact hslash t (hs ▸ rfl)

end Token

theorem Lexeme.scanned_read (strays : Nat) (s : List Char) :
    ∀ x ∈ Lexeme.read strays s, x.token.Scanned := by
  fun_induction Lexeme.read strays s with
  | case1 => exact fun x hx => absurd hx List.not_mem_nil
  | case2 strays h =>
    intro x hx
    rw [List.mem_singleton.mp hx]
    show List.replicate strays '�' ≠ []
    exact fun hn => h ((List.replicate_eq_nil_iff _).mp hn)
  | case3 strays c r h tag ih =>
    intro x hx
    rcases List.mem_cons.mp hx with rfl | hx
    · exact Token.scanned_readTag r
    · exact ih x hx
  | case4 strays c r h content ih =>
    intro x hx
    rcases List.mem_cons.mp hx with rfl | hx
    · show List.replicate strays '�' ++ (c :: r).takeWhile (· ≠ '<') ≠ []
      intro hn
      obtain ⟨hstrays, hcontent⟩ := List.append_eq_nil_iff.mp hn
      by_cases hc : c = '<'
      · exact h ⟨(List.replicate_eq_nil_iff _).mp hstrays, hc⟩
      · rw [List.takeWhile_cons_of_pos (by simpa using hc)] at hcontent
        cases hcontent
    · exact ih x hx

/-! ## Elements -/

theorem isReadName_lower {name : List Char} (h : IsNameRun name) :
    IsReadName (Text.lower (String.ofList name)) where
  chars c hc := by
    rw [Text.lower, String.toList_ofList, String.toList_ofList] at hc
    obtain ⟨d, hd, rfl⟩ := List.mem_map.mp hc
    exact Token.isNameChar_toLower (h.chars d hd)
  head c hc hs := by
    rw [Text.lower, String.toList_ofList, String.toList_ofList, List.head?_map] at hc
    obtain ⟨d, hd, hlower⟩ := Option.map_eq_some_iff.mp hc
    exact h.head d hd (Text.eq_of_toLower_eq (hlower.trans hs) (by decide))
  lower := Text.lower_lower _

namespace Attributes

theorem mem_names_ofList {pairs : List (String × String)} {n : String}
    (h : n ∈ (ofList pairs).names) : ∃ e ∈ pairs, n = Text.lower e.1 := by
  have hall : ∀ a : Attributes, n ∈ (pairs.foldl (fun a e => a.set e.1 e.2) a).names →
      n ∈ a.names ∨ ∃ e ∈ pairs, n = Text.lower e.1 := by
    clear h
    induction pairs with
    | nil => exact fun a h => Or.inl h
    | cons e r ih =>
      intro a h
      rcases ih _ h with h | ⟨x, hx, hn⟩
      · exact (mem_put h).symm.imp_right fun hn => ⟨e, List.mem_cons_self, hn⟩
      · exact Or.inr ⟨x, List.mem_cons_of_mem e hx, hn⟩
  exact (hall empty h).resolve_left List.not_mem_nil

theorem mem_of_mem_arrange {order : List String} {pairs : List (String × String)}
    {e : String × String} (h : e ∈ arrange order pairs) : e ∈ pairs := by
  rcases List.mem_append.mp h with h | h
  · obtain ⟨n, _, he⟩ := List.mem_flatMap.mp h
    exact (List.mem_filter.mp he).1
  · exact (List.mem_filter.mp h).1

theorem mem_of_mem_lastWritten {name : String} {l : List WrittenAttribute} {w : WrittenAttribute}
    (h : w ∈ lastWritten name l) : w ∈ l := by
  unfold lastWritten at h
  split at h
  · rename_i a ha
    split at h
    · rw [List.mem_singleton.mp h]
      exact (List.mem_filter.mp (List.mem_of_getLast? ha)).1
    · cases h
  · cases h

/-- The name of an attribute is one that stands in the tag, in small letters. -/
theorem exists_of_mem_ofWritten {l : List WrittenAttribute} {source : List Char} {n : String}
    (h : n ∈ (ofWritten l source).names) :
    ∃ w ∈ l, n = Text.lower (String.ofList w.name) := by
  obtain ⟨e, he, rfl⟩ := mem_names_ofList h
  obtain ⟨w, hw, rfl⟩ := List.mem_map.mp (mem_of_mem_arrange he)
  refine ⟨w, ?_, Text.lower_lower _⟩
  rcases List.mem_append.mp hw with hw | hw
  · rcases List.mem_append.mp hw with hw | hw
    · exact (List.mem_filter.mp hw).1
    · exact mem_of_mem_lastWritten hw
  · exact mem_of_mem_lastWritten hw

end Attributes

theorem isReadTag_ofWritten {name : List Char} (hn : IsNameRun name) {l : List WrittenAttribute}
    (hl : ∀ w ∈ l, IsNameRun w.name) (source : List Char) :
    IsReadTag (Text.lower (String.ofList name)) (Attributes.ofWritten l source) where
  tagName := isReadName_lower hn
  nodup := (Attributes.sound_ofList _).nodup
  names n h := by
    obtain ⟨w, hw, rfl⟩ := Attributes.exists_of_mem_ofWritten h
    exact isReadName_lower (hl w hw)

/-! ## Fragments -/

namespace Fragment

variable {ι : Type}

/-- Every element passes one test, with its children, and every text another. -/
def Every (P : String → Attributes → Fragment ι → Prop) (T : String → Prop) : Fragment ι → Prop
  | nil => True
  | text content rest => T content ∧ rest.Every P T
  | element _ tag attributes children rest =>
    P tag attributes children ∧ children.Every P T ∧ rest.Every P T

section

variable {P : String → Attributes → Fragment ι → Prop} {T : String → Prop} {f g : Fragment ι}

theorem every_nil : (nil : Fragment ι).Every P T := trivial

theorem every_append (hf : f.Every P T) (hg : g.Every P T) : (f ++ g).Every P T := by
  induction f with
  | nil => exact hg
  | text content rest ih => exact ⟨hf.1, ih hf.2⟩
  | element label tag attributes children rest _ ih => exact ⟨hf.1, hf.2.1, ih hf.2.2⟩

end

/-- No text is empty, and every element is one that a reader gives. -/
def Scanned : Fragment ι → Prop := Every (fun tag attributes _ => IsReadTag tag attributes) (· ≠ "")

theorem Scanned.sound {f : Fragment ι} (h : f.Scanned) : ∀ x ∈ f.elements, x.attributes.Sound := by
  induction f with
  | nil => exact fun x hx => nomatch hx
  | text content rest ih => exact ih h.2
  | element label tag attributes children rest _ ih =>
    intro x hx
    rcases List.mem_cons.mp hx with rfl | hx
    · exact h.1.sound
    · exact ih h.2.2 x hx

end Fragment

/-! ## The stack -/

section Reading

variable {P : String → Attributes → Fragment Unit → Prop} {T : String → Prop}

/-- What a lexeme can add to a fragment passes the tests.  An element that is never open has no
children. -/
structure Lexeme.Gives (P : String → Attributes → Fragment Unit → Prop) (T : String → Prop)
    (x : Lexeme) : Prop where
  text : ∀ {content}, x.token = .text content → T (String.ofList (decodeReferences content))
  element : ∀ {name attributes selfClosing}, x.token = .opening name attributes selfClosing →
    ∀ source children, (name ∈ standaloneTags → children = .nil) →
      P (Text.lower (String.ofList name)) (Attributes.ofWritten attributes source) children

/-- Whatever an open element will hold, it passes the test, and so does what it holds. -/
structure Level.Every (P : String → Attributes → Fragment Unit → Prop) (T : String → Prop)
    (l : Level) : Prop where
  element : ∀ source children,
    P (Text.lower (String.ofList l.name)) (Attributes.ofWritten l.attributes source) children
  children : l.children.Every P T

theorem Level.Every.close {l : Level} (h : l.Every P T) (source : List Char) :
    (l.close source).Every P T :=
  ⟨h.element source l.children, h.children, trivial⟩

namespace Stack

structure Every (P : String → Attributes → Fragment Unit → Prop) (T : String → Prop)
    (s : Stack) : Prop where
  row : s.row.Every P T
  opened : ∀ l ∈ s.opened, l.Every P T

variable {s : Stack}

theorem every_add (h : s.Every P T) {nodes : Fragment Unit} (hn : nodes.Every P T)
    (source : List Char) : (s.add nodes source).Every P T := by
  obtain ⟨opened, row⟩ := s
  cases opened with
  | nil => exact ⟨Fragment.every_append h.row hn, h.opened⟩
  | cons l outer =>
    refine ⟨h.row, fun x hx => ?_⟩
    rcases List.mem_cons.mp hx with rfl | hx
    · have hl := h.opened l List.mem_cons_self
      exact ⟨hl.element, Fragment.every_append hl.children hn⟩
    · exact h.opened x (List.mem_cons_of_mem l hx)

theorem every_take (h : s.Every P T) {lexeme : Lexeme} (hx : lexeme.Gives P T) :
    (s.take lexeme).Every P T := by
  obtain ⟨token, source⟩ := lexeme
  unfold take
  cases token with
  | text content =>
    have htext : (Fragment.text (String.ofList (decodeReferences content)) .nil).Every P T :=
      ⟨hx.text rfl, trivial⟩
    exact every_add h htext source
  | opening name attributes selfClosing =>
    dsimp only
    split
    · have helement : (Level.close ⟨name, attributes, source, [], .nil⟩ source).Every P T :=
        ⟨hx.element rfl source .nil fun _ => rfl, trivial, trivial⟩
      exact every_add h helement source
    · rename_i hopen
      refine ⟨h.row, fun l hl => ?_⟩
      rcases List.mem_cons.mp hl with rfl | hl
      · exact ⟨fun source children => hx.element rfl source children fun hv =>
          absurd (Or.inr hv) hopen, trivial⟩
      · exact h.opened l hl
  | closing name =>
    obtain ⟨opened, row⟩ := s
    cases opened with
    | nil => exact h
    | cons l outer =>
      have hl := h.opened l List.mem_cons_self
      dsimp only
      split
      · have houter : Every P T ⟨outer, row⟩ :=
          ⟨h.row, fun x hx => h.opened x (List.mem_cons_of_mem l hx)⟩
        exact every_add houter (hl.close _) _
      · exact every_add h Fragment.every_nil source
  | skipped => exact every_add h Fragment.every_nil source

theorem every_finish {row inner : Fragment Unit} (hr : row.Every P T) (hi : inner.Every P T)
    {opened : List Level} (ho : ∀ l ∈ opened, l.Every P T) : (finish row inner opened).Every P T := by
  induction opened generalizing inner with
  | nil => exact Fragment.every_append hr hi
  | cons l outer ih =>
    have hl := ho l List.mem_cons_self
    have hfilled : Level.Every P T { l with children := l.children ++ inner } :=
      ⟨hl.element, Fragment.every_append hl.children hi⟩
    exact ih (hfilled.close _) fun x hx => ho x (List.mem_cons_of_mem l hx)

end Stack

/-- What is read passes the tests if all that its lexemes can give does. -/
theorem Fragment.every_ofChars {s : List Char} (h : ∀ x ∈ Lexeme.ofText s, x.Gives P T) :
    (ofChars s).Every P T := by
  have hall : ∀ (lexemes : List Lexeme) (s : Stack), (∀ x ∈ lexemes, x.Gives P T) → s.Every P T →
      (lexemes.foldl Stack.take s).Every P T := by
    intro lexemes
    induction lexemes with
    | nil => exact fun _ _ h => h
    | cons lexeme r ih =>
      intro s hx h
      exact ih _ (fun x hr => hx x (List.mem_cons_of_mem lexeme hr))
        (Stack.every_take h (hx lexeme List.mem_cons_self))
  have hread := hall _ Stack.empty h ⟨trivial, fun _ hl => nomatch hl⟩
  exact Stack.every_finish hread.row every_nil hread.opened

end Reading

/-- Whatever a text is, what is read from it has names and texts as a reader gives them. -/
theorem Fragment.scanned_ofText (markup : String) : (ofText markup).Scanned := by
  refine every_ofChars fun x hx => ?_
  have hscanned := Lexeme.scanned_read 0 markup.toList x hx
  refine ⟨fun {content} ht he => ?_, fun {name attributes selfClosing} ht source _ _ => ?_⟩
  · rw [ht] at hscanned
    exact decodeReferences_ne_nil hscanned (String.ofList_eq_empty_iff.mp he)
  · rw [ht] at hscanned
    exact isReadTag_ofWritten hscanned.1 hscanned.2 source

end Bindery
