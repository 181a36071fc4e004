import Bindery.Markup.Reader
import Bindery.Proofs.Markup.Ordering

/-!
# Fragments read back from their own writing

A fragment is written as a row of tags and escaped texts, and these are the lexemes that its writing
is cut into.  The stack of the reader takes them back to the fragment: each element opens a level, its
children are added to that level, and its own closing tag closes it.  An element that is void for the
reader only is complete with its opening tag, and its closing tag finds nothing to close.

* `Fragment.bare`, `outline`   a fragment without its labels, and without the data in it
* `Fragment.Readable`     what a fragment must be like to be read back
* `Fragment.Writable`     fragments with plain names, which are
* `Fragment.lexemes`      the lexemes it is written in
* `read_print`            the reader finds these
* `foldl_take_lexemes`    and the stack makes the fragment of them
* `ofText_markup`         so reading undoes writing
-/

namespace Bindery

namespace Fragment

variable {ι κ : Type}

def bare : Fragment ι → Fragment Unit
  | nil => nil
  | text content rest => text content rest.bare
  | element _ tag attributes children rest => element () tag attributes children.bare rest.bare

theorem textContent_bare (f : Fragment ι) : f.bare.textContent = f.textContent := by
  induction f with
  | nil => rfl
  | text content rest ih => exact congrArg (content.toList ++ ·) ih
  | element label tag attributes children rest ihc ih => exact congrArg₂ (· ++ ·) ihc ih

theorem descendants_bare (f : Fragment ι) :
    f.bare.descendants = f.descendants.map fun x => ⟨(), x.tag, x.attributes⟩ := by
  induction f with
  | nil => rfl
  | text content rest ih => exact ih
  | element label tag a children rest ihc ih =>
    rw [bare, descendants, descendants, ihc, ih, List.map_append, List.map_cons]

/-- The fragment with its texts and the values of its attributes taken out. -/
def outline : Fragment ι → Fragment Unit
  | nil => nil
  | text _ rest => text "" rest.outline
  | element _ tag attributes children rest =>
    element () tag ⟨attributes.names.map fun n => (n, "")⟩ children.outline rest.outline

theorem outline_bare (f : Fragment ι) : f.bare.outline = f.outline := by
  induction f with
  | nil => rfl
  | text content rest ih => exact congrArg (text "") ih
  | element label tag attributes children rest ihc ih =>
    exact congrArg₂ (element () tag ⟨attributes.names.map fun n => (n, "")⟩) ihc ih

def Filled : Fragment ι → Prop
  | nil => True
  | text content rest => content ≠ "" ∧ rest.Filled
  | element _ _ _ children rest => children.Filled ∧ rest.Filled

def beginsWithText : Fragment ι → Bool
  | text _ _ => true
  | _ => false

/-- Names are plain, texts are not empty and never side by side, and an element is void for the writer
and for the reader, and then has no children, or for neither. -/
inductive Writable : Fragment ι → Prop where
  | nil : Writable .nil
  | text {content : String} {rest : Fragment ι} :
      content ≠ "" → rest.beginsWithText = false → Writable rest → Writable (.text content rest)
  | void {label : ι} {tag : String} {attributes : Attributes} {rest : Fragment ι} :
      IsPlainName tag → tag ∈ voidTags → tag.toList ∈ standaloneTags → attributes.Writable →
      Writable rest → Writable (.element label tag attributes .nil rest)
  | element {label : ι} {tag : String} {attributes : Attributes} {children rest : Fragment ι} :
      IsPlainName tag → tag ∉ voidTags → tag.toList ∉ standaloneTags → attributes.Writable →
      Writable children → Writable rest → Writable (.element label tag attributes children rest)

/-- Every tag is one that a reader gives, with its attributes in the order of the tag; texts are not
empty and never side by side; and an element that is void, for the writer or for the reader, has no
children. -/
inductive Readable : Fragment ι → Prop where
  | nil : Readable .nil
  | text {content : String} {rest : Fragment ι} :
      content ≠ "" → rest.beginsWithText = false → Readable rest → Readable (.text content rest)
  | void {label : ι} {tag : String} {attributes : Attributes} {rest : Fragment ι} :
      IsReadTag tag attributes → attributes.Settled tag → tag ∈ voidTags →
      Readable rest → Readable (.element label tag attributes .nil rest)
  | standalone {label : ι} {tag : String} {attributes : Attributes} {rest : Fragment ι} :
      IsReadTag tag attributes → attributes.Settled tag → tag ∉ voidTags →
      tag.toList ∈ standaloneTags → Readable rest → Readable (.element label tag attributes .nil rest)
  | element {label : ι} {tag : String} {attributes : Attributes} {children rest : Fragment ι} :
      IsReadTag tag attributes → attributes.Settled tag → tag ∉ voidTags →
      tag.toList ∉ standaloneTags → Readable children → Readable rest →
      Readable (.element label tag attributes children rest)

/-- What is written like this is read as it is written: every tag is one that a reader gives, and texts
are not empty and never side by side. -/
def Spaced : Fragment ι → Prop
  | nil => True
  | text content rest => content ≠ "" ∧ rest.beginsWithText = false ∧ rest.Spaced
  | element _ tag attributes children rest =>
    IsReadTag tag attributes ∧ (tag ∈ voidTags → children = nil) ∧ children.Spaced ∧ rest.Spaced

theorem Readable.spaced {f : Fragment ι} (h : f.Readable) : f.Spaced := by
  induction h with
  | nil => trivial
  | text hc hrest _ ih => exact ⟨hc, hrest, ih⟩
  | void hr _ _ _ ih => exact ⟨hr, fun _ => rfl, trivial, ih⟩
  | standalone hr _ _ _ _ ih => exact ⟨hr, fun _ => rfl, trivial, ih⟩
  | element hr _ hv _ _ _ ihc ih => exact ⟨hr, fun hv' => absurd hv' hv, ihc, ih⟩

theorem Writable.readable {f : Fragment ι} (h : f.Writable) : f.Readable := by
  induction h with
  | nil => exact .nil
  | text hc hrest _ ih => exact .text hc hrest ih
  | void ht hv _ ha _ ih => exact .void (ha.isReadTag ht) (ha.settled ht) hv ih
  | element ht hv hs ha _ _ ihc ih => exact .element (ha.isReadTag ht) (ha.settled ht) hv hs ihc ih

theorem beginsWithText_outline (f : Fragment ι) : f.outline.beginsWithText = f.beginsWithText := by
  cases f <;> rfl

theorem names_eq_of_outline {a b : Attributes}
    (h : (Attributes.mk (a.names.map fun n => (n, ""))) = ⟨b.names.map fun n => (n, "")⟩) :
    a.names = b.names := by
  have hpair : Function.Injective fun n : String => (n, "") := fun m n hmn => (Prod.mk.inj hmn).1
  exact hpair.list_map (Attributes.mk.inj h)

/-- What data an element shows does not matter to it being read back, empty texts aside. -/
theorem Writable.of_outline {f : Fragment ι} (hf : f.Writable) {g : Fragment κ}
    (ho : g.outline = f.outline) (hg : g.Filled) : g.Writable := by
  induction hf generalizing g with
  | nil =>
    cases g with
    | nil => exact .nil
    | text | element => cases ho
  | @text content rest hc hrest _ ih =>
    cases g with
    | nil | element => cases ho
    | text content' rest' =>
      have hr : rest'.outline = rest.outline := (Fragment.text.inj ho).2
      refine .text hg.1 ?_ (ih hr hg.2)
      rw [← beginsWithText_outline, hr, beginsWithText_outline, hrest]
  | @void label tag attributes rest ht hv hs ha _ ih =>
    cases g with
    | nil | text => cases ho
    | element label' tag' attributes' children' rest' =>
      obtain ⟨_, rfl, hnames, hchildren, hr⟩ := Fragment.element.inj ho
      have hn := names_eq_of_outline hnames
      cases children' with
      | text | element => cases hchildren
      | nil => exact .void ht hv hs ⟨hn ▸ ha.nodup, hn ▸ ha.plain⟩ (ih hr hg.2)
  | @element label tag attributes children rest ht hv hs ha _ _ ihc ih =>
    cases g with
    | nil | text => cases ho
    | element label' tag' attributes' children' rest' =>
      obtain ⟨_, rfl, hnames, hchildren, hr⟩ := Fragment.element.inj ho
      have hn := names_eq_of_outline hnames
      exact .element ht hv hs ⟨hn ▸ ha.nodup, hn ▸ ha.plain⟩ (ihc hchildren hg.1) (ih hr hg.2)

/-! ## Cutting into lexemes -/

def openingLexeme (tag : String) (attributes : Attributes) : Lexeme :=
  ⟨.opening (attributes.nameRead tag).toList (attributes.attributesRead tag) false,
    openingTag tag attributes⟩

def closingLexeme (tag : String) : Lexeme := ⟨.closing tag.toList, closingTag tag⟩

def textLexeme (content : String) : Lexeme :=
  ⟨.text (escapeText content.toList), escapeText content.toList⟩

def lexemes : Fragment ι → List Lexeme
  | nil => []
  | text content rest => textLexeme content :: rest.lexemes
  | element _ tag attributes children rest =>
    if tag ∈ voidTags then openingLexeme tag attributes :: rest.lexemes
    else openingLexeme tag attributes :: (children.lexemes ++ closingLexeme tag :: rest.lexemes)

theorem openingLexeme_of_settled {tag : String} {a : Attributes} (hs : a.Settled tag) :
    openingLexeme tag a = ⟨.opening tag.toList a.written false, openingTag tag a⟩ := by
  obtain ⟨hname, hattributes⟩ := Attributes.read_of_unnamed hs.unnamed
  rw [openingLexeme, hname, hattributes]

theorem read_openingTag {tag : String} {a : Attributes} (hr : IsReadTag tag a) (after : List Char) :
    Lexeme.read 0 (openingTag tag a ++ after) = openingLexeme tag a :: Lexeme.read 0 after := by
  have htag := Token.readTag_opening hr.tagName.toIsNameRun hr.nameRun after
  have hinside : tag.toList ++ (a.print ++ '>' :: after) = tag.toList ++ a.print ++ ['>'] ++ after := by
    simp only [List.append_assoc, List.singleton_append]
  rw [hinside] at htag
  exact Lexeme.read_tag htag

theorem read_closingTag {tag : String} (ht : IsReadName tag) (after : List Char) :
    Lexeme.read 0 (closingTag tag ++ after) = closingLexeme tag :: Lexeme.read 0 after := by
  have htag := Token.readTag_closing ht.toIsNameRun after
  have hinside : '/' :: tag.toList ++ '>' :: after = ('/' :: tag.toList ++ ['>']) ++ after := by
    rw [List.append_assoc, List.singleton_append]
  rw [hinside] at htag
  exact Lexeme.read_tag htag

theorem read_escapeText {content : String} (hc : content ≠ "") {after : List Char}
    (hafter : ∀ c ∈ after.head?, c = '<') :
    Lexeme.read 0 (escapeText content.toList ++ after)
      = textLexeme content :: Lexeme.read 0 after := by
  have hne : content.toList ≠ [] := fun h => hc (String.toList_injective h)
  exact Lexeme.read_text (escapeText_ne_nil hne) (lt_not_mem_escapeText _) hafter

theorem head?_print {f : Fragment ι} (hf : f.beginsWithText = false) {after : List Char}
    (hafter : ∀ c ∈ after.head?, c = '<') : ∀ c ∈ (f.print ++ after).head?, c = '<' := by
  cases f with
  | nil => exact hafter
  | text content rest => cases hf
  | element label tag attributes children rest =>
    intro c hc
    rw [print, printElement] at hc
    split at hc
    · exact (Option.some.inj hc).symm
    · exact (Option.some.inj hc).symm

/-- The writing of a fragment is cut into its lexemes, and what stands behind it is read on its own. -/
theorem read_print {f : Fragment ι} (h : f.Spaced) {after : List Char}
    (hafter : ∀ c ∈ after.head?, c = '<') :
    Lexeme.read 0 (f.print ++ after) = f.lexemes ++ Lexeme.read 0 after := by
  induction f generalizing after with
  | nil => rfl
  | text content rest ih =>
    obtain ⟨hc, hrest, hr⟩ := h
    rw [print, List.append_assoc, read_escapeText hc (head?_print hrest hafter), ih hr hafter]
    rfl
  | element label tag attributes children rest ihc ih =>
    obtain ⟨htag, _, hchildren, hrest⟩ := h
    have hclose : ∀ c ∈ (closingTag tag ++ (rest.print ++ after)).head?, c = '<' :=
      fun c hc => (Option.some.inj hc).symm
    rw [print, printElement, lexemes]
    by_cases hv : tag ∈ voidTags
    · rw [if_pos hv, if_pos hv, List.append_assoc, read_openingTag htag, ih hrest hafter,
        List.cons_append]
    · rw [if_neg hv, if_neg hv, List.append_assoc, List.append_assoc, List.append_assoc,
        read_openingTag htag, ihc hchildren hclose, read_closingTag htag.tagName, ih hrest hafter,
        List.cons_append, List.append_assoc, List.cons_append]

theorem lexemes_ofText {f : Fragment ι} (h : f.Spaced) : Lexeme.ofText f.print = f.lexemes := by
  have hnil : ∀ c ∈ ([] : List Char).head?, c = '<' := fun c hc => nomatch hc
  have hall := read_print h hnil
  rw [List.append_nil] at hall
  rw [Lexeme.ofText, hall, Lexeme.read, if_pos rfl, List.append_nil]

end Fragment

/-! ## Building on the stack -/

namespace Stack

open Fragment (openingLexeme closingLexeme textLexeme)

variable {ι : Type}

theorem add_nil (s : Stack) : s.add .nil [] = s := by
  obtain ⟨opened, row⟩ := s
  cases opened with
  | nil => exact congrArg (Stack.mk []) (Fragment.append_nil row)
  | cons l outer =>
    have hl : l.add .nil [] = l := by
      rw [Level.add, List.append_nil, Fragment.append_nil]
    exact congrArg (fun l => Stack.mk (l :: outer) row) hl

theorem add_add (s : Stack) (f g : Fragment Unit) (a b : List Char) :
    (s.add f a).add g b = s.add (f ++ g) (a ++ b) := by
  obtain ⟨opened, row⟩ := s
  cases opened with
  | nil => exact congrArg (Stack.mk []) (Fragment.append_assoc row f g)
  | cons l outer =>
    have hl : (l.add f a).add g b = l.add (f ++ g) (a ++ b) := by
      simp only [Level.add, List.append_assoc, Fragment.append_assoc]
    exact congrArg (fun l => Stack.mk (l :: outer) row) hl

theorem take_textLexeme (s : Stack) (content : String) :
    s.take (textLexeme content) = s.add (.text content .nil) (escapeText content.toList) := by
  show s.add (.text (String.ofList (decodeReferences (escapeText content.toList))) .nil) _ = _
  rw [decodeReferences_escapeText, String.ofList_toList]
  rfl

theorem close_level {tag : String} {a : Attributes} (hr : IsReadTag tag a) (hs : a.Settled tag)
    (opening inside more : List Char) (children : Fragment Unit) :
    (Level.mk tag.toList a.written opening inside children).close (openingTag tag a ++ more)
      = .element () tag a children .nil := by
  rw [Level.close, String.ofList_toList, hr.tagName.lower, Attributes.ofWritten_written hr hs]

theorem take_standalone {tag : String} {a : Attributes} (hr : IsReadTag tag a) (hs : a.Settled tag)
    (hv : tag.toList ∈ standaloneTags) (s : Stack) :
    s.take (openingLexeme tag a) = s.add (.element () tag a .nil .nil) (openingTag tag a) := by
  have hclose := close_level hr hs (openingTag tag a) [] [] .nil
  rw [List.append_nil] at hclose
  rw [Fragment.openingLexeme_of_settled hs]
  have htake : s.take ⟨.opening tag.toList a.written false, openingTag tag a⟩
      = s.add ((Level.mk tag.toList a.written (openingTag tag a) [] .nil).close (openingTag tag a))
          (openingTag tag a) := if_pos (Or.inr hv)
  rw [htake, hclose]

theorem take_opening {tag : String} {a : Attributes} (hs : a.Settled tag)
    (hv : tag.toList ∉ standaloneTags) (s : Stack) :
    s.take (openingLexeme tag a)
      = { s with opened := ⟨tag.toList, a.written, openingTag tag a, [], .nil⟩ :: s.opened } := by
  rw [Fragment.openingLexeme_of_settled hs]
  exact if_neg fun h => h.elim Bool.false_ne_true hv

theorem take_closing {tag : String} {a : Attributes} (hr : IsReadTag tag a) (hs : a.Settled tag)
    (inside : List Char) (children : Fragment Unit) (s : Stack) :
    take { s with opened := ⟨tag.toList, a.written, openingTag tag a, inside, children⟩ :: s.opened }
        (closingLexeme tag)
      = s.add (.element () tag a children .nil) (openingTag tag a ++ inside ++ closingTag tag) := by
  have hclose := close_level hr hs (openingTag tag a) inside (inside ++ closingTag tag) children
  rw [← List.append_assoc] at hclose
  rw [← hclose]
  exact if_pos rfl

/-- The innermost open element is none that the reader takes for void. -/
def Open (s : Stack) : Prop := ∀ l ∈ s.opened.head?, l.name ∉ standaloneTags

theorem Open.add {s : Stack} (h : s.Open) (nodes : Fragment Unit) (source : List Char) :
    (s.add nodes source).Open := by
  obtain ⟨opened, row⟩ := s
  cases opened with
  | nil => exact h
  | cons l outer =>
    intro l' hl'
    cases hl'
    exact h l rfl

/-- The closing tag of an element that is void for the reader closes nothing. -/
theorem Open.take_closing {s : Stack} (h : s.Open) {tag : String} (hv : tag.toList ∈ standaloneTags) :
    s.take (closingLexeme tag) = s.add .nil (closingTag tag) := by
  obtain ⟨opened, row⟩ := s
  cases opened with
  | nil => exact congrArg (Stack.mk []) (Fragment.append_nil row).symm
  | cons l outer =>
    have hne : l.name ≠ tag.toList := fun he => h l rfl (he ▸ hv)
    exact if_neg hne

/-- The lexemes of a fragment add the fragment to the innermost level. -/
theorem foldl_take_lexemes {f : Fragment ι} (h : f.Readable) {s : Stack} (ho : s.Open) :
    f.lexemes.foldl take s = s.add f.bare f.print := by
  induction h generalizing s with
  | nil => exact (add_nil s).symm
  | @text content rest _ _ _ ih =>
    rw [Fragment.lexemes, List.foldl_cons, take_textLexeme, ih (ho.add _ _), add_add]
    rfl
  | @void label tag attributes rest hr hs hv _ ih =>
    have hvoid : ∀ t ∈ voidTags, t.toList ∈ standaloneTags := by decide
    rw [Fragment.lexemes, if_pos hv, List.foldl_cons, take_standalone hr hs (hvoid tag hv),
      ih (ho.add _ _), add_add, Fragment.print, printElement, if_pos hv]
    rfl
  | @standalone label tag attributes rest hr hs hv hv' _ ih =>
    have hopened := ho.add (.element () tag attributes .nil .nil) (openingTag tag attributes)
    rw [Fragment.lexemes, if_neg hv, List.foldl_cons, take_standalone hr hs hv',
      Fragment.lexemes, List.nil_append, List.foldl_cons, hopened.take_closing hv', add_add,
      ih (ho.add _ _), add_add, Fragment.print, printElement, if_neg hv, Fragment.print,
      List.append_nil]
    rfl
  | @element label tag attributes children rest hr hs hv hv' _ _ ihc ih =>
    have hinner : Open { s with opened :=
        ⟨tag.toList, attributes.written, openingTag tag attributes, [], .nil⟩ :: s.opened } := by
      intro l hl
      cases hl
      exact hv'
    rw [Fragment.lexemes, if_neg hv, List.foldl_cons, take_opening hs hv', List.foldl_append,
      ihc hinner, List.foldl_cons, Fragment.print, printElement, if_neg hv]
    have hadd : add children.bare children.print
          { s with opened := ⟨tag.toList, attributes.written, openingTag tag attributes, [], .nil⟩ :: s.opened }
        = { s with opened := ⟨tag.toList, attributes.written, openingTag tag attributes,
              children.print, children.bare⟩ :: s.opened } := rfl
    rw [hadd, Stack.take_closing hr hs, ih (ho.add _ _), add_add]
    rfl

end Stack

namespace Fragment

variable {ι : Type}

/-- Reading what was written gives the fragment back: tags, attributes in their order with their
values, and texts. -/
theorem ofText_markup {f : Fragment ι} (h : f.Readable) : ofText f.markup = f.bare := by
  have hempty : Stack.empty.Open := fun _ hl => nomatch hl
  rw [markup_eq, ofText, String.toList_ofList, ofChars, lexemes_ofText h.spaced,
    Stack.foldl_take_lexemes h hempty]
  exact Fragment.append_nil f.bare

end Fragment

end Bindery
