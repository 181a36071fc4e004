import Bindery.Proofs.Markup.Begun
import Bindery.Proofs.Markup.Settling

/-!
# What comes back unchanged was settled

Two fragments with the same writing differ at most in the texts that stand side by side and in what void
elements hold.  So if what is read from the writing of a fragment is written in the same way, each tag
was read as it was written, and no element that is void for the reader held anything.

* `openingTag_injective`      a written tag says what it was written from
* `eq_of_lexemes`             and so do the lexemes of a fragment
* `descendants_ofChars`       the elements that are read, in the order of their opening tags
* `settled_of_markup`         a fragment that comes back as it was written
* `markup_ofText_markup_iff`  the two together
-/

namespace Bindery

open Token (isNameChar)

theorem isReadName_empty : IsReadName "" where
  chars _ hc := nomatch hc
  head _ hc := nomatch hc
  lower := rfl

theorem IsReadTag.isReadName_nameRead {tag : String} {a : Attributes} (h : IsReadTag tag a) :
    IsReadName (a.nameRead tag) := by
  unfold Attributes.nameRead
  split
  · cases hn : a.names.head? with
    | none => exact isReadName_empty
    | some n => exact h.names n (List.mem_of_mem_head? hn)
  · exact h.tagName

/-! ## Writing tells fragments apart -/

namespace Attributes

theorem written_injective {a b : Attributes} (h : a.written = b.written) : a = b := by
  have hpair : Function.Injective fun e : String × String =>
      (⟨e.1.toList, some (escapeValue e.2.toList)⟩ : WrittenAttribute) := by
    intro x y hxy
    obtain ⟨hname, hvalue⟩ := WrittenAttribute.mk.inj hxy
    have hv := congrArg decodeReferences (Option.some.inj hvalue)
    rw [decodeReferences_escapeValue, decodeReferences_escapeValue] at hv
    exact Prod.ext (String.toList_injective hname) (String.toList_injective hv)
  obtain ⟨x⟩ := a
  obtain ⟨y⟩ := b
  exact congrArg Attributes.mk (hpair.list_map h)

end Attributes

theorem openingTag_injective {s t : String} {a b : Attributes} (hs : IsReadTag s a)
    (ht : IsReadTag t b) (h : openingTag s a = openingTag t b) : s = t ∧ a = b := by
  have hshape : ∀ (tag : String) (a : Attributes),
      openingTag tag a = '<' :: (tag.toList ++ (a.print ++ '>' :: [])) := by
    intro tag a
    simp only [openingTag, List.cons_append, List.append_assoc]
  have htag : ∀ {tag : String} {a : Attributes}, IsReadTag tag a →
      (tag.toList ++ (a.print ++ '>' :: [])).takeWhile isNameChar = tag.toList := by
    intro tag a hr
    obtain ⟨d, r, hrest, hd⟩ := Token.exists_print_eq a []
    have hstop : isNameChar d = false := by rcases hd with rfl | rfl <;> decide
    rw [hrest, hr.tagName.toIsNameRun.takeWhile hstop]
  rw [hshape, hshape, List.cons.injEq] at h
  have hname := congrArg (List.takeWhile isNameChar) h.2
  rw [htag hs, htag ht] at hname
  have hrest := h.2
  rw [hname, List.append_cancel_left_eq] at hrest
  have hread := congrArg Token.splitAttributes hrest
  rw [Token.splitAttributes_print hs.nameRun, Token.splitAttributes_print ht.nameRun] at hread
  have hwritten : a.written = b.written := congrArg Prod.fst (Option.some.inj hread)
  exact ⟨String.toList_injective hname, Attributes.written_injective hwritten⟩

namespace Fragment

theorem textLexeme_injective {s t : String} (h : textLexeme s = textLexeme t) : s = t := by
  have hsource := congrArg decodeReferences (congrArg Lexeme.source h)
  have hback : ∀ u : String, decodeReferences (textLexeme u).source = u.toList :=
    fun u => decodeReferences_escapeText u.toList
  rw [hback, hback] at hsource
  exact String.toList_injective hsource

theorem lexemes_element_append {ι : Type} (label : ι) (tag : String) (a : Attributes)
    (children rest : Fragment ι) (r : List Lexeme) :
    (element label tag a children rest).lexemes ++ r = openingLexeme tag a ::
      if tag ∈ voidTags then rest.lexemes ++ r
      else children.lexemes ++ closingLexeme tag :: (rest.lexemes ++ r) := by
  rw [lexemes]
  split
  · rfl
  · rw [List.cons_append, List.append_assoc, List.cons_append]

/-- A row of lexemes that adds nothing to the level on which it begins. -/
def Ends (l : List Lexeme) : Prop := ∀ x ∈ l.head?, ∃ name, x.token = .closing name

theorem ends_closing (tag : String) (l : List Lexeme) : Ends (closingLexeme tag :: l) := by
  intro x hx
  obtain rfl := Option.some.inj hx
  exact ⟨tag.toList, rfl⟩

theorem not_ends_text (content : String) (l : List Lexeme) : ¬ Ends (textLexeme content :: l) := by
  intro h
  obtain ⟨name, hname⟩ := h _ rfl
  cases hname

theorem not_ends_opening (tag : String) (a : Attributes) (l : List Lexeme) :
    ¬ Ends (openingLexeme tag a :: l) := by
  intro h
  obtain ⟨name, hname⟩ := h _ rfl
  cases hname

/-- The lexemes of a fragment say what it is, whatever stands behind its end. -/
theorem eq_of_lexemes {f g : Fragment Unit} (hf : f.Spaced) (hg : g.Spaced) {r t : List Lexeme}
    (hr : Ends r) (ht : Ends t) (h : f.lexemes ++ r = g.lexemes ++ t) : f = g ∧ r = t := by
  induction f generalizing g r t with
  | nil =>
    replace h : r = g.lexemes ++ t := h
    subst h
    cases g with
    | nil => exact ⟨rfl, rfl⟩
    | text content rest => exact absurd hr (not_ends_text content _)
    | element label tag a children rest =>
      rw [lexemes_element_append] at hr
      exact absurd hr (not_ends_opening tag a _)
  | text content rest ih =>
    cases g with
    | nil =>
      replace h : textLexeme content :: (rest.lexemes ++ r) = t := h
      exact absurd (h ▸ ht) (not_ends_text content _)
    | text content' rest' =>
      obtain ⟨hx, hrest⟩ := List.cons.inj h
      obtain rfl := textLexeme_injective hx
      obtain ⟨rfl, rfl⟩ := ih hf.2.2 hg.2.2 hr ht hrest
      exact ⟨rfl, rfl⟩
    | element label tag a children rest' =>
      rw [lexemes_element_append] at h
      cases congrArg Lexeme.token (List.cons.inj h).1
  | element label tag a children rest ihc ih =>
    rw [lexemes_element_append] at h
    cases g with
    | nil =>
      replace h : _ = t := h
      exact absurd (h ▸ ht) (not_ends_opening tag a _)
    | text content rest' => cases congrArg Lexeme.token (List.cons.inj h).1
    | element label' tag' a' children' rest' =>
      rw [lexemes_element_append] at h
      obtain ⟨hx, hinside⟩ := List.cons.inj h
      obtain ⟨rfl, rfl⟩ := openingTag_injective hf.1 hg.1 (congrArg Lexeme.source hx)
      by_cases hv : tag ∈ voidTags
      · rw [if_pos hv, if_pos hv] at hinside
        obtain ⟨rfl, rfl⟩ := ih hf.2.2.2 hg.2.2.2 hr ht hinside
        rw [hf.2.1 hv, hg.2.1 hv]
        exact ⟨rfl, rfl⟩
      · rw [if_neg hv, if_neg hv] at hinside
        obtain ⟨rfl, hbehind⟩ :=
          ihc hf.2.2.1 hg.2.2.1 (ends_closing tag _) (ends_closing tag _) hinside
        obtain ⟨rfl, rfl⟩ := ih hf.2.2.2 hg.2.2.2 hr ht (List.cons.inj hbehind).2
        exact ⟨rfl, rfl⟩

/-- Fragments that are written in the same way are the same, once texts stand apart. -/
theorem eq_of_print {f g : Fragment Unit} (hf : f.Spaced) (hg : g.Spaced)
    (h : f.print = g.print) : f = g := by
  have hread : f.lexemes ++ [] = g.lexemes ++ [] := by
    rw [← lexemes_ofText hf, ← lexemes_ofText hg, h]
  have hends : Ends [] := fun x hx => nomatch hx
  exact (eq_of_lexemes hf hg hends hends hread).1

theorem Spaced.behind {f : Fragment Unit} (h : f.Spaced) {content : String} (hc : content ≠ "") :
    (behind content f).Spaced := by
  cases f with
  | nil => exact ⟨hc, rfl, trivial⟩
  | text other rest =>
    exact ⟨fun he => hc (String.append_eq_empty_iff.mp he).1, h.2.1, h.2.2⟩
  | element label tag a children rest => exact ⟨hc, rfl, h⟩

theorem spaced_joined {f : Fragment Unit} (h : f.Scanned) : f.joined.Spaced := by
  induction f with
  | nil => trivial
  | text content rest ih => exact (ih h.2).behind h.1
  | element label tag a children rest ihc ih =>
    refine ⟨h.1, fun hv => if_pos hv, ?_, ih h.2.2⟩
    split
    · trivial
    · exact ihc h.2.1

end Fragment

/-! ## The elements that are read -/

/-- The element that begins with a lexeme, if its attributes stand in the order of that lexeme alone. -/
def Lexeme.element? (x : Lexeme) : Option (Element Unit) :=
  match x.token with
  | .opening name attributes _ =>
    some ⟨(), Text.lower (String.ofList name), Attributes.ofWritten attributes x.source⟩
  | _ => none

/-- What stands behind the tag is not searched for names. -/
def Lexeme.Definite (x : Lexeme) : Prop :=
  x.element?.isSome → ∀ more, writtenOrder (x.source ++ more) = writtenOrder x.source

theorem Opening.Begins.element?_eq {o : Opening} {e : Element Unit} (h : o.Begins e)
    (ho : o.lexeme.Definite) : o.lexeme.element? = some e := by
  obtain ⟨name, attributes, selfClosing, more, htoken, -, rfl⟩ := h
  have hsome : o.lexeme.element? = some ⟨(), Text.lower (String.ofList name),
      Attributes.ofWritten attributes o.lexeme.source⟩ := by
    unfold Lexeme.element?
    rw [htoken]
  have horder := ho (Option.isSome_of_eq_some hsome) more
  rw [hsome, Attributes.ofWritten, Attributes.ofWritten, horder]

theorem Lexeme.filterMap_openings (lexemes : List Lexeme) :
    (openings lexemes).filterMap (fun o => o.lexeme.element?) = lexemes.filterMap element? := by
  induction lexemes with
  | nil => rfl
  | cons x r ih =>
    obtain ⟨token, source⟩ := x
    cases token with
    | opening name attributes selfClosing => exact congrArg (List.cons _) ih
    | text content => exact ih
    | closing name => exact ih
    | skipped => exact ih

namespace Fragment

theorem descendants_ofChars {s : List Char} (h : ∀ x ∈ Lexeme.ofText s, x.Definite) :
    (ofChars s).descendants = (Lexeme.ofText s).filterMap Lexeme.element? := by
  have hall : ∀ {xs : List Opening} {elements : List (Element Unit)},
      List.Forall₂ Opening.Begins xs elements → (∀ o ∈ xs, o.lexeme.Definite) →
      elements = xs.filterMap fun o => o.lexeme.element? := by
    intro xs elements hbegins hdefinite
    induction hbegins with
    | nil => rfl
    | @cons o e xs elements ho _ ih =>
      have hfirst := ho.element?_eq (hdefinite o List.mem_cons_self)
      rw [List.filterMap_cons_some (f := fun o : Opening => o.lexeme.element?) hfirst,
        ← ih fun o ho => hdefinite o (List.mem_cons_of_mem _ ho)]
  rw [← Lexeme.filterMap_openings]
  exact hall (begins_ofChars s) fun o ho => h o.lexeme (Lexeme.mem_of_mem_openings ho).1

def reread (x : Element Unit) : Element Unit :=
  ⟨(), Text.lower (x.attributes.nameRead x.tag),
    Attributes.ofWritten (x.attributes.attributesRead x.tag) (openingTag x.tag x.attributes)⟩

theorem definite_openingLexeme {tag : String} {a : Attributes} (h : IsReadTag tag a) :
    (openingLexeme tag a).Definite := by
  intro _ more
  have hrun := h.tagName.toIsNameRun
  have hbare := writtenOrder_openingTag hrun h.nameRun []
  rw [List.append_nil] at hbare
  exact (writtenOrder_openingTag hrun h.nameRun more).trans hbare.symm

/-- A lexeme of a fragment begins an element only if it is its opening tag. -/
theorem exists_of_mem_lexemes {f : Fragment Unit} (h : f.Spaced) {x : Lexeme} (hx : x ∈ f.lexemes) :
    x.element? = none ∨ ∃ tag a, IsReadTag tag a ∧ x = openingLexeme tag a := by
  induction f with
  | nil => cases hx
  | text content rest ih =>
    rcases List.mem_cons.mp hx with rfl | hx
    · exact Or.inl rfl
    · exact ih h.2.2 hx
  | element label tag a children rest ihc ih =>
    have hall : x = openingLexeme tag a ∨ x ∈ children.lexemes ∨ x = closingLexeme tag ∨
        x ∈ rest.lexemes := by
      rw [lexemes] at hx
      split at hx
      · rcases List.mem_cons.mp hx with hx | hx
        · exact Or.inl hx
        · exact Or.inr (Or.inr (Or.inr hx))
      · simpa using hx
    rcases hall with rfl | hx | rfl | hx
    · exact Or.inr ⟨tag, a, h.1, rfl⟩
    · exact ihc h.2.2.1 hx
    · exact Or.inl rfl
    · exact ih h.2.2.2 hx

theorem definite_lexemes {f : Fragment Unit} (h : f.Spaced) : ∀ x ∈ f.lexemes, x.Definite := by
  intro x hx hsome
  rcases exists_of_mem_lexemes h hx with hnone | ⟨tag, a, hr, rfl⟩
  · rw [hnone] at hsome
    cases hsome
  · exact definite_openingLexeme hr hsome

theorem filterMap_lexemes {f : Fragment Unit} (h : f.Spaced) :
    f.lexemes.filterMap Lexeme.element? = f.descendants.map reread := by
  induction f with
  | nil => rfl
  | text content rest ih => exact ih h.2.2
  | element label tag a children rest ihc ih =>
    have hopening : Lexeme.element? (openingLexeme tag a) = some (reread ⟨label, tag, a⟩) := by
      simp [Lexeme.element?, openingLexeme, reread]
    have hclosing : Lexeme.element? (closingLexeme tag) = none := rfl
    rw [lexemes, descendants]
    split
    · rename_i hv
      have hnone : children = nil := h.2.1 hv
      simp [hopening, ih h.2.2.2, hnone, descendants]
    · simp [hopening, hclosing, ih h.2.2.2, ihc h.2.2.1]

theorem settled_of_reread {tag : String} {a : Attributes} (hr : IsReadTag tag a)
    (h : reread ⟨(), tag, a⟩ = ⟨(), tag, a⟩) : a.Settled tag := by
  obtain ⟨_, hname, hattributes⟩ := Element.mk.inj h
  rw [(hr.isReadName_nameRead).lower] at hname
  have hunnamed : tag = "" → ∀ n ∈ a.names.head?, n = "" := by
    intro htag n hn
    rw [Attributes.nameRead, if_pos htag, Option.mem_def.mp hn] at hname
    exact hname.trans htag
  rw [(Attributes.read_of_unnamed hunnamed).2] at hattributes
  have horder := Attributes.ofWritten_eq_self_iff hr []
  rw [List.append_nil] at horder
  obtain ⟨hplain, hunmoved⟩ := horder.mp hattributes
  exact ⟨hunnamed, hplain, hunmoved⟩

/-! ## Elements that are void for the reader -/

/-- The elements that are void for the reader have no children. -/
def Childless : Fragment Unit → Prop :=
  Every (fun tag _ children => tag.toList ∈ standaloneTags → children = nil) fun _ => True

/-- What is read from a written fragment opens no element that is void for the reader. -/
theorem childless_ofChars {f : Fragment Unit} (hf : f.Spaced) : (ofChars f.print).Childless := by
  refine every_ofChars fun x hx => ⟨fun _ => trivial, fun {name attributes selfClosing} ht => ?_⟩
  intro source children hopen hv
  rw [lexemes_ofText hf] at hx
  rcases exists_of_mem_lexemes hf hx with hnone | ⟨tag, a, hr, rfl⟩
  · simp [Lexeme.element?, ht] at hnone
  · obtain ⟨rfl, _, _⟩ := Token.opening.inj ht
    apply hopen
    rwa [String.ofList_toList, hr.isReadName_nameRead.lower] at hv

theorem childless_behind (content : String) (f : Fragment Unit) :
    (behind content f).Childless ↔ f.Childless := by
  cases f with
  | nil => exact ⟨fun _ => trivial, fun _ => ⟨trivial, trivial⟩⟩
  | text other rest => exact Iff.rfl
  | element label tag a children rest => exact ⟨fun h => h.2, fun h => ⟨trivial, h⟩⟩

theorem descendants_behind (content : String) (f : Fragment Unit) :
    (behind content f).descendants = f.descendants := by
  cases f <;> rfl

theorem joined_eq_nil {f : Fragment Unit} (h : f.joined = nil) : f = nil := by
  cases f with
  | nil => rfl
  | text content rest =>
    rw [joined] at h
    cases hrest : rest.joined <;> rw [hrest] at h <;> cases h
  | element label tag a children rest => cases h

theorem Childless.joined {f : Fragment Unit} (h : f.Childless) :
    f.joined.Childless ∧ f.joined.descendants = f.descendants := by
  induction f with
  | nil => exact ⟨trivial, rfl⟩
  | text content rest ih =>
    obtain ⟨hchildless, hsame⟩ := ih h.2
    exact ⟨(childless_behind _ _).mpr hchildless, (descendants_behind _ _).trans hsame⟩
  | element label tag a children rest ihc ih =>
    obtain ⟨hempty, hchildren, hrest⟩ := h
    have hvoid : ∀ t ∈ voidTags, t.toList ∈ standaloneTags := by decide
    obtain ⟨hchildren, hinside⟩ := ihc hchildren
    obtain ⟨hrest, hbehind⟩ := ih hrest
    rw [Fragment.joined, descendants, descendants, hbehind]
    by_cases hv : tag ∈ voidTags
    · rw [if_pos hv, hempty (hvoid tag hv)]
      exact ⟨⟨fun _ => rfl, trivial, hrest⟩, rfl⟩
    · rw [if_neg hv, hinside]
      refine ⟨⟨fun hv' => ?_, hchildren, hrest⟩, rfl⟩
      rw [hempty hv']
      rfl

theorem settled_of_joined {f : Fragment Unit} (h : f.joined.Childless)
    (hs : ∀ x ∈ f.joined.descendants, x.attributes.Settled x.tag) : f.Settled := by
  induction f with
  | nil => trivial
  | text content rest ih =>
    rw [joined, descendants_behind] at hs
    exact ih ((childless_behind _ _).mp h) hs
  | element label tag a children rest ihc ih =>
    obtain ⟨hempty, hchildren, hrest⟩ := h
    rw [joined, descendants] at hs
    refine ⟨hs _ List.mem_cons_self, fun hv => ?_,
      ih hrest fun x hx => hs x (List.mem_cons_of_mem _ (List.mem_append_right _ hx))⟩
    rw [if_neg hv] at hs hempty hchildren
    exact ⟨fun hv' => joined_eq_nil (hempty hv'),
      ihc hchildren fun x hx => hs x (List.mem_cons_of_mem _ (List.mem_append_left _ hx))⟩

theorem Spaced.isReadTag {f : Fragment Unit} (h : f.Spaced) :
    ∀ x ∈ f.descendants, IsReadTag x.tag x.attributes := by
  induction f with
  | nil => exact fun x hx => nomatch hx
  | text content rest ih => exact ih h.2.2
  | element label tag a children rest ihc ih =>
    intro x hx
    rcases List.mem_cons.mp hx with rfl | hx
    · exact h.1
    · rcases List.mem_append.mp hx with hx | hx
      · exact ihc h.2.2.1 x hx
      · exact ih h.2.2.2 x hx

theorem settled_of_markup {f : Fragment Unit} (hf : f.Scanned)
    (h : (ofText f.markup).markup = f.markup) : f.Settled := by
  have hspaced := spaced_joined hf
  have hback : ofText f.markup = ofChars f.joined.print := by
    rw [ofText, markup_eq, String.toList_ofList, print_joined]
  -- The fragment that comes back is written in the same way, so joined they are the same.
  have hsame : (ofText f.markup).joined = f.joined := by
    refine eq_of_print (spaced_joined (scanned_ofText f.markup)) hspaced ?_
    have hprint : String.ofList (ofText f.markup).print = String.ofList f.print := by
      rw [← markup_eq, ← markup_eq, h]
    rw [print_joined, print_joined]
    exact String.ofList_injective hprint
  obtain ⟨hchildless, hdescendants⟩ := (hback ▸ childless_ofChars hspaced).joined
  rw [hsame] at hchildless hdescendants
  have hread : f.joined.descendants = f.joined.descendants.map reread := by
    have hdefinite : ∀ x ∈ Lexeme.ofText f.joined.print, x.Definite :=
      lexemes_ofText hspaced ▸ definite_lexemes hspaced
    rw [← filterMap_lexemes hspaced, ← lexemes_ofText hspaced, ← descendants_ofChars hdefinite, ← hback,
      hdescendants]
  refine settled_of_joined hchildless fun x hx => ?_
  have hx' : reread x = x := by
    have hmap : f.joined.descendants.map reread = f.joined.descendants.map id := by
      rw [← hread, List.map_id]
    exact List.map_inj_left.mp hmap x hx
  exact settled_of_reread (hspaced.isReadTag x hx) hx'

/-- What is read from a text is written in the same way after it was read back if it is settled, and
only then. -/
theorem markup_ofText_markup_iff {f : Fragment Unit} (hf : f.Scanned) :
    (ofText f.markup).markup = f.markup ↔ f.Settled :=
  ⟨settled_of_markup hf, markup_ofText_markup hf⟩

end Fragment

end Bindery
