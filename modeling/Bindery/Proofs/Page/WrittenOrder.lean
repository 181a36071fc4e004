import Bindery.Page.Tree
import Bindery.Proofs.Markup.Naming

/-!
# The names of a written element

The search for attribute names reads back what an element writes.  It looks for less than a reader of
tags does: a name goes up to a blank or one of `=`, `>`, `/` and may have any other character in it,
quotes and blanks beyond ASCII among them.  Each value is stepped over from the quote in front of it to
the one behind it, since an escaped value has no quote inside, and the `>` behind the last value ends
the search before it comes to a child.

* `WrittenOrder.IsTagName`           the name of a tag that is passed over as a whole
* `writtenOrder_openingTag_found`    the opening tag, whatever stands behind it
* `Page.outerMarkup_names`           a whole element
-/

namespace Bindery

namespace WrittenOrder

open Text (isAsciiBlank)

/-- The name of a tag that goes on up to what separates it from the first attribute, or ends the tag. -/
def IsTagName (tag : String) : Prop :=
  ∀ c ∈ tag.toList, isAsciiBlank c = false ∧ c ≠ '<' ∧ c ≠ '>' ∧ c ≠ '/'

instance (tag : String) : Decidable (IsTagName tag) := List.decidableBAll _ tag.toList

theorem namesFrom_found {name : String} (hn : IsFoundName name) {d : Char} (hd : endsName d = true)
    (r : List Char) : namesFrom (name.toList ++ d :: r) = name :: namesFrom (afterName (d :: r)) := by
  have hword : ∀ c ∈ name.toList, endsName c = false := fun c hc =>
    endsName_eq_false_iff.mpr (hn.chars c hc)
  rw [namesFrom_word hn.nonempty hword hd, String.ofList_toList, hn.lower]

theorem namesFrom_attribute {name : String} (hn : IsFoundName name) (value : String) (after : List Char) :
    namesFrom (printAttribute name value ++ after) = name :: namesFrom after := by
  have hshape : printAttribute name value ++ after
      = ' ' :: (name.toList ++ '=' :: ('"' :: escapeValue value.toList ++ '"' :: after)) := by
    simp only [printAttribute, List.cons_append, List.append_assoc, List.nil_append]
  have hblank : ∀ s, namesFrom (' ' :: s) = namesFrom s := fun s => namesFrom_congr rfl
  have hvalue : afterName ('=' :: ('"' :: escapeValue value.toList ++ '"' :: after)) = after :=
    afterName_quoted (quote_not_mem_escapeValue _) after
  rw [hshape, hblank, namesFrom_found hn (by decide), hvalue]

theorem namesFrom_attributes {a : Attributes} (ha : ∀ n ∈ a.names, IsFoundName n) (after : List Char) :
    namesFrom (a.print ++ '>' :: after) = a.names := by
  obtain ⟨entries⟩ := a
  induction entries with
  | nil => exact namesFrom_end after
  | cons e r ih =>
    obtain ⟨n, value⟩ := e
    have hr : namesFrom (Attributes.print ⟨r⟩ ++ '>' :: after) = Attributes.names ⟨r⟩ :=
      ih fun m hm => ha m (List.mem_cons_of_mem n hm)
    have hshape : Attributes.print ⟨(n, value) :: r⟩ ++ '>' :: after
        = printAttribute n value ++ (Attributes.print ⟨r⟩ ++ '>' :: after) := by
      rw [← List.append_assoc]
      rfl
    rw [hshape, namesFrom_attribute (ha n List.mem_cons_self), hr]
    rfl

end WrittenOrder

open WrittenOrder (IsFoundName IsTagName namesFrom_attributes)

/-- The name of the tag is passed over up to the first attribute, or to the end of the tag. -/
theorem writtenOrder_openingTag_found {tag : String} (ht : IsTagName tag) {a : Attributes}
    (ha : ∀ n ∈ a.names, IsFoundName n) (after : List Char) :
    writtenOrder (openingTag tag a ++ after) = a.names := by
  have hshape : openingTag tag a ++ after = '<' :: (tag.toList ++ (a.print ++ '>' :: after)) := by
    simp only [openingTag, List.cons_append, List.append_assoc, List.nil_append]
  obtain ⟨d, r, hrest, hd⟩ := Token.exists_print_eq a after
  have hopen : ('<' :: (tag.toList ++ d :: r)).dropWhile (· = '<') = tag.toList ++ d :: r := by
    rw [List.dropWhile_cons_of_pos (by decide)]
    cases htag : tag.toList with
    | nil => rcases hd with rfl | rfl <;> rfl
    | cons c s =>
      have hc : c ≠ '<' := (ht c (htag ▸ List.mem_cons_self)).2.1
      rw [List.cons_append, List.dropWhile_cons_of_neg (by simpa using hc)]
  have hin : ∀ c ∈ tag.toList, (!(Text.isAsciiBlank c || c == '>' || c == '/')) = true := by
    intro c hc
    obtain ⟨hblank, _, hend, hslash⟩ := ht c hc
    simp [hblank, hend, hslash]
  have hstop : (!(Text.isAsciiBlank d || d == '>' || d == '/')) = false := by
    rcases hd with rfl | rfl <;> decide
  rw [hshape, hrest, writtenOrder, hopen, Text.dropWhile_append_stop hin hstop, ← hrest,
    namesFrom_attributes ha]

namespace Page

variable {κ σ : Type} {p : Page κ σ} {e : ElementId} {d : PageElement κ}

theorem exists_outerMarkup_eq (hd : p.element? e = some d) :
    ∃ after, (p.outerMarkup e).toList = openingTag d.tag d.attributes ++ after := by
  rw [outerMarkup_eq, String.toList_ofList, outer, hd]
  dsimp only [Fragment.print, printElement]
  split
  · exact ⟨_, rfl⟩
  · exact ⟨_, by rw [List.append_assoc, List.append_assoc]⟩

/-- The names found in an element's writing are those of its attributes in their order, whatever their
values are and whatever is inside the element. -/
theorem outerMarkup_names (hd : p.element? e = some d) (htag : IsTagName d.tag)
    (hnames : ∀ n ∈ d.attributes.names, IsFoundName n) :
    writtenOrder (p.outerMarkup e).toList = d.attributes.names := by
  obtain ⟨after, hafter⟩ := exists_outerMarkup_eq hd
  rw [hafter, writtenOrder_openingTag_found htag hnames]

/-- Quotes, a blank beyond ASCII and a name met twice, with values that look like tags. -/
def oddElement : PageElement Unit where
  tag := "a=\"b"
  attributes := ⟨[("'x", "c d='e' / f>"), ("y\u00a0\"", "<g h=\"i\">\n"), ("&lt;", ""), ("'x", "=")]⟩
  children := [.text " j=k>", .element ⟨1⟩]

def oddPage : Page Unit Unit where
  elements := #[oddElement, { tag := "", attributes := ⟨[("l m", "\"")]⟩ }]
  host := ()

theorem odd_names_found :
    oddPage.element? ⟨0⟩ = some oddElement ∧ IsTagName oddElement.tag ∧
    (∀ n ∈ oddElement.attributes.names, IsFoundName n) ∧
    writtenOrder (oddPage.outerMarkup ⟨0⟩).toList = ["'x", "y\u00a0\"", "&lt;", "'x"] := by
  have htag : IsTagName oddElement.tag := by decide
  have hnames : ∀ n ∈ oddElement.attributes.names, IsFoundName n := by decide
  exact ⟨rfl, htag, hnames, outerMarkup_names (p := oddPage) (e := ⟨0⟩) rfl htag hnames⟩

end Page

end Bindery
