import Bindery.Proofs.Markup.Agreeing
import Bindery.Proofs.Markup.Begun
import Bindery.Proofs.Page.Query
import Bindery.Proofs.Page.RoundTrip

/-!
# The attributes of elements made from markup

Markup makes one element of each opening tag, in the order of the tags.  Its attributes are those that
the reader meets in the tag.  They stand in the order in which it meets them if no attribute is put in a
later place than one that is met after it, and only then; a plainly written tag is such a tag.

* `Page.BegunBy`                 an opening tag of the markup and its element on the page
* `begunBy_setMarkup`            the elements that markup makes
* `attributes_stand_as_met_iff`  the order of their attributes
* `slashed_name_stands_last`     a tag in which it is another one
-/

namespace Bindery.Page

open Attributes (met place resolve ofWritten Unhashed)
open Token (Blanks)

variable {κ σ : Type} {p : Page κ σ} {e : ElementId} {d : PageElement κ}

/-- The element `c` has the tag of an opening tag with the attributes `l`, and the attributes `a`.  Their
order is looked for in the characters `raw`, which begin with the tag and may go on behind it. -/
def BegunBy (q : Page κ σ) (c : ElementId) (o : Opening) (l : List WrittenAttribute) (raw : List Char)
    (a : Attributes) : Prop :=
  (∃ name selfClosing, o.lexeme.token = .opening name l selfClosing ∧
    ∃ el, q.element? c = some el ∧ el.tag = Text.lower (String.ofList name) ∧ el.attributes = a) ∧
  o.lexeme.source <+: raw ∧ raw <+: o.lexeme.source ++ o.behind

theorem begunBy_setMarkup (hd : p.element? e = some d) (markup : String) :
    List.Forall₂ (fun o c => ∃ l raw, (p.setMarkup e markup).BegunBy c o l raw (ofWritten l raw))
      (Lexeme.openings (Lexeme.ofText markup.toList))
      (((p.setMarkup e markup).inner e).descendants.map Element.label) := by
  have hbegins := Fragment.begins_ofChars markup.toList
  have hbare : ((p.setMarkup e markup).inner e).bare = Fragment.ofChars markup.toList :=
    inner_bare hd markup
  rw [← hbare, Fragment.descendants_bare, List.forall₂_map_right_iff, List.forall₂_iff_zip] at hbegins
  obtain ⟨hlength, hpair⟩ := hbegins
  rw [List.forall₂_map_right_iff, List.forall₂_iff_zip]
  refine ⟨hlength, fun {o x} hox => ?_⟩
  obtain ⟨name, l, selfClosing, more, htoken, hmore, hx⟩ := hpair hox
  obtain ⟨el, hel, htag, hattributes⟩ := element?_of_mem_inner x (List.of_mem_zip hox).2
  obtain ⟨-, htag', hattributes'⟩ := Element.mk.inj hx
  exact ⟨l, o.lexeme.source ++ more,
    ⟨name, selfClosing, htoken, el, hel, htag ▸ htag', hattributes ▸ hattributes'⟩,
    List.prefix_append _ _, (List.prefix_append_right_inj _).mpr hmore⟩

/-- Each opening tag of markup gives the element that it makes the attributes that the reader meets in
it, if no two have the same name.  They stand in the order in which they are met if no attribute has a
later place than one that is met after it, and only then.  In a plainly written tag the reader meets the
attributes that are written, and they stand in the order of the tag in whatever order the reader keeps
them. -/
theorem attributes_stand_as_met_iff (hd : p.element? e = some d) (markup : String) :
    List.Forall₂ (fun o c => ∃ l raw a, (p.setMarkup e markup).BegunBy c o l raw a ∧
        ((l.map WrittenAttribute.key).Nodup →
          a.entries.Perm ((met l).map resolve) ∧
          (a.names = (met l).map WrittenAttribute.key ↔ (met l).Pairwise fun v w =>
            place (writtenOrder raw) v ≤ place (writtenOrder raw) w)) ∧
        ∀ tag own, PlainTag o.lexeme.source tag own → own = l ∧
          ((own.map WrittenAttribute.key).Nodup →
            Unhashed own raw ∧ a.entries = (met own).map resolve))
      (Lexeme.openings (Lexeme.ofText markup.toList))
      (((p.setMarkup e markup).inner e).descendants.map Element.label) := by
  have hbegun := begunBy_setMarkup hd markup
  rw [List.forall₂_iff_zip] at hbegun ⊢
  refine ⟨hbegun.1, fun {o c} hoc => ?_⟩
  obtain ⟨l, raw, hone⟩ := hbegun.2 hoc
  refine ⟨l, raw, ofWritten l raw, hone, fun hn => ?_, fun tag own hplain => ?_⟩
  · exact ⟨Attributes.perm_entries hn raw, Attributes.names_eq_met_iff hn raw⟩
  · obtain ⟨⟨name, selfClosing, htoken, -⟩, ⟨more, rfl⟩, -⟩ := hone
    have hmem := (Lexeme.mem_of_mem_openings (List.of_mem_zip hoc).1).1
    obtain ⟨selfClosing', htoken'⟩ := hplain.token hmem
    obtain ⟨-, rfl, -⟩ := Token.opening.inj (htoken'.symm.trans htoken)
    have hfound := hplain.writtenOrder more
    refine ⟨rfl, fun hn => ⟨Attributes.unhashed_of_found hn hfound, ?_⟩⟩
    rw [Attributes.ofWritten_eq, Attributes.ofEnumerated_of_found hn hfound (.refl _)]

theorem plainTag_paragraph : PlainTag "<p id=1 Class=\"c\">".toList ['p']
    [⟨"id".toList, some ['1']⟩, ⟨"Class".toList, some ['c']⟩] := by
  have hclose : Token.Plain ['>'] [] := @Token.Plain.close [] _ (by decide) (by decide)
  have hquoted := @Token.Assigned.quoted ['>'] [] [] ['c'] '"' (by decide) (by decide) (by decide) (by decide)
  have hclass := Token.Plain.entry (by decide : Blanks [])
    (by decide : Token.IsWhole "Class".toList) hquoted hclose
  have hbare := @Token.Assigned.bare ("Class".toList ++ "=\"c\">".toList) [] [] ['1'] ' ' (by decide)
    (by decide) (by decide) (by decide) (by decide)
  have hid := Token.Plain.entry (by decide : Blanks [' ']) (by decide : Token.IsWhole "id".toList)
    hbare hclass
  exact ⟨' ', _, by decide +kernel, by decide, by decide, hid⟩

theorem paragraph_stands_as_met :
    emptyPage.element? ⟨0⟩ = some { tag := "div" } ∧
    ∃ el, (emptyPage.setMarkup ⟨0⟩ "<p id=1 Class=\"c\">d</p>").element? ⟨1⟩ = some el ∧
      el.attributes.entries = [("id", "1"), ("class", "c")] := by
  have hd : emptyPage.element? ⟨0⟩ = some { tag := "div" } := rfl
  have hopenings : Lexeme.openings (Lexeme.ofText "<p id=1 Class=\"c\">d</p>".toList)
      = [⟨⟨.opening ['p'] [⟨"id".toList, some ['1']⟩, ⟨"Class".toList, some ['c']⟩] false,
          "<p id=1 Class=\"c\">".toList⟩, "d</p>".toList⟩] := by decide +kernel
  have hlabels : ((emptyPage.setMarkup ⟨0⟩ "<p id=1 Class=\"c\">d</p>").inner
      ⟨0⟩).descendants.map Element.label = [⟨1⟩] := by decide +kernel
  have hall := attributes_stand_as_met_iff hd "<p id=1 Class=\"c\">d</p>"
  rw [hopenings, hlabels] at hall
  obtain ⟨l, raw, a, ⟨⟨name, selfClosing, -, el, hel, -, rfl⟩, -⟩, -, hplain⟩ :=
    (List.forall₂_cons.mp hall).1
  obtain ⟨-, hown⟩ := hplain _ _ plainTag_paragraph
  refine ⟨hd, el, hel, ?_⟩
  rw [(hown (by decide +kernel)).2]
  decide +kernel

/-- The attributes that the reader meets in `<p a/b="1" id="2">`. -/
def slashedAttributes : List WrittenAttribute :=
  [⟨"a/b".toList, some ['1']⟩, ⟨"id".toList, some ['2']⟩]

/-- No name is found for an attribute with a `/` in its name, and it stands behind one that is met later.
The tag has no other attribute that is kept without an order. -/
theorem slashed_name_stands_last :
    Lexeme.openings (Lexeme.ofText "<p a/b=\"1\" id=\"2\"></p>".toList)
      = [⟨⟨.opening ['p'] slashedAttributes false, "<p a/b=\"1\" id=\"2\">".toList⟩, "</p>".toList⟩] ∧
    (slashedAttributes.map WrittenAttribute.key).Nodup ∧ (∀ raw, Unhashed slashedAttributes raw) ∧
    (met slashedAttributes).map WrittenAttribute.key = ["a/b", "id"] ∧
    ((emptyPage.setMarkup ⟨0⟩ "<p a/b=\"1\" id=\"2\"></p>").element? ⟨1⟩).map (·.attributes.names)
      = some ["id", "a/b"] :=
  ⟨by decide +kernel, by decide +kernel, Attributes.unhashed_of_length_le_one (by decide +kernel),
    by decide +kernel, by decide +kernel⟩

end Bindery.Page
