import Mathlib.Logic.Function.Iterate
import Bindery.Proofs.Markup.Unsettled
import Bindery.Proofs.Page.RoundTrip

/-!
# Markup stored and loaded again

The inner markup of an element is put into it again, any number of times.  The first time the markup may
come from anywhere; from then on it is the page's own writing.  It stays as it is if what was read the
first time is settled, and otherwise it changes at once.

* `reload`                       the inner markup of an element put into it again
* `innerMarkup_setMarkup`        the markup of an element that was given markup
* `innerMarkup_settles`          settled markup stays, and no other
-/

namespace Bindery.Page

variable {κ σ : Type} {p q : Page κ σ} {e c : ElementId} {d d' : PageElement κ}

/-- The page with the inner markup of an element put into the element again. -/
def reload (e : ElementId) (p : Page κ σ) : Page κ σ := p.setMarkup e (p.innerMarkup e)

theorem innerMarkup_setMarkup (hd : p.element? e = some d) (markup : String) :
    (p.setMarkup e markup).innerMarkup e = (Fragment.ofText markup).markup := by
  rw [innerMarkup_eq, ← Fragment.print_bare, inner_bare hd, Fragment.markup_eq]

theorem innerMarkup_of_settled (hd : p.element? e = some d) {markup : String}
    (h : (Fragment.ofText markup).Settled) :
    (p.setMarkup e (Fragment.ofText markup).markup).innerMarkup e = (Fragment.ofText markup).markup := by
  rw [innerMarkup_setMarkup hd, Fragment.markup_ofText_markup (Fragment.scanned_ofText markup) h]

/-- What an element shows after it was given markup stays the same in every other element if all elements
of that markup come back from their places, and only then.  It also stays the same in the element itself,
however often it is loaded again. -/
theorem innerMarkup_settles (hd : p.element? e = some d) (hc : q.element? c = some d')
    (markup : String) :
    ((q.setMarkup c ((p.setMarkup e markup).innerMarkup e)).innerMarkup c
        = (p.setMarkup e markup).innerMarkup e ↔ (Fragment.ofText markup).Settled) ∧
      ((Fragment.ofText markup).Settled → ∀ n,
        ((reload e)^[n] (p.setMarkup e markup)).innerMarkup e
          = (p.setMarkup e markup).innerMarkup e) := by
  have hshown := innerMarkup_setMarkup hd markup
  rw [hshown]
  refine ⟨?_, fun h n => ?_⟩
  · rw [innerMarkup_setMarkup hc]
    exact Fragment.markup_ofText_markup_iff (Fragment.scanned_ofText markup)
  · have hall : (∃ d, ((reload e)^[n] (p.setMarkup e markup)).element? e = some d) ∧
        ((reload e)^[n] (p.setMarkup e markup)).innerMarkup e = (Fragment.ofText markup).markup := by
      induction n with
      | zero =>
        obtain ⟨row, hrow, _⟩ := element?_setMarkup hd markup
        exact ⟨⟨_, hrow⟩, hshown⟩
      | succ n ih =>
        obtain ⟨⟨d, hd⟩, hsame⟩ := ih
        rw [Function.iterate_succ_apply', reload, hsame]
        obtain ⟨row, hrow, _⟩ := element?_setMarkup hd (Fragment.ofText markup).markup
        exact ⟨⟨_, hrow⟩, innerMarkup_of_settled hd h⟩
    exact hall.2

/-- Capitals, a void element with a child, attributes of all kinds, references known and unknown, a comment
between texts, a closing tag without an element and elements without a closing tag. -/
def roughMarkup : String :=
  "<BR><i>x</i></BR>a<P Title='b' ID=c d/e=f>1 &lt; 2 &b<!-- -->&quot;</q></P><li><x/y Z=1>"

theorem rough_markup_settles :
    (emptyPage.setMarkup ⟨0⟩ roughMarkup).innerMarkup ⟨0⟩
      = "<br>a<p title=\"b\" id=\"c\" d/e=\"f\">1 &lt; 2 &amp;b\"</p><li><x/y z=\"1\"></x/y></li>" ∧
    ((reload ⟨0⟩)^[2] (emptyPage.setMarkup ⟨0⟩ roughMarkup)).innerMarkup ⟨0⟩
      = (emptyPage.setMarkup ⟨0⟩ roughMarkup).innerMarkup ⟨0⟩ := by
  have hd : emptyPage.element? ⟨0⟩ = some { tag := "div" } := rfl
  have hs : (Fragment.ofText roughMarkup).Settled := by decide +kernel
  exact ⟨by decide +kernel, (innerMarkup_settles hd hd roughMarkup).2 hs 2⟩

/-- The inner markup of an element that was given markup, before and after it is loaded again. -/
def shownTwice (markup : String) : String × String :=
  ((emptyPage.setMarkup ⟨0⟩ markup).innerMarkup ⟨0⟩,
    (reload ⟨0⟩ (emptyPage.setMarkup ⟨0⟩ markup)).innerMarkup ⟨0⟩)

/-- Four texts that do not settle at once.  What an element held that is void for the reader only comes
back behind it; a tag without a name takes the name of its first attribute; an attribute without a name
falls behind one that has a name; and an attribute comes first that is called like a part of the tag. -/
theorem unsettled_markup_changes :
    shownTwice "<PARAM>x</PARAM>" = ("<param>x</param>", "<param></param>x") ∧
    shownTwice "<\" a>" = ("< a=\"\" =\"\"></>", "<a =\"\"></a>") ∧
    shownTwice "<a\"b\">" = ("<a =\"\" b=\"\"></a>", "<a b=\"\" =\"\"></a>") ∧
    shownTwice "<x/class. b='1' class='2'>"
      = ("<x/class b=\"1\" class=\"2\" =\"\"></x/class>",
        "<x/class class=\"2\" b=\"1\" =\"\"></x/class>") := by
  refine ⟨?_, ?_, ?_, ?_⟩ <;> decide +kernel

end Bindery.Page
