import Bindery.Proofs.Page.Grafting

/-!
# The markup of an element put into another one

The inner markup of an element gives another element the same children: the same tags, attributes and
texts, on identities of their own.  What the texts and attributes hold is data and stays data.  No value
closes a tag or a quote, so none can make, take away or change an element or an attribute.

* `inner_bare`           the layout of an element that a fragment was grafted into
* `markup_round_trip`    inner markup read back
-/

namespace Bindery.Page

variable {κ σ : Type} {p q : Page κ σ} {e c : ElementId} {d : PageElement κ}

theorem inner_bare (hd : q.element? c = some d) (markup : String) :
    ((q.setMarkup c markup).inner c).bare = Fragment.ofText markup := by
  obtain ⟨row, hrow, hlaid⟩ := element?_setMarkup hd markup
  rw [inner, hrow]
  exact hlaid.bare_rowWithin (Nat.le_add_left _ _)

theorem ofText_innerMarkup (hf : (p.inner e).Writable) :
    Fragment.ofText (p.innerMarkup e) = (p.inner e).bare := by
  rw [innerMarkup_eq, ← Fragment.markup_eq, Fragment.ofText_markup hf.readable]

/-- The markup of what is below an element gives any other element of any page children with the same
tags, the same attributes in the same order with the same values, and the same texts, and leaves that
element otherwise as it was.  On a page that shows other data in the same places, as long as no text is
empty, the elements and attributes that are read back are the same too. -/
theorem markup_round_trip (hf : (p.inner e).Writable) (hd : q.element? c = some d) :
    (∃ row, (q.setMarkup c (p.innerMarkup e)).element? c = some { d with children := row }) ∧
    ((q.setMarkup c (p.innerMarkup e)).inner c).bare = (p.inner e).bare ∧
    ∀ s : Page κ σ, (s.inner e).outline = (p.inner e).outline → (s.inner e).Filled →
      ((q.setMarkup c (s.innerMarkup e)).inner c).bare = (s.inner e).bare ∧
      ((q.setMarkup c (s.innerMarkup e)).inner c).outline = (p.inner e).outline := by
  have hback : ∀ s : Page κ σ, (s.inner e).Writable →
      ((q.setMarkup c (s.innerMarkup e)).inner c).bare = (s.inner e).bare := fun s hs => by
    rw [inner_bare hd, ofText_innerMarkup hs]
  refine ⟨?_, hback p hf, fun s ho hfilled => ?_⟩
  · obtain ⟨row, hrow, _⟩ := element?_setMarkup hd (p.innerMarkup e)
    exact ⟨row, hrow⟩
  · have hs := hback s (hf.of_outline ho hfilled)
    refine ⟨hs, ?_⟩
    rw [← Fragment.outline_bare, hs, Fragment.outline_bare, ho]

/-- A section with texts and values that look like markup: tags, references and quotes of both kinds. -/
def hostilePage : Page Unit Unit where
  elements := #[
    { tag := "section", children := [.text "a & b <i> \"c\"\n&amp;", .element ⟨2⟩, .element ⟨3⟩] },
    { tag := "b", children := [.text "</p><hr>"] },
    { tag := "p"
      attributes := ⟨[("id", "1\"2'"), ("data-x", "<i a=\"b\">&lt;"), ("class", "/> c=d")]⟩
      children := [.element ⟨1⟩, .text "]]>"] },
    { tag := "br", attributes := ⟨[("class", "")]⟩ }]
  host := ()

/-- The same section with harmless data. -/
def plainPage : Page Unit Unit where
  elements := #[
    { tag := "section", children := [.text "a", .element ⟨2⟩, .element ⟨3⟩] },
    { tag := "b", children := [.text "b"] },
    { tag := "p"
      attributes := ⟨[("id", ""), ("data-x", "x"), ("class", "")]⟩
      children := [.element ⟨1⟩, .text "c"] },
    { tag := "br", attributes := ⟨[("class", "")]⟩ }]
  host := ()

def emptyPage : Page Unit Unit where
  elements := #[{ tag := "div" }]
  host := ()

theorem writable_hostilePage : (hostilePage.inner ⟨0⟩).Writable :=
  .text (by decide) rfl <|
    .element (by decide) (by decide) (by decide) (by decide)
      (.element (by decide) (by decide) (by decide) (by decide) (.text (by decide) rfl .nil)
        (.text (by decide) rfl .nil)) <|
      .void (by decide) (by decide) (by decide) (by decide) .nil

theorem hostile_values_round_trip :
    (hostilePage.inner ⟨0⟩).Writable ∧ emptyPage.element? ⟨0⟩ = some { tag := "div" } ∧
    ((emptyPage.setMarkup ⟨0⟩ (hostilePage.innerMarkup ⟨0⟩)).inner ⟨0⟩).bare
      = .text "a & b <i> \"c\"\n&amp;"
          (.element () "p" ⟨[("id", "1\"2'"), ("data-x", "<i a=\"b\">&lt;"), ("class", "/> c=d")]⟩
            (.element () "b" .empty (.text "</p><hr>" .nil) (.text "]]>" .nil))
            (.element () "br" ⟨[("class", "")]⟩ .nil .nil)) ∧
    ((emptyPage.setMarkup ⟨0⟩ (plainPage.innerMarkup ⟨0⟩)).inner ⟨0⟩).outline
      = (hostilePage.inner ⟨0⟩).outline := by
  have hd : emptyPage.element? ⟨0⟩ = some { tag := "div" } := rfl
  have hfilled : (plainPage.inner ⟨0⟩).Filled :=
    ⟨by decide, ⟨⟨by decide, trivial⟩, by decide, trivial⟩, trivial, trivial⟩
  obtain ⟨_, hback, hother⟩ := markup_round_trip writable_hostilePage hd
  exact ⟨writable_hostilePage, hd, hback, (hother plainPage rfl hfilled).2⟩

end Bindery.Page
