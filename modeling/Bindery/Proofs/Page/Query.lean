import Mathlib.Data.List.Find
import Bindery.Proofs.Markup.Selecting
import Bindery.Proofs.Page.Trees

/-!
# Looking for an element

An element of a page is looked for below another: each element before those inside it, and those before
its later siblings.  The store goes only as many levels down as there are elements; where no element
below stands inside itself, that is all the way.

* `Page.Preorder`              the elements of a row and below it, in document order
* `preorder_rowWithin`         the layout of the store has them all, in that order
* `Page.Named`                 the element is one that a selector's text names
* `query_first_in_preorder`    what is found is the first of those
-/

namespace Bindery.Page

variable {κ σ : Type} {p : Page κ σ}

theorem inside_iff {e c : ElementId} {d : PageElement κ} (hd : p.element? e = some d) :
    p.Inside e c ↔ ∃ x, Child.element x ∈ d.children ∧ (c = x ∨ p.Inside x c) := by
  constructor
  · intro h
    cases h with
    | child hd' hc =>
      cases hd.symm.trans hd'
      exact ⟨c, hc, Or.inl rfl⟩
    | deeper hd' hx hin =>
      cases hd.symm.trans hd'
      exact ⟨_, hx, Or.inr hin⟩
  · rintro ⟨x, hx, rfl | hin⟩
    · exact .child hd hx
    · exact .deeper hd hx hin

theorem not_inside_of_none {e : ElementId} (h : p.element? e = none) (c : ElementId) :
    ¬ p.Inside e c := by
  rintro (⟨hd, -⟩ | ⟨hd, -, -⟩)
  · exact nomatch h.symm.trans hd
  · exact nomatch h.symm.trans hd

/-- The elements of a row of children and below it in document order.  Texts, and children that the page
does not have, are passed over. -/
inductive Preorder (p : Page κ σ) : List Child → List ElementId → Prop where
  | nil : Preorder p [] []
  | text {content : String} {r : List Child} {order : List ElementId} :
      Preorder p r order → Preorder p (.text content :: r) order
  | missing {c : ElementId} {r : List Child} {order : List ElementId} :
      p.element? c = none → Preorder p r order → Preorder p (.element c :: r) order
  | element {c : ElementId} {d : PageElement κ} {r : List Child} {inside order : List ElementId} :
      p.element? c = some d → Preorder p d.children inside → Preorder p r order →
      Preorder p (.element c :: r) (c :: inside ++ order)

theorem Preorder.unique {row : List Child} {order other : List ElementId} (h : p.Preorder row order)
    (k : p.Preorder row other) : order = other := by
  induction h generalizing other with
  | nil =>
    cases k
    rfl
  | text _ ih =>
    obtain _ | k := k
    exact ih k
  | missing hnone _ ih =>
    cases k with
    | missing _ k => exact ih k
    | element hd _ _ => exact nomatch hnone.symm.trans hd
  | element hd _ _ ihinside ih =>
    cases k with
    | missing hnone _ => exact nomatch hnone.symm.trans hd
    | element hd' kinside k =>
      cases hd.symm.trans hd'
      rw [ihinside kinside, ih k]

theorem Preorder.mem_iff {row : List Child} {order : List ElementId} (h : p.Preorder row order)
    {c : ElementId} :
    c ∈ order ↔ (p.element? c).isSome = true ∧ ∃ x, Child.element x ∈ row ∧ (c = x ∨ p.Inside x c) := by
  induction h with
  | nil => exact ⟨nofun, fun ⟨_, _, hx, _⟩ => nomatch hx⟩
  | text _ ih =>
    rw [ih]
    refine and_congr_right fun _ => exists_congr fun x => and_congr_left fun _ => ?_
    rw [List.mem_cons]
    exact ⟨Or.inr, fun hx => hx.resolve_left nofun⟩
  | @missing y r order hnone _ ih =>
    rw [ih]
    constructor
    · rintro ⟨hc, x, hx, hin⟩
      exact ⟨hc, x, List.mem_cons_of_mem _ hx, hin⟩
    · rintro ⟨hc, x, hx, hin⟩
      rcases List.mem_cons.mp hx with hxy | hx
      · cases hxy
        rcases hin with rfl | hin
        · rw [hnone] at hc
          cases hc
        · exact absurd hin (not_inside_of_none hnone c)
      · exact ⟨hc, x, hx, hin⟩
  | @element y d r inside order hd _ _ ihinside ih =>
    rw [List.cons_append, List.mem_cons, List.mem_append, ihinside, ih, ← inside_iff hd]
    constructor
    · rintro (rfl | ⟨hc, hin⟩ | ⟨hc, x, hx, hin⟩)
      · exact ⟨Option.isSome_of_eq_some hd, c, List.mem_cons_self, Or.inl rfl⟩
      · exact ⟨hc, y, List.mem_cons_self, Or.inr hin⟩
      · exact ⟨hc, x, List.mem_cons_of_mem _ hx, hin⟩
    · rintro ⟨hc, x, hx, hin⟩
      rcases List.mem_cons.mp hx with hxy | hx
      · cases hxy
        exact hin.imp_right fun hin => Or.inl ⟨hc, hin⟩
      · exact Or.inr (Or.inr ⟨hc, x, hx, hin⟩)

/-! ## The layout of the store -/

theorem preorder_row {below : List Child → Fragment ElementId} {row : List Child}
    (h : ∀ c d, Child.element c ∈ row → p.element? c = some d →
      p.Preorder d.children ((below d.children).descendants.map Element.label)) :
    p.Preorder row ((p.row below row).descendants.map Element.label) := by
  induction row with
  | nil => exact .nil
  | cons child r ih =>
    have hr := ih fun c d hc => h c d (List.mem_cons_of_mem _ hc)
    cases child with
    | text content => exact .text hr
    | element c =>
      rw [Page.row]
      cases hd : p.element? c with
      | none => exact .missing hd hr
      | some d =>
        have hinside := h c d List.mem_cons_self hd
        simp only [Fragment.descendants, List.cons_append, List.map_cons, List.map_append]
        exact .element hd hinside hr

/-- With as many levels as the row has, the layout is in document order. -/
theorem preorder_rowWithin {n : Nat} {row : List Child} (h : p.Shallow n row) :
    p.Preorder row ((p.rowWithin n row).descendants.map Element.label) := by
  induction n generalizing row with
  | zero =>
    refine preorder_row fun c d hc hd => ?_
    cases (h c hc).symm.trans hd
  | succ n ih => exact preorder_row fun c d hc hd => ih (h c d hc hd)

theorem element?_of_mem_row {below : List Child → Fragment ElementId} {row : List Child}
    (h : ∀ r, ∀ x ∈ (below r).descendants,
      ∃ d, p.element? x.label = some d ∧ x.tag = d.tag ∧ x.attributes = d.attributes) :
    ∀ x ∈ (p.row below row).descendants,
      ∃ d, p.element? x.label = some d ∧ x.tag = d.tag ∧ x.attributes = d.attributes := by
  induction row with
  | nil => exact nofun
  | cons child r ih =>
    cases child with
    | text content => exact ih
    | element c =>
      rw [Page.row]
      cases hd : p.element? c with
      | none => exact ih
      | some d =>
        intro x hx
        rw [Fragment.descendants, List.cons_append, List.mem_cons, List.mem_append] at hx
        rcases hx with rfl | hx | hx
        · exact ⟨d, hd, rfl, rfl⟩
        · exact h d.children x hx
        · exact ih x hx

theorem element?_of_mem_rowWithin {n : Nat} {row : List Child} :
    ∀ x ∈ (p.rowWithin n row).descendants,
      ∃ d, p.element? x.label = some d ∧ x.tag = d.tag ∧ x.attributes = d.attributes := by
  induction n generalizing row with
  | zero => exact element?_of_mem_row fun _ => nofun
  | succ n ih => exact element?_of_mem_row fun _ => ih

theorem element?_of_mem_inner {e : ElementId} :
    ∀ x ∈ (p.inner e).descendants,
      ∃ d, p.element? x.label = some d ∧ x.tag = d.tag ∧ x.attributes = d.attributes := by
  unfold inner
  split
  · exact element?_of_mem_rowWithin
  · exact nofun

/-! ## The first of them -/

def selected (p : Page κ σ) (s : Selector) (c : ElementId) : Bool :=
  (p.element? c).any fun d => s.selects d.tag d.attributes

/-- The element is one that the text of a selector names; blanks around the text do not count. -/
def Named (p : Page κ σ) (selector : String) (c : ElementId) : Prop :=
  ∃ d, p.element? c = some d ∧ Selector.Names (Text.trim selector.toList) d.tag d.attributes

theorem selected_iff_named {selector : String} {s : Selector}
    (hs : Selector.ofText? selector = some s) {c : ElementId} :
    p.selected s c = true ↔ p.Named selector c := by
  unfold selected Named
  rw [Option.any_eq_true]
  refine exists_congr fun d => and_congr_right fun _ => ?_
  rw [Selector.names_iff]
  constructor
  · intro hsel
    exact ⟨s, hs, hsel⟩
  · rintro ⟨s', hs', hsel⟩
    cases hs.symm.trans hs'
    exact hsel

theorem not_named {selector : String} (hs : Selector.ofText? selector = none) (c : ElementId) :
    ¬ p.Named selector c := by
  rintro ⟨d, -, hn⟩
  obtain ⟨s, hs', -⟩ := Selector.names_iff.mp hn
  exact nomatch hs.symm.trans hs'

/-- What is found is the first selected element of the layout. -/
theorem query?_eq_find? {e : ElementId} {d : PageElement κ} (hd : p.element? e = some d)
    (selector : String) :
    p.query? e selector = (Selector.ofText? selector).bind fun s =>
      ((p.rowWithin p.elements.size d.children).descendants.map Element.label).find? (p.selected s) := by
  rw [query?_eq]
  refine congrArg (Option.bind _) (funext fun s => ?_)
  rw [inner, hd, Fragment.find?_eq, List.find?_map]
  refine congrArg _ (List.find?_congr fun x hx => ?_)
  obtain ⟨d', hd', htag, hattributes⟩ := element?_of_mem_rowWithin x hx
  rw [Function.comp_apply, selected, hd', htag, hattributes]
  rfl

/-- The elements below an element that has no part inside itself stand in one document order, and the
element is not among them.  A selector finds the first that its text names.  It finds none only if the
text has nothing to look for, or if none of them is named. -/
theorem query_first_in_preorder {e : ElementId} {d : PageElement κ} (hd : p.element? e = some d)
    (h : ∀ c, c = e ∨ p.Inside e c → ¬ p.Inside c c) (selector : String) :
    (∃ order, p.Preorder d.children order) ∧ ∀ order, p.Preorder d.children order →
      ((∀ c, c ∈ order ↔ p.Inside e c ∧ (p.element? c).isSome = true) ∧ e ∉ order) ∧
      (∀ c, p.query? e selector = some c ↔ ∃ before after, order = before ++ c :: after ∧
        p.Named selector c ∧ ∀ b ∈ before, ¬ p.Named selector b) ∧
      (p.query? e selector = none ↔ Text.trim selector.toList = [] ∨
        Text.trim selector.toList = ['#'] ∨ Text.trim selector.toList = ['.'] ∨
        ∀ c ∈ order, ¬ p.Named selector c) := by
  have hlayout : p.Preorder d.children
      ((p.rowWithin p.elements.size d.children).descendants.map Element.label) := by
    have hbelow : ∀ c, Child.element c ∈ d.children → ∀ a ∈ [e], p.Inside a c :=
      fun c hc a ha => List.mem_singleton.mp ha ▸ .child hd hc
    have hcolumn : p.Column [e] := .cons .nil hd (h e (Or.inl rfl)) fun a ha => absurd ha List.not_mem_nil
    refine preorder_rowWithin (shallow_of_column hcolumn ?_ hbelow (Nat.le_succ _))
    rintro x c hx (rfl | hc)
    · exact h c (Or.inr (.child hd hx))
    · exact h c (Or.inr (.deeper hd hx hc))
  refine ⟨⟨_, hlayout⟩, fun order horder => ?_⟩
  have hmem : ∀ c, c ∈ order ↔ p.Inside e c ∧ (p.element? c).isSome = true := fun c => by
    rw [horder.mem_iff, inside_iff hd, and_comm]
  have hfind := query?_eq_find? hd selector
  rw [hlayout.unique horder] at hfind
  refine ⟨⟨hmem, fun he => h e (Or.inl rfl) ((hmem e).mp he).1⟩, ?_⟩
  rw [hfind]
  cases hs : Selector.ofText? selector with
  | none =>
    have hnone := Selector.ofText?_eq_none_iff.mp hs
    refine ⟨fun c => ⟨nofun, fun ⟨_, _, _, hn, _⟩ => absurd hn (not_named hs c)⟩, fun _ => ?_, fun _ => rfl⟩
    rcases hnone with hnil | hid | hclass
    · exact Or.inl hnil
    · exact Or.inr (Or.inl hid)
    · exact Or.inr (Or.inr (Or.inl hclass))
  | some s =>
    have hnot : ∀ c, (!p.selected s c) = true ↔ ¬ p.Named selector c := fun c => by
      rw [Bool.not_eq_true', ← Bool.not_eq_true, selected_iff_named hs]
    constructor
    · intro c
      rw [Option.bind_some, List.find?_eq_some_iff_append, selected_iff_named hs]
      simp only [hnot]
      exact ⟨fun ⟨hn, before, after, hl, hb⟩ => ⟨before, after, hl, hn, hb⟩,
        fun ⟨before, after, hl, hn, hb⟩ => ⟨hn, before, after, hl, hb⟩⟩
    · rw [Option.bind_some, List.find?_eq_none]
      simp only [selected_iff_named hs]
      constructor
      · intro hall
        exact Or.inr (Or.inr (Or.inr hall))
      · rintro (hnil | hid | hclass | hall)
        · exact nomatch hs.symm.trans (Selector.ofText?_eq_none_iff.mpr (Or.inl hnil))
        · exact nomatch hs.symm.trans (Selector.ofText?_eq_none_iff.mpr (Or.inr (Or.inl hid)))
        · exact nomatch hs.symm.trans (Selector.ofText?_eq_none_iff.mpr (Or.inr (Or.inr hclass)))
        · exact hall

/-- A list between texts, with a paragraph of the same class after it. -/
def listPage : Page Unit Unit where
  elements := #[
    { tag := "div", children := [.text "a", .element ⟨2⟩, .text "b", .element ⟨3⟩] },
    { tag := "li", attributes := ⟨[("id", "item"), ("class", "c\n d")]⟩, children := [.text "e"] },
    { tag := "ul", attributes := ⟨[("class", "cd")]⟩, children := [.element ⟨1⟩] },
    { tag := "p", attributes := ⟨[("class", "d")]⟩ }]
  host := ()

theorem list_item_found_first :
    (∃ d, listPage.element? ⟨0⟩ = some d ∧ listPage.Preorder d.children [⟨2⟩, ⟨1⟩, ⟨3⟩]) ∧
    (∀ c, c = ⟨0⟩ ∨ listPage.Inside ⟨0⟩ c → ¬ listPage.Inside c c) ∧
    listPage.query? ⟨0⟩ " .d\n" = some ⟨1⟩ ∧ listPage.query? ⟨0⟩ " # " = none := by
  have h1 : ∀ c, ¬ listPage.Inside ⟨1⟩ c := fun c hin => by
    obtain ⟨x, hx, -⟩ := (inside_iff rfl).mp hin
    simp [listPage] at hx
  have h3 : ∀ c, ¬ listPage.Inside ⟨3⟩ c := fun c hin => by
    obtain ⟨x, hx, -⟩ := (inside_iff rfl).mp hin
    simp [listPage] at hx
  have h2 : ∀ c, listPage.Inside ⟨2⟩ c → c = ⟨1⟩ := fun c hin => by
    obtain ⟨x, hx, hc⟩ := (inside_iff rfl).mp hin
    obtain rfl : x = ⟨1⟩ := by simpa [listPage] using hx
    exact hc.resolve_right (h1 c)
  have h0 : ∀ c, listPage.Inside ⟨0⟩ c → c = ⟨2⟩ ∨ c = ⟨1⟩ ∨ c = ⟨3⟩ := fun c hin => by
    obtain ⟨x, hx, hc⟩ := (inside_iff rfl).mp hin
    obtain rfl | rfl : x = ⟨2⟩ ∨ x = ⟨3⟩ := by simpa [listPage] using hx
    · exact hc.imp_right fun hin => Or.inl (h2 c hin)
    · exact Or.inr (Or.inr (hc.resolve_right (h3 c)))
  have hacyclic : ∀ c, c = ⟨0⟩ ∨ listPage.Inside ⟨0⟩ c → ¬ listPage.Inside c c := by
    rintro c (rfl | hc) hin
    · exact absurd (h0 _ hin) (by decide)
    · obtain rfl | rfl | rfl := h0 c hc
      · exact absurd (h2 _ hin) (by decide)
      · exact h1 _ hin
      · exact h3 _ hin
  have hitem : listPage.Preorder [.element ⟨1⟩] ([⟨1⟩] ++ []) := .element rfl (.text .nil) .nil
  have hlast : listPage.Preorder [.element ⟨3⟩] ([⟨3⟩] ++ []) := .element rfl .nil .nil
  have horder : listPage.Preorder [.text "a", .element ⟨2⟩, .text "b", .element ⟨3⟩]
      ([⟨2⟩, ⟨1⟩] ++ [⟨3⟩]) :=
    .text (.element rfl hitem (.text hlast))
  refine ⟨⟨_, rfl, horder⟩, hacyclic, ?_, ?_⟩
  · have hs : Selector.ofText? " .d\n" = some (.byClass "d") := by decide +kernel
    obtain ⟨-, hall⟩ := query_first_in_preorder (p := listPage) (e := ⟨0⟩) rfl hacyclic " .d\n"
    obtain ⟨-, hsome, -⟩ := hall _ horder
    refine (hsome ⟨1⟩).mpr ⟨[⟨2⟩], [⟨3⟩], rfl, (selected_iff_named hs).mp (by decide +kernel), fun b hb => ?_⟩
    rw [List.mem_singleton.mp hb, ← selected_iff_named hs]
    decide +kernel
  · obtain ⟨-, hall⟩ := query_first_in_preorder (p := listPage) (e := ⟨0⟩) rfl hacyclic " # "
    obtain ⟨-, -, hnone⟩ := hall _ horder
    exact hnone.mpr (Or.inr (Or.inl (by decide +kernel)))

end Bindery.Page
