import Bindery.Proofs.Page.Grafting
import Bindery.Proofs.Page.Reachable

/-!
# Pages of trees

A page on which no element stands inside itself is made up of trees, which may have branches in common.
No column of elements is higher there than the page has elements, so the layout is complete.  Markup
brings new elements only; the one change that could close a circle is that a child is appended.

* `Page.Shallow`           what a row has inside it ends after so many levels
* `Page.Column`            elements one above the other
* `Acyclic.inner_eq`       the layout of an element is that of its children, one after the other
* `Page.Admits`            an element may get a child
* `Acyclic.setMarkup`, `Acyclic.appendChild`   the page stays a page of trees
-/

namespace Bindery.Page

variable {κ σ : Type} {p q : Page κ σ}

/-! ## The depth of a row -/

/-- There are at most so many elements one above the other in a row and below it. -/
def Shallow (p : Page κ σ) : Nat → List Child → Prop
  | 0, row => ∀ c, Child.element c ∈ row → p.element? c = none
  | n + 1, row => ∀ c d, Child.element c ∈ row → p.element? c = some d → p.Shallow n d.children

/-- Elements of the page one above the other, the lowest first, none of them inside itself. -/
structure Column (p : Page κ σ) (above : List ElementId) : Prop where
  pairwise : above.Pairwise fun a b => p.Inside b a
  there : ∀ a ∈ above, (p.element? a).isSome = true
  apart : ∀ a ∈ above, ¬ p.Inside a a

theorem Column.nil : p.Column [] :=
  ⟨.nil, fun _ ha => absurd ha List.not_mem_nil, fun _ ha => absurd ha List.not_mem_nil⟩

theorem Column.cons {above : List ElementId} {c : ElementId} {d : PageElement κ} (h : p.Column above)
    (hd : p.element? c = some d) (hc : ¬ p.Inside c c) (hin : ∀ a ∈ above, p.Inside a c) :
    p.Column (c :: above) where
  pairwise := .cons hin h.pairwise
  there := List.forall_mem_cons.mpr ⟨Option.isSome_of_eq_some hd, h.there⟩
  apart := List.forall_mem_cons.mpr ⟨hc, h.apart⟩

/-- Below a column a row goes no further down than there can be further elements in the column. -/
theorem shallow_of_column {n : Nat} {above : List ElementId} {row : List Child} (h : p.Column above)
    (hself : ∀ x c, Child.element x ∈ row → c = x ∨ p.Inside x c → ¬ p.Inside c c)
    (hrow : ∀ c, Child.element c ∈ row → ∀ a ∈ above, p.Inside a c)
    (hroom : p.elements.size ≤ n + above.length) : p.Shallow n row := by
  induction n generalizing above row with
  | zero =>
    intro c hc
    rw [Option.eq_none_iff_forall_ne_some]
    intro d hd
    -- one more element above the other than the page has
    have hmore := h.cons hd (hself c c hc (Or.inl rfl)) (hrow c hc)
    have hlen := length_owners_le hmore.apart hmore.pairwise hmore.there
    rw [List.length_cons] at hlen
    omega
  | succ n ih =>
    intro c d hc hd
    refine ih (h.cons hd (hself c c hc (Or.inl rfl)) (hrow c hc)) ?_ ?_ ?_
    · rintro x y hx (rfl | hy)
      · exact hself c y hc (Or.inr (.child hd hx))
      · exact hself c y hc (Or.inr (.deeper hd hx hy))
    · intro x hx
      have hcx : p.Inside c x := .child hd hx
      exact List.forall_mem_cons.mpr ⟨hcx, fun a ha => (hrow c hc a ha).trans hcx⟩
    · rw [List.length_cons]
      omega

theorem Acyclic.shallow (h : p.Acyclic) (row : List Child) : p.Shallow p.elements.size row :=
  shallow_of_column .nil (fun _ c _ _ => h c) (fun _ _ _ ha => absurd ha List.not_mem_nil)
    (Nat.le_refl _)

theorem row_congr {below below' : List Child → Fragment ElementId} {row : List Child}
    (h : ∀ c d, Child.element c ∈ row → p.element? c = some d → below' d.children = below d.children) :
    p.row below' row = p.row below row := by
  induction row with
  | nil => rfl
  | cons child r ih =>
    have hr := ih fun c d hc => h c d (List.mem_cons_of_mem _ hc)
    cases child with
    | text content => exact congrArg (Fragment.text content) hr
    | element c =>
      unfold row
      cases hd : p.element? c with
      | none => exact hr
      | some d =>
        show Fragment.element c d.tag d.attributes (below' d.children) _ = _
        rw [h c d List.mem_cons_self hd, hr]

theorem Shallow.rowWithin_succ {n : Nat} {row : List Child} (h : p.Shallow n row) :
    p.rowWithin (n + 1) row = p.rowWithin n row := by
  induction n generalizing row with
  | zero =>
    refine row_congr fun c d hc hd => ?_
    cases (h c hc).symm.trans hd
  | succ n ih => exact row_congr fun c d hc hd => ih (h c d hc hd)

/-! ## The layout of a tree -/

/-- A child with all that is inside it. -/
def branch (p : Page κ σ) : Child → Fragment ElementId
  | .text content => .text content .nil
  | .element e => p.outer e

theorem row_eq_branches {row : List Child} :
    p.row (p.rowWithin p.elements.size) row = (row.map p.branch).foldr Fragment.append .nil := by
  induction row with
  | nil => rfl
  | cons child r ih =>
    cases child with
    | text content => exact congrArg (Fragment.text content) ih
    | element c =>
      unfold row
      rw [List.map_cons, List.foldr_cons, branch, outer, inner]
      cases p.element? c with
      | none => exact ih
      | some d => exact congrArg (Fragment.element c d.tag d.attributes _) ih

/-- On a page of trees the layout of an element leaves nothing out: it is that of its children, one after
the other. -/
theorem Acyclic.inner_eq (h : p.Acyclic) {e : ElementId} {d : PageElement κ}
    (hd : p.element? e = some d) :
    p.inner e = (d.children.map p.branch).foldr Fragment.append .nil := by
  unfold inner
  rw [hd, ← row_eq_branches]
  exact (h.shallow d.children).rowWithin_succ.symm

/-! ## What keeps a page of trees -/

theorem Acyclic.of_noNewChildren (h : p.Acyclic) (hc : NoNewChildren p q) : q.Acyclic :=
  fun e hi => h e (hi.of_noNewChildren hc)

theorem Acyclic.of_elements (h : p.Acyclic) (he : q.elements = p.elements) : q.Acyclic :=
  h.of_noNewChildren (noNewChildren_of_elements he)

/-- What stands inside a new element is new, and was made before it.  What was there before stands where
it stood. -/
theorem inside_of_setMarkup {e x c : ElementId} {d : PageElement κ} (hd : p.element? e = some d)
    (markup : String) (hi : (p.setMarkup e markup).Inside x c) :
    (p.elements.size ≤ x.index → p.elements.size ≤ c.index ∧ c.index < x.index) ∧
      (c.index < p.elements.size → p.Inside x c) := by
  have hold : e.index < p.elements.size := (Array.getElem?_eq_some_iff.mp hd).1
  clear hd
  -- a new child of a new element came before it, and all old elements but `e` have the children they had
  induction hi with
  | @child x c d hd hc =>
    rcases child_of_setMarkup p e markup hd hc with ⟨hnew, hx⟩ | ⟨-, hbefore⟩
    · refine ⟨fun hxnew => ⟨hnew, ?_⟩, fun hc => by omega⟩
      rcases hx with rfl | ⟨-, hlt⟩
      · omega
      · exact hlt
    · have hlt : x.index < p.elements.size := (Array.getElem?_eq_some_iff.mp hbefore).1
      exact ⟨fun hxnew => by omega, fun _ => .child hbefore hc⟩
  | @deeper x y c d hd hy _ ih =>
    obtain ⟨hfresh, hback⟩ := ih
    rcases child_of_setMarkup p e markup hd hy with ⟨hnew, hx⟩ | ⟨-, hbefore⟩
    · obtain ⟨hcnew, hcy⟩ := hfresh hnew
      refine ⟨fun hxnew => ⟨hcnew, ?_⟩, fun hc => by omega⟩
      rcases hx with rfl | ⟨-, hlt⟩
      · omega
      · omega
    · have hlt : x.index < p.elements.size := (Array.getElem?_eq_some_iff.mp hbefore).1
      exact ⟨fun hxnew => by omega, fun hc => .deeper hbefore hy (hback hc)⟩

theorem Acyclic.setMarkup (h : p.Acyclic) (e : ElementId) (markup : String) :
    (p.setMarkup e markup).Acyclic := by
  cases hd : p.element? e with
  | none =>
    rw [setMarkup_of_none hd]
    exact h
  | some d =>
    intro x hi
    obtain ⟨hfresh, hback⟩ := inside_of_setMarkup hd markup hi
    by_cases hx : x.index < p.elements.size
    · exact h x (hback hx)
    · obtain ⟨-, hlt⟩ := hfresh (Nat.not_lt.mp hx)
      omega

/-- An element may get a child that is not the element itself and does not stand around it. -/
def Admits (p : Page κ σ) (e : ElementId) (child : Child) : Prop :=
  ∀ c, child = .element c → c ≠ e ∧ ¬ p.Inside c e

/-- What stands inside an element after a child was appended to another stood there before, or the other
element is on the way to it. -/
theorem inside_of_appendChild {e x c : ElementId} {child : Child}
    (hi : (p.appendChild e child).Inside x c) :
    p.Inside x c ∨
      ∃ y, child = .element y ∧ (x = e ∨ p.Inside x e) ∧ (c = y ∨ (p.appendChild e child).Inside y c) := by
  have hstep : ∀ {a z : ElementId} {d : PageElement κ}, (p.appendChild e child).element? a = some d →
      Child.element z ∈ d.children →
      (∃ d', p.element? a = some d' ∧ Child.element z ∈ d'.children) ∨ a = e ∧ child = .element z := by
    intro a z d hd hz
    rw [appendChild, element?_modifyElement] at hd
    split at hd
    · rename_i he
      obtain ⟨d', hd', rfl⟩ := Option.map_eq_some_iff.mp hd
      rcases List.mem_append.mp hz with hz | hz
      · exact Or.inl ⟨d', hd', hz⟩
      · exact Or.inr ⟨he.symm, (List.mem_singleton.mp hz).symm⟩
    · exact Or.inl ⟨d, hd, hz⟩
  induction hi with
  | child hd hc =>
    rcases hstep hd hc with ⟨d', hd', hc'⟩ | ⟨rfl, hy⟩
    · exact Or.inl (.child hd' hc')
    · exact Or.inr ⟨_, hy, Or.inl rfl, Or.inl rfl⟩
  | @deeper a z c d hd hz hin ih =>
    rcases hstep hd hz with ⟨d', hd', hz'⟩ | ⟨rfl, hy⟩
    · rcases ih with hi | ⟨y, hy, hx | hx, hc⟩
      · exact Or.inl (.deeper hd' hz' hi)
      · exact Or.inr ⟨y, hy, Or.inr (hx ▸ .child hd' hz'), hc⟩
      · exact Or.inr ⟨y, hy, Or.inr (.deeper hd' hz' hx), hc⟩
    · exact Or.inr ⟨z, hy, Or.inl rfl, Or.inr hin⟩

theorem Acyclic.appendChild (h : p.Acyclic) {e : ElementId} {child : Child} (ha : p.Admits e child) :
    (p.appendChild e child).Acyclic := by
  -- below the new child everything stands as it did, since the element that gets it is not there
  have hbelow : ∀ {y c}, child = .element y → (p.appendChild e child).Inside y c → p.Inside y c := by
    intro y c hy hi
    obtain ⟨hne, hnot⟩ := ha y hy
    rcases inside_of_appendChild hi with hi | ⟨_, -, hye | hye, -⟩
    · exact hi
    · exact absurd hye hne
    · exact absurd hye hnot
  intro x hi
  rcases inside_of_appendChild hi with hi | ⟨y, hy, hxe, hxy⟩
  · exact h x hi
  · obtain ⟨hne, hnot⟩ := ha y hy
    rcases hxy with rfl | hxy
    · exact hxe.elim hne hnot
    · have hyx := hbelow hy hxy
      rcases hxe with rfl | hxe
      · exact hnot hyx
      · exact hnot (hyx.trans hxe)

end Bindery.Page
