import Mathlib.Data.List.Perm.Subperm
import Bindery.Proofs.Page.Content

/-!
# What can be reached

Lifetimes are looked up from an element to its owners.  On a page where no element stands inside
itself, and whose listeners captured nothing strongly, the search is exact: an element is alive if it can
be reached downwards, from what the program holds through views and children.

* `Page.Acyclic`                   no element stands inside itself
* `Page.Reachable`                 held, kept by a view that is held, or a child of such an element
* `Page.ModelReachable`            a model that is held, shown by such a view, or written back
* `Page.Uncaptured`                no listener holds anything
* `elementAlive_iff_reachable`, `modelAlive_iff_reachable`   the search finds what can be reached
-/

namespace Bindery

def Handler.holdsModel {κ : Type} : Handler κ → Bool
  | .writeBack (.strong _) _ _ _ => true
  | _ => false

namespace Page

variable {κ σ : Type} {p : Page κ σ}

def Acyclic (p : Page κ σ) : Prop := ∀ e, ¬ p.Inside e e

/-- The program holds the element or a view that keeps it, or it is a child of such an element. -/
inductive Reachable (p : Page κ σ) : ElementId → Prop where
  | held {e : ElementId} : .element e ∈ p.held → Reachable p e
  | view {v : ViewId} {view : View} {e : ElementId} :
      .view v ∈ p.held → p.view? v = some view → view.keeps e = true → Reachable p e
  | child {e c : ElementId} {d : PageElement κ} :
      Reachable p e → p.element? e = some d → Child.element c ∈ d.children → Reachable p c

/-- The program holds the model or a view of it, or an element that can be reached writes it back. -/
inductive ModelReachable (p : Page κ σ) (m : ModelId) : Prop where
  | held : .model m ∈ p.held → ModelReachable p m
  | view {v : ViewId} {view : View} :
      .view v ∈ p.held → p.view? v = some view → view.model = m → ModelReachable p m
  | writeBack {e : ElementId} {d : PageElement κ} {kind : EventKind} {c : Captured ModelId}
      {property key : String} {control : Control} :
      Reachable p e → p.element? e = some d →
      (kind, Handler.writeBack c property key control) ∈ d.handlers → c.target = m →
      ModelReachable p m

def Uncaptured (p : Page κ σ) : Prop := ∀ l ∈ p.listeners, l.keeps = []

theorem Uncaptured.captures (h : p.Uncaptured) (x : Handle) : p.captures x = false := by
  rw [Bool.eq_false_iff]
  intro hx
  obtain ⟨l, hl, hk⟩ := captures_iff.mp hx
  rw [h l hl] at hk
  cases hk

theorem Inside.trans {a b c : ElementId} (h : p.Inside a b) (k : p.Inside b c) : p.Inside a c := by
  induction h with
  | child hd hc => exact .deeper hd hc k
  | deeper hd hc _ ih => exact .deeper hd hc (ih k)

theorem reachable_of_isRooted {e : ElementId} (h : p.isRooted [e] = true) : p.Reachable e := by
  rcases isRooted_singleton.mp h with h | ⟨v, view, hheld, hview, hk⟩
  · exact .held h
  · exact .view hheld hview hk

/-! ## Looking upwards -/

theorem someAliveWithin_of_mem {e : ElementId} (h : p.isRooted [e] = true) (n : Nat)
    {es : List ElementId} (he : e ∈ es) : p.someAliveWithin n es = true :=
  someAliveWithin_of_isKept (isKept_iff.mpr ⟨e, he, Or.inl h⟩) n

/-- The search finds what can be reached, however far it goes. -/
theorem Reachable.someAliveWithin {e : ElementId} (h : p.Reachable e) (n : Nat) {es : List ElementId}
    (he : e ∈ es) : p.someAliveWithin n es = true := by
  induction h generalizing n es with
  | held hheld => exact someAliveWithin_of_mem (isRooted_of_held hheld) n he
  | view hheld hview hk =>
    exact someAliveWithin_of_mem (isRooted_singleton.mpr (Or.inr ⟨_, _, hheld, hview, hk⟩)) n he
  | @child a c d _ hd hc ih =>
    cases es with
    | nil => cases he
    | cons x r =>
      cases n with
      | zero => rfl
      | succ n =>
        have howner : a ∈ p.owners (x :: r) := mem_owners.mpr ⟨d, hd, c, he, hc⟩
        rw [Page.someAliveWithin, Bool.or_eq_true]
        exact Or.inr (ih n howner)

/-- What the search takes for alive can be reached, or has as many owners one above the other as the
search has steps. -/
theorem reachable_or_owners (hp : p.Uncaptured) {n : Nat} {es : List ElementId}
    (h : p.someAliveWithin n es = true) :
    (∃ e ∈ es, p.Reachable e) ∨
      ∃ above : List ElementId, above.length = n ∧ above.Pairwise (fun a b => p.Inside b a) ∧
        (∀ a ∈ above, (p.element? a).isSome = true) ∧ ∃ e ∈ es, ∀ a ∈ above, p.Inside a e := by
  induction n generalizing es with
  | zero =>
    cases es with
    | nil => cases h
    | cons e r =>
      have hnone : ∀ {P : ElementId → Prop}, ∀ a ∈ ([] : List ElementId), P a :=
        fun a ha => absurd ha List.not_mem_nil
      exact Or.inr ⟨[], rfl, .nil, hnone, e, List.mem_cons_self, hnone⟩
  | succ n ih =>
    cases es with
    | nil => cases h
    | cons x r =>
      rw [Page.someAliveWithin, Bool.or_eq_true] at h
      rcases h with h | h
      · obtain ⟨e, he, hr | hc⟩ := isKept_iff.mp h
        · exact Or.inl ⟨e, he, reachable_of_isRooted hr⟩
        · cases (hp.captures _).symm.trans hc
      · rcases ih h with ⟨o, ho, hreach⟩ | ⟨above, hlen, hpair, hthere, o, ho, hin⟩
        · obtain ⟨d, hd, c, hc, hchild⟩ := mem_owners.mp ho
          exact Or.inl ⟨c, hc, .child hreach hd hchild⟩
        · obtain ⟨d, hd, c, hc, hchild⟩ := mem_owners.mp ho
          have hoc : p.Inside o c := .child hd hchild
          refine Or.inr ⟨o :: above, congrArg Nat.succ hlen, .cons hin hpair, ?_, c, hc, ?_⟩
          · intro a ha
            rcases List.mem_cons.mp ha with rfl | ha
            · rw [hd]
              rfl
            · exact hthere a ha
          · intro a ha
            rcases List.mem_cons.mp ha with rfl | ha
            · exact hoc
            · exact (hin a ha).trans hoc

/-- There are no more owners one above the other than there are elements. -/
theorem length_owners_le {above : List ElementId} (hself : ∀ a ∈ above, ¬ p.Inside a a)
    (hpair : above.Pairwise fun a b => p.Inside b a)
    (hthere : ∀ a ∈ above, (p.element? a).isSome = true) : above.length ≤ p.elements.size := by
  have hnodup : (above.map ElementId.index).Nodup := by
    refine List.pairwise_map.mpr (hpair.imp_of_mem fun {a b} ha _ hab he => ?_)
    have hsame : a = b := congrArg ElementId.mk he
    exact hself a ha (hsame ▸ hab)
  have hsub : above.map ElementId.index ⊆ List.range p.elements.size := by
    intro i hi
    obtain ⟨a, ha, rfl⟩ := List.mem_map.mp hi
    obtain ⟨d, hd⟩ := Option.isSome_iff_exists.mp (hthere a ha)
    exact List.mem_range.mpr (Array.getElem?_eq_some_iff.mp hd).1
  have hlen := (List.subperm_of_subset hnodup hsub).length_le
  rwa [List.length_map, List.length_range] at hlen

theorem someAlive_iff_reachable (h : p.Acyclic) (hp : p.Uncaptured) {es : List ElementId} :
    p.someAlive es = true ↔ ∃ e ∈ es, p.Reachable e := by
  constructor
  · intro ha
    rcases reachable_or_owners hp ha with hr | ⟨above, hlen, hpair, hthere, -⟩
    · exact hr
    · have hle := length_owners_le (fun a _ => h a) hpair hthere
      omega
  · rintro ⟨e, he, hr⟩
    exact hr.someAliveWithin _ he

theorem elementAlive_iff_reachable (h : p.Acyclic) (hp : p.Uncaptured) {e : ElementId} :
    p.elementAlive e = true ↔ p.Reachable e := by
  unfold elementAlive
  rw [someAlive_iff_reachable h hp]
  simp only [List.mem_singleton, exists_eq_left]

theorem mem_heldViews {view : View} :
    view ∈ p.heldViews ↔ ∃ v, .view v ∈ p.held ∧ p.view? v = some view := by
  unfold heldViews isHeld view?
  rw [List.mem_map]
  constructor
  · rintro ⟨⟨w, i⟩, hm, rfl⟩
    obtain ⟨hm, hheld⟩ := List.mem_filter.mp hm
    rw [List.mem_zipIdx_iff_getElem?, Array.getElem?_toList] at hm
    exact ⟨⟨i⟩, List.contains_iff_mem.mp hheld, hm⟩
  · rintro ⟨v, hheld, hv⟩
    refine ⟨(view, v.index), List.mem_filter.mpr ⟨?_, List.contains_iff_mem.mpr hheld⟩, rfl⟩
    rw [List.mem_zipIdx_iff_getElem?, Array.getElem?_toList]
    exact hv

theorem captures_element_iff {d : PageElement κ} {m : ModelId} :
    d.captures (.model m) = true ↔ ∃ kind property key control,
      (kind, Handler.writeBack (.strong m) property key control) ∈ d.handlers := by
  unfold PageElement.captures
  simp only [List.any_eq_true, List.contains_iff_mem]
  constructor
  · rintro ⟨⟨kind, handler⟩, hm, hk⟩
    cases handler with
    | writeBack c property key control =>
      cases c with
      | weak n => cases hk
      | strong n =>
        cases List.mem_singleton.mp hk
        exact ⟨kind, property, key, control, hm⟩
    | callback code => cases hk
  · rintro ⟨kind, property, key, control, hm⟩
    exact ⟨_, hm, List.mem_singleton_self _⟩

theorem modelAlive_iff_reachable (h : p.Acyclic) (hp : p.Uncaptured)
    (hback : ∀ {e d}, p.element? e = some d → ∀ x ∈ d.handlers, x.2.holdsModel = true) {m : ModelId} :
    p.modelAlive m = true ↔ p.ModelReachable m := by
  unfold modelAlive
  rw [hp.captures, Bool.or_false, Bool.or_eq_true, Bool.or_eq_true, isHeld_iff, List.any_eq_true,
    someAlive_iff_reachable h hp]
  constructor
  · rintro ((hheld | ⟨view, hview, hm⟩) | ⟨e, he, hr⟩)
    · exact .held hheld
    · obtain ⟨v, hheld, hv⟩ := mem_heldViews.mp hview
      exact .view hheld hv (of_decide_eq_true hm)
    · obtain ⟨d, hd, hw⟩ := mem_elementsWith.mp he
      obtain ⟨kind, property, key, control, hm⟩ := captures_element_iff.mp hw
      exact .writeBack hr hd hm rfl
  · rintro (hheld | @⟨v, view, hheld, hv, hm⟩ | @⟨e, d, kind, c, property, key, control, hr, hd, hm, hc⟩)
    · exact Or.inl (Or.inl hheld)
    · exact Or.inl (Or.inr ⟨view, mem_heldViews.mpr ⟨v, hheld, hv⟩, decide_eq_true hm⟩)
    · cases c with
      | weak n => cases hback hd _ hm
      | strong n =>
        obtain rfl : n = m := hc
        have hw : d.captures (.model n) = true :=
          captures_element_iff.mpr ⟨kind, property, key, control, hm⟩
        exact Or.inr ⟨e, mem_elementsWith.mpr ⟨d, hd, hw⟩, hr⟩

end Page

end Bindery
