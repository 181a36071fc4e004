import Bindery.Proofs.Binding.Calm
import Bindery.Proofs.Binding.Making

/-!
# Elements that are left alone

While something else is done on a page some of its elements may be left alone.  They stay as they are,
and no listener comes that would write to one of them.  This is so as long as whatever is changed is
another element, and whatever is bound is another element.

* `Page.Untouched`             some elements are as they were, and no listener writes to them
* `Untouched.modifyElement`, `Untouched.grows`     other elements change, and elements are added
* `Untouched.modifyBus`, `Untouched.subscribe`     listeners go, and listeners of others come
* `Untouched.receive`          a listener that is called writes to another element
* `Untouched.bindAttributes`   another element is bound
-/

namespace Bindery

variable {κ σ : Type}

namespace Page

/-- From `start` on the elements of `own` were left alone. -/
structure Untouched (own : ElementId → Prop) (start q : Page κ σ) : Prop where
  element : ∀ {x}, own x → ∃ d, start.element? x = some d ∧ q.element? x = some d
  size : start.elements.size ≤ q.elements.size
  /-- No listener writes to them. -/
  spares : ∀ {b r x}, q.bus? b = some r → own x → r.Spares x

namespace Untouched

variable {own : ElementId → Prop} {start q t : Page κ σ} {e : ElementId} {b : BusId}

theorem refl (hthere : ∀ x, own x → ∃ d, start.element? x = some d)
    (hspares : ∀ b r, start.bus? b = some r → ∀ x, own x → r.Spares x) : start.Untouched own start where
  element {x} hx := by
    obtain ⟨d, hd⟩ := hthere x hx
    exact ⟨d, hd, hd⟩
  size := Nat.le_refl _
  spares hr hx := hspares _ _ hr _ hx

theorem mono {own' : ElementId → Prop} (h : start.Untouched own q) (hown : ∀ x, own' x → own x) :
    start.Untouched own' q :=
  ⟨fun hx => h.element (hown _ hx), h.size, fun hr hx => h.spares hr (hown _ hx)⟩

theorem of_same (h : start.Untouched own q) (helements : t.elements = q.elements)
    (hbuses : t.buses = q.buses) : start.Untouched own t where
  element {x} hx := by
    obtain ⟨d, hd, hq⟩ := h.element hx
    refine ⟨d, hd, ?_⟩
    unfold element? at hq ⊢
    rw [helements]
    exact hq
  size := by
    rw [helements]
    exact h.size
  spares hr hx := h.spares ((bus?_of_buses hbuses _).symm.trans hr) hx

theorem laid (h : start.Untouched own q) {f : Fragment Unit} {row : List Child} {lo hi : Nat}
    (hf : Laid start f row lo hi) (hown : ∀ x : ElementId, lo ≤ x.index → x.index < hi → own x) :
    Laid q f row lo hi := by
  refine hf.frame fun x hlo hhi => ?_
  obtain ⟨d, hd, hq⟩ := h.element (hown x hlo hhi)
  rw [hd, hq]

/-! ### Other elements -/

theorem modifyElement (h : start.Untouched own q) (he : ¬ own e)
    (f : PageElement κ → PageElement κ) : start.Untouched own (q.modifyElement e f) where
  element {x} hx := by
    obtain ⟨d, hd, hq⟩ := h.element hx
    have hne : e ≠ x := fun hex => he (hex ▸ hx)
    exact ⟨d, hd, (element?_modifyElement_of_ne hne f).trans hq⟩
  size := by
    rw [size_modifyElement]
    exact h.size
  spares hr hx := h.spares hr hx

theorem grows (h : start.Untouched own q) (hg : Grows q t) : start.Untouched own t where
  element {x} hx := by
    obtain ⟨d, hd, hq⟩ := h.element hx
    have hlt : x.index < q.elements.size := (Array.getElem?_eq_some_iff.mp hq).1
    exact ⟨d, hd, (hg.kept x hlt).trans hq⟩
  size := Nat.le_trans h.size hg.size
  spares hr hx := by
    rw [hg.rest] at hr
    exact h.spares hr hx

theorem setMarkup (h : start.Untouched own q) (he : ¬ own e) (markup : String) :
    start.Untouched own (q.setMarkup e markup) := by
  cases hd : q.element? e with
  | none =>
    rw [setMarkup_of_none hd]
    exact h
  | some d =>
    rw [setMarkup_of_some hd]
    exact (h.grows (grows_graft (Fragment.ofText markup) q)).modifyElement he _

/-! ### Listeners -/

/-- No listener that writes to one of the elements comes to a bus. -/
theorem modifyBus (h : start.Untouched own q) (b : BusId)
    {f : Registry (Listener κ) → Registry (Listener κ)}
    (hf : ∀ r x, own x → r.Spares x → (f r).Spares x) : start.Untouched own (q.modifyBus b f) where
  element := h.element
  size := h.size
  spares {c r x} hr hx := by
    rw [bus?_modifyBus] at hr
    split at hr
    · obtain ⟨r₀, hr₀, rfl⟩ := Option.map_eq_some_iff.mp hr
      exact hf r₀ x hx (h.spares hr₀ hx)
    · exact h.spares hr hx

theorem addBus (h : start.Untouched own q) (maxDepth : Nat) :
    start.Untouched own (q.addBus maxDepth).2 where
  element := h.element
  size := h.size
  spares {c r x} hr hx := by
    have hr' : (q.buses.push { maxDepth })[c.index]? = some r := hr
    rw [Array.getElem?_push] at hr'
    split at hr'
    · cases hr'
      exact fun _ _ hl => absurd hl List.not_mem_nil
    · exact h.spares hr' hx

theorem subscribe (h : start.Untouched own q) {l : Listener κ}
    (hl : ∀ x, own x → l.writesText x = false ∧ l.propertyOn x = none) (b : BusId) (event : String) :
    start.Untouched own (q.subscribe b event l).2 := by
  cases hb : q.bus? b with
  | none =>
    rw [subscribe_of_none hb]
    exact h
  | some r =>
    rw [subscribe_of_some hb]
    have hsub : ∀ x, own x → (r.subscribe event l).2.Spares x := by
      intro x hx other l' hl'
      rw [Registry.heard_subscribe] at hl'
      split at hl'
      · rcases List.mem_append.mp hl' with hl' | hl'
        · exact h.spares hb hx other l' hl'
        · rw [List.mem_singleton.mp hl']
          exact hl x hx
      · exact h.spares hb hx other l' hl'
    exact h.modifyBus b fun _ x hx _ => hsub x hx

/-- A listener that is called writes to another element. -/
theorem receive (h : start.Untouched own q) {r : Registry (Listener κ)} {event : String}
    {l : Listener κ} (hr : q.bus? b = some r) (hl : l ∈ r.heard event) (value : Value) :
    start.Untouched own (q.receive value l) := by
  have hother : ∀ c, l.element? = some c → ¬ own c := fun c hc hown =>
    (h.spares hr hown).element?_ne hl hc
  cases l with
  | callback code => exact h
  | text c m template names changed =>
    rw [receive_text]
    split
    · exact h.modifyElement (hother c.target rfl) _
    · exact h
  | property c name =>
    rw [receive_property]
    split
    · exact h.modifyElement (hother c.target rfl) _
    · exact h

theorem bindAttributes (h : start.Untouched own q) (he : ¬ own e) (b : BusId) (m : ModelId)
    (entries : List (String × String)) : start.Untouched own (q.bindAttributes b m e entries).2 := by
  refine bindAttributes_keeps (fun p kind property key control hp => ?_)
    (fun p name value hp => ?_) (fun p event name hp => ?_) h entries
  · exact hp.modifyElement he _
  · exact hp.modifyElement he _
  · refine hp.subscribe (fun x hx => ⟨rfl, ?_⟩) b event
    have hne : e ≠ x := fun hex => he (hex ▸ hx)
    exact if_neg hne

/-! ### Views -/

theorem openView (h : start.Untouched own q) (b : BusId) (request : ViewRequest) :
    start.Untouched own (q.openView b request).2 := by
  unfold Page.openView
  split
  · exact h
  · exact h.of_same rfl rfl

theorem request (h : start.Untouched own q) (s : ShelfId) (path : String) :
    start.Untouched own (q.request s path).2 := by
  rw [request_eq]
  exact h.of_same rfl rfl

end Untouched

end Page

end Bindery
