import Bindery.Page.Basic

/-!
# Looking things up in a changed page

What stands in a page after one of its things was changed: the thing itself, and all the others as
they were.

* `bus?_of_buses`, `model?_of_models`, `view?_of_views`              nothing of the kind changed
* `bus?_modifyBus`, `element?_modifyElement`, `model?_modifyModel`   any thing after a change of one
* `view?_modifyView_self`, `view?_modifyView_of_ne`                  a view after a change of one
* `model?_store_self`, `model?_store_of_ne`                          a model after a write
-/

namespace Bindery

/-! ## Records -/

namespace Record

theorem set_cons (key : String) (value : Value) (k : String) (v : Value) (r : Record) :
    set key value ((k, v) :: r)
      = if k = key then (key, value) :: r
        else if key < k then (key, value) :: (k, v) :: r else (k, v) :: set key value r := rfl

theorem mem_of_get? {key : String} {value : Value} {fields : Record}
    (h : get? key fields = some value) : (key, value) ∈ fields := by
  induction fields with
  | nil => cases h
  | cons f r ih =>
    obtain ⟨k, v⟩ := f
    unfold get? at h
    split at h
    · rename_i hk
      cases h
      exact hk ▸ List.mem_cons_self
    · exact List.mem_cons_of_mem _ (ih h)

/-- A value that was put under a key is not put there again. -/
theorem set_set (key : String) (value : Value) (fields : Record) :
    set key value (set key value fields) = set key value fields := by
  induction fields with
  | nil => rw [set, set_cons, if_pos rfl]
  | cons f r ih =>
    obtain ⟨k, v⟩ := f
    rw [set_cons]
    split
    · rw [set_cons, if_pos rfl]
    · split
      · rw [set_cons, if_pos rfl]
      · rename_i hk hlt
        rw [set_cons, if_neg hk, if_neg hlt, ih]

/-- Nor after another key was written. -/
theorem set_eq_self_of_set {key other : String} {value stored : Value} {fields : Record}
    (h : set key value fields = fields) (hne : key ≠ other) :
    set key value (set other stored fields) = set other stored fields := by
  induction fields with
  | nil => cases h
  | cons f r ih =>
    obtain ⟨k, v⟩ := f
    by_cases hk : k = key
    · subst hk
      have hkept : set k value ((k, v) :: r) = (k, v) :: r := h
      rw [set_cons, if_pos rfl] at h
      rw [set_cons other, if_neg hne]
      split
      · rename_i hlt
        rw [set_cons, if_neg (Ne.symm hne), if_neg (String.lt_asymm hlt), hkept]
      · cases h
        rw [set_cons, if_pos rfl]
    · have hkept : set key value ((k, v) :: r) = (k, v) :: r := h
      rw [set_cons, if_neg hk] at h
      split at h
      · rw [List.cons.injEq, Prod.mk.injEq] at h
        exact absurd h.1.1.symm hk
      · rename_i hlt
        have hr : set key value r = r := (List.cons.inj h).2
        rw [set_cons other]
        split
        · rename_i ho
          subst ho
          rw [set_cons, if_neg hk, if_neg hlt, hr]
        · split
          · rename_i hok
            have hnot : ¬ key < other := fun hko => hlt (String.lt_trans hko hok)
            rw [set_cons key value other, if_neg (Ne.symm hne), if_neg hnot, hkept]
          · rw [set_cons key, if_neg hk, if_neg hlt, ih hr]

end Record

/-! ## Pages -/

namespace Page

variable {κ σ : Type} {p q : Page κ σ}

/-! ## Buses -/

theorem bus?_modifyBus (p : Page κ σ) (b c : BusId)
    (f : Registry (Listener κ) → Registry (Listener κ)) :
    (p.modifyBus b f).bus? c = if b = c then (p.bus? c).map f else p.bus? c := by
  show (p.buses.modify b.index f)[c.index]? = _
  rw [Array.getElem?_modify]
  cases b
  cases c
  simp [bus?]

theorem bus?_of_buses (h : q.buses = p.buses) (b : BusId) : q.bus? b = p.bus? b := by
  unfold bus?
  rw [h]

theorem bus?_modifyBus_self {b : BusId} {r : Registry (Listener κ)} (h : p.bus? b = some r)
    (f : Registry (Listener κ) → Registry (Listener κ)) :
    (p.modifyBus b f).bus? b = some (f r) := by
  rw [bus?_modifyBus, if_pos rfl, h]
  rfl

theorem bus?_modifyBus_of_ne {b c : BusId} (h : b ≠ c)
    (f : Registry (Listener κ) → Registry (Listener κ)) : (p.modifyBus b f).bus? c = p.bus? c := by
  rw [bus?_modifyBus, if_neg h]

theorem subscribe_of_some {b : BusId} {r : Registry (Listener κ)} (h : p.bus? b = some r)
    (event : String) (listener : Listener κ) :
    p.subscribe b event listener
      = (some ⟨b, (r.subscribe event listener).1⟩,
        p.modifyBus b fun _ => (r.subscribe event listener).2) := by
  unfold subscribe
  rw [h]

theorem subscribe_of_none {b : BusId} (h : p.bus? b = none) (event : String)
    (listener : Listener κ) : p.subscribe b event listener = (none, p) := by
  unfold subscribe
  rw [h]

theorem model?_subscribe (p : Page κ σ) (b : BusId) (event : String) (listener : Listener κ)
    (m : ModelId) : (p.subscribe b event listener).2.model? m = p.model? m := by
  unfold subscribe
  split
  · rfl
  · rfl

/-! ## Elements -/

theorem element?_modifyElement (p : Page κ σ) (e c : ElementId)
    (f : PageElement κ → PageElement κ) :
    (p.modifyElement e f).element? c = if e = c then (p.element? c).map f else p.element? c := by
  show (p.elements.modify e.index f)[c.index]? = _
  rw [Array.getElem?_modify]
  cases e
  cases c
  simp [element?]

theorem element?_modifyElement_self {e : ElementId} {d : PageElement κ} (h : p.element? e = some d)
    (f : PageElement κ → PageElement κ) : (p.modifyElement e f).element? e = some (f d) := by
  rw [element?_modifyElement, if_pos rfl, h]
  rfl

theorem element?_modifyElement_of_ne {e c : ElementId} (h : e ≠ c)
    (f : PageElement κ → PageElement κ) : (p.modifyElement e f).element? c = p.element? c := by
  rw [element?_modifyElement, if_neg h]

theorem size_modifyElement (p : Page κ σ) (e : ElementId) (f : PageElement κ → PageElement κ) :
    (p.modifyElement e f).elements.size = p.elements.size := Array.size_modify

theorem element?_eq_none_of_size (h : q.elements.size = p.elements.size) {e : ElementId}
    (he : p.element? e = none) : q.element? e = none := by
  unfold element? at he ⊢
  rw [Array.getElem?_eq_none_iff] at he ⊢
  rw [h]
  exact he

theorem exists_element_of_size (h : q.elements.size = p.elements.size) {e : ElementId}
    {d : PageElement κ} (hd : p.element? e = some d) : ∃ d', q.element? e = some d' := by
  rw [← Option.isSome_iff_exists, Option.isSome_iff_ne_none]
  intro hq
  rw [element?_eq_none_of_size h.symm hq] at hd
  cases hd

/-! ## Models -/

theorem model?_modifyModel (p : Page κ σ) (m n : ModelId) (f : Model → Model) :
    (p.modifyModel m f).model? n = if m = n then (p.model? n).map f else p.model? n := by
  show (p.models.modify m.index f)[n.index]? = _
  rw [Array.getElem?_modify]
  cases m
  cases n
  simp [model?]

theorem model?_of_models (h : q.models = p.models) (m : ModelId) : q.model? m = p.model? m := by
  unfold model?
  rw [h]

theorem model?_store_self {m : ModelId} {d : Model} (h : p.model? m = some d) (key : String)
    (value : Value) :
    (p.store m key value).model? m = some { d with values := d.values.set key value } := by
  rw [store, model?_modifyModel, if_pos rfl, h]
  rfl

theorem model?_store_of_none {m : ModelId} (h : p.model? m = none) (key : String) (value : Value) :
    (p.store m key value).model? m = none := by
  rw [store, model?_modifyModel, if_pos rfl, h]
  rfl

theorem model?_store_of_ne {m n : ModelId} (h : m ≠ n) (key : String) (value : Value) :
    (p.store m key value).model? n = p.model? n := by
  rw [store, model?_modifyModel, if_neg h]

/-! ## Views -/

theorem view?_of_views (h : q.views = p.views) (v : ViewId) : q.view? v = p.view? v := by
  unfold view?
  rw [h]

theorem view?_modifyView_of_ne {u v : ViewId} (h : u ≠ v) (f : View → View) (p : Page κ σ) :
    (p.modifyView v f).view? u = p.view? u := by
  have hne : ¬ v.index = u.index := fun he => h (congrArg ViewId.mk he.symm)
  show (p.views.modify v.index f)[u.index]? = _
  rw [Array.getElem?_modify, if_neg hne]
  rfl

theorem view?_modifyView_self {v : ViewId} {view : View} (h : p.view? v = some view)
    (f : View → View) : (p.modifyView v f).view? v = some (f view) := by
  show (p.views.modify v.index f)[v.index]? = _
  rw [Array.getElem?_modify, if_pos rfl]
  exact congrArg (Option.map f) h

theorem exists_view_of_size (h : q.views.size = p.views.size) {v : ViewId} {view : View}
    (hv : p.view? v = some view) : ∃ view', q.view? v = some view' := by
  have hlt : v.index < q.views.size := by
    rw [h]
    exact (Array.getElem?_eq_some_iff.mp hv).1
  exact ⟨_, Array.getElem?_eq_getElem hlt⟩

end Page

namespace Model

theorem get?_written_self (d : Model) (key : String) (value : Value) :
    ({ d with values := d.values.set key value } : Model).get? key = some value :=
  Record.get?_set_self key value d.values

theorem get?_written_of_ne (d : Model) {key other : String} (h : other ≠ key) (value : Value) :
    ({ d with values := d.values.set key value } : Model).get? other = d.get? other :=
  Record.get?_set_of_ne h value d.values

theorem contains_eq (d : Model) (key : String) : d.contains key = (d.get? key).isSome := rfl

/-- Two keys of a model announce themselves by different events. -/
theorem event_injective (d : Model) {j k : String} (h : d.event j = d.event k) : j = k := by
  unfold event changeEvent at h
  have h' := congrArg String.toList h
  simp only [String.toList_append] at h'
  exact String.toList_inj.mp (by simpa using h')

end Model

end Bindery
