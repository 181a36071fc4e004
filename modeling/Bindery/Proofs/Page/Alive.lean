import Bindery.Page.Lifetime
import Bindery.Proofs.Bus.Channels
import Bindery.Proofs.Page.Store

/-!
# What stays alive

An element that is alive in a page was alive in every earlier page that held at least as much.

* `mem_listeners`, `captures_iff`   what the listeners of a page hold
* `Page.Fades`                nothing new is held of the elements of a kind
* `Page.Shrinks`              nothing new is held, by the program, by a listener or by an element
* `elementAlive_of_fades`, `elementAlive_of_shrinks`   so what is alive then was alive before
-/

namespace Bindery

namespace Page

variable {κ σ : Type} {p q r : Page κ σ}

theorem mem_elementsWith {select : PageElement κ → Bool} {e : ElementId} :
    e ∈ p.elementsWith select ↔ ∃ d, p.element? e = some d ∧ select d = true := by
  unfold elementsWith element?
  rw [List.mem_map]
  constructor
  · rintro ⟨⟨d, i⟩, hm, rfl⟩
    obtain ⟨hm, hs⟩ := List.mem_filter.mp hm
    refine ⟨d, ?_, hs⟩
    have := List.mem_zipIdx_iff_getElem?.mp hm
    simpa using this
  · rintro ⟨d, hd, hs⟩
    refine ⟨(d, e.index), List.mem_filter.mpr ⟨?_, hs⟩, rfl⟩
    rw [List.mem_zipIdx_iff_getElem?]
    simpa using hd

theorem mem_owners {es : List ElementId} {e : ElementId} :
    e ∈ p.owners es ↔ ∃ d, p.element? e = some d ∧ ∃ c ∈ es, Child.element c ∈ d.children := by
  unfold owners
  rw [mem_elementsWith]
  simp [PageElement.hasChild]

/-! ## What listeners hold -/

theorem mem_listeners {l : Listener κ} :
    l ∈ p.listeners ↔ ∃ b r, p.bus? b = some r ∧ l ∈ r.listeners := by
  unfold listeners bus?
  rw [List.mem_flatMap]
  constructor
  · rintro ⟨r, hr, hl⟩
    obtain ⟨i, hi, rfl⟩ := Array.getElem_of_mem (Array.mem_toList_iff.mp hr)
    exact ⟨⟨i⟩, _, Array.getElem?_eq_getElem hi, hl⟩
  · rintro ⟨b, r, hr, hl⟩
    exact ⟨r, Array.mem_toList_iff.mpr (Array.mem_of_getElem? hr), hl⟩

theorem captures_iff {h : Handle} : p.captures h = true ↔ ∃ l ∈ p.listeners, h ∈ l.keeps := by
  unfold captures
  simp only [List.any_eq_true, List.contains_iff_mem]

theorem listeners_of_buses (h : q.buses = p.buses) : q.listeners = p.listeners := by
  unfold listeners
  rw [h]

theorem captures_of_buses (h : q.buses = p.buses) (x : Handle) : q.captures x = p.captures x := by
  unfold captures
  rw [listeners_of_buses h]

/-- A listener that captured everything weakly adds nothing to what is held. -/
theorem captures_of_listeners (hl : ∀ l ∈ q.listeners, l ∈ p.listeners ∨ l.keeps = []) {h : Handle}
    (hq : q.captures h = true) : p.captures h = true := by
  obtain ⟨l, hm, hk⟩ := captures_iff.mp hq
  rcases hl l hm with hm | hnone
  · exact captures_iff.mpr ⟨l, hm, hk⟩
  · rw [hnone] at hk
    cases hk

theorem listeners_modifyBus {b : BusId} {f : Registry (Listener κ) → Registry (Listener κ)}
    (hf : ∀ r, p.bus? b = some r → (f r).listeners = r.listeners) :
    (p.modifyBus b f).listeners = p.listeners := by
  have hmap : (p.buses.modify b.index f).map Registry.listeners = p.buses.map Registry.listeners := by
    apply Array.ext_getElem?
    intro i
    rw [Array.getElem?_map, Array.getElem?_map, Array.getElem?_modify]
    split
    · rename_i hi
      subst hi
      cases hb : p.buses[b.index]? with
      | none => rfl
      | some r => exact congrArg some (hf r hb)
    · rfl
  show (p.buses.modify b.index f).toList.flatMap _ = _
  unfold listeners
  rw [List.flatMap_def, List.flatMap_def, ← Array.toList_map, ← Array.toList_map, hmap]

/-- The listeners after one bus was changed. -/
theorem mem_listeners_of_modifyBus {b : BusId} {f : Registry (Listener κ) → Registry (Listener κ)}
    {l : Listener κ} (h : l ∈ (p.modifyBus b f).listeners) :
    l ∈ p.listeners ∨ ∃ r, p.bus? b = some r ∧ l ∈ (f r).listeners := by
  obtain ⟨c, r, hr, hl⟩ := mem_listeners.mp h
  rw [bus?_modifyBus] at hr
  split at hr
  · obtain ⟨r₀, hr₀, rfl⟩ := Option.map_eq_some_iff.mp hr
    rename_i hbc
    exact Or.inr ⟨r₀, hbc ▸ hr₀, hl⟩
  · exact Or.inl (mem_listeners.mpr ⟨c, r, hr, hl⟩)

theorem mem_listeners_of_subscribe {b : BusId} {event : String} {listener l : Listener κ}
    (h : l ∈ (p.subscribe b event listener).2.listeners) : l ∈ p.listeners ∨ l = listener := by
  cases hb : p.bus? b with
  | none =>
    rw [subscribe_of_none hb] at h
    exact Or.inl h
  | some r =>
    rw [subscribe_of_some hb] at h
    rcases mem_listeners_of_modifyBus h with hl | ⟨r', hr', hl⟩
    · exact Or.inl hl
    · cases hb.symm.trans hr'
      exact (Registry.mem_listeners_of_subscribe hl).imp_left
        fun hl => mem_listeners.mpr ⟨b, r, hb, hl⟩

/-! ## Less is held -/

/-- From `p` to `q` nothing came to be held. -/
structure Shrinks (p q : Page κ σ) : Prop where
  size : q.elements.size = p.elements.size
  views : q.views = p.views
  held : ∀ {h}, h ∈ q.held → h ∈ p.held
  captured : ∀ {h}, q.captures h = true → p.captures h = true
  children : ∀ {e d}, q.element? e = some d → ∃ d', p.element? e = some d' ∧
    ∀ c, Child.element c ∈ d.children → Child.element c ∈ d'.children

namespace Shrinks

theorem refl (p : Page κ σ) : Shrinks p p := ⟨rfl, rfl, id, id, fun h => ⟨_, h, fun _ hc => hc⟩⟩

theorem trans (h : Shrinks p q) (k : Shrinks q r) : Shrinks p r where
  size := k.size.trans h.size
  views := k.views.trans h.views
  held hh := h.held (k.held hh)
  captured hh := h.captured (k.captured hh)
  children hd := by
    obtain ⟨d', hd', hc'⟩ := k.children hd
    obtain ⟨d'', hd'', hc''⟩ := h.children hd'
    exact ⟨d'', hd'', fun c hc => hc'' c (hc' c hc)⟩

theorem modifyElement (p : Page κ σ) (e : ElementId) {f : PageElement κ → PageElement κ}
    (hf : ∀ d c, Child.element c ∈ (f d).children → Child.element c ∈ d.children) :
    Shrinks p (p.modifyElement e f) where
  size := size_modifyElement ..
  views := rfl
  held := id
  captured := id
  children {c d} hd := by
    rw [element?_modifyElement] at hd
    split at hd
    · obtain ⟨d', hd', rfl⟩ := Option.map_eq_some_iff.mp hd
      exact ⟨d', hd', hf d'⟩
    · exact ⟨d, hd, fun _ h => h⟩

theorem setText (p : Page κ σ) (e : ElementId) (text : String) : Shrinks p (p.setText e text) := by
  refine modifyElement p e fun d c hc => ?_
  dsimp only at hc
  split at hc
  · cases hc
  · rcases List.mem_singleton.mp hc with ⟨⟩

/-- A bus was changed, and its new listeners captured nothing strongly. -/
theorem modifyBus {b : BusId} {f : Registry (Listener κ) → Registry (Listener κ)}
    (hl : ∀ r, p.bus? b = some r → ∀ l ∈ (f r).listeners, l ∈ r.listeners ∨ l.keeps = []) :
    Shrinks p (p.modifyBus b f) where
  size := rfl
  views := rfl
  held := id
  captured := captures_of_listeners fun l hm => by
    rcases mem_listeners_of_modifyBus hm with hm | ⟨r, hb, hm⟩
    · exact Or.inl hm
    · exact (hl r hb l hm).imp_left fun hm => mem_listeners.mpr ⟨b, r, hb, hm⟩
  children hd := ⟨_, hd, fun _ hc => hc⟩

theorem subscribe (p : Page κ σ) (b : BusId) (event : String) {l : Listener κ} (hl : l.keeps = []) :
    Shrinks p (p.subscribe b event l).2 := by
  cases hb : p.bus? b with
  | none =>
    rw [subscribe_of_none hb]
    exact refl p
  | some r =>
    rw [subscribe_of_some hb]
    refine modifyBus fun r' hr' k hk => ?_
    cases hb.symm.trans hr'
    rcases Registry.mem_listeners_of_subscribe hk with hk | rfl
    · exact Or.inl hk
    · exact Or.inr hl

theorem hold (p : Page κ σ) (h : Handle) : Shrinks (p.hold h) p where
  size := rfl
  views := rfl
  held := List.mem_cons_of_mem _
  captured := id
  children hd := ⟨_, hd, fun _ hc => hc⟩

theorem release (p : Page κ σ) (h : Handle) : Shrinks p (p.release h) where
  size := rfl
  views := rfl
  held hh := List.mem_of_mem_erase hh
  captured := id
  children hd := ⟨_, hd, fun _ hc => hc⟩

end Shrinks

theorem heldViews_of_shrinks (h : Shrinks p q) {v : View} (hv : v ∈ q.heldViews) :
    v ∈ p.heldViews := by
  unfold heldViews at hv ⊢
  rw [h.views] at hv
  obtain ⟨⟨w, i⟩, hm, rfl⟩ := List.mem_map.mp hv
  obtain ⟨hm, hi⟩ := List.mem_filter.mp hm
  refine List.mem_map.mpr ⟨(w, i), List.mem_filter.mpr ⟨hm, ?_⟩, rfl⟩
  unfold isHeld at hi ⊢
  rw [List.contains_iff_mem] at hi ⊢
  exact h.held hi

theorem isRooted_of_shrinks (h : Shrinks p q) {es fs : List ElementId} (hs : ∀ e ∈ es, e ∈ fs)
    (hr : q.isRooted es = true) : p.isRooted fs = true := by
  unfold isRooted at hr ⊢
  rw [Bool.or_eq_true] at hr ⊢
  rcases hr with hr | hr
  · left
    obtain ⟨e, he, hh⟩ := List.any_eq_true.mp hr
    refine List.any_eq_true.mpr ⟨e, hs e he, ?_⟩
    unfold isHeld at hh ⊢
    rw [List.contains_iff_mem] at hh ⊢
    exact h.held hh
  · right
    obtain ⟨v, hv, hk⟩ := List.any_eq_true.mp hr
    obtain ⟨e, he, hk⟩ := List.any_eq_true.mp hk
    exact List.any_eq_true.mpr ⟨v, heldViews_of_shrinks h hv,
      List.any_eq_true.mpr ⟨e, hs e he, hk⟩⟩

theorem isRooted_iff {es : List ElementId} :
    p.isRooted es = true ↔ ∃ e ∈ es, p.isRooted [e] = true := by
  unfold isRooted
  simp only [Bool.or_eq_true, List.any_eq_true, List.mem_singleton, exists_eq_left]
  constructor
  · rintro (⟨e, he, hh⟩ | ⟨v, hv, e, he, hk⟩)
    · exact ⟨e, he, Or.inl hh⟩
    · exact ⟨e, he, Or.inr ⟨v, hv, hk⟩⟩
  · rintro ⟨e, he, hh | ⟨v, hv, hk⟩⟩
    · exact Or.inl ⟨e, he, hh⟩
    · exact Or.inr ⟨v, hv, e, he, hk⟩

/-- Somebody holds the element, or a view that keeps it. -/
theorem isRooted_singleton {e : ElementId} :
    p.isRooted [e] = true ↔ .element e ∈ p.held ∨
      ∃ v view, .view v ∈ p.held ∧ p.view? v = some view ∧ view.keeps e = true := by
  unfold isRooted heldViews isHeld view?
  simp only [Bool.or_eq_true, List.any_eq_true, List.mem_singleton, exists_eq_left,
    List.contains_iff_mem]
  refine or_congr_right ⟨?_, ?_⟩
  · rintro ⟨view, hview, hk⟩
    obtain ⟨⟨w, i⟩, hm, rfl⟩ := List.mem_map.mp hview
    obtain ⟨hm, hheld⟩ := List.mem_filter.mp hm
    rw [List.mem_zipIdx_iff_getElem?, Array.getElem?_toList] at hm
    exact ⟨⟨i⟩, w, List.contains_iff_mem.mp hheld, hm, hk⟩
  · rintro ⟨v, view, hheld, hv, hk⟩
    refine ⟨view, List.mem_map.mpr ⟨(view, v.index), List.mem_filter.mpr ⟨?_, ?_⟩, rfl⟩, hk⟩
    · rw [List.mem_zipIdx_iff_getElem?, Array.getElem?_toList]
      exact hv
    · exact List.contains_iff_mem.mpr hheld

theorem isKept_iff {es : List ElementId} :
    p.isKept es = true ↔ ∃ e ∈ es, p.isRooted [e] = true ∨ p.captures (.element e) = true := by
  unfold isKept
  rw [Bool.or_eq_true, isRooted_iff, List.any_eq_true, ← exists_or]
  simp only [← and_or_left]

/-- From `p` to `q` nothing came to be held among the elements of a kind, and whatever holds one of
them as a child is of the kind. -/
structure Fades (old : ElementId → Prop) (p q : Page κ σ) : Prop where
  size : p.elements.size ≤ q.elements.size
  rooted : ∀ {e}, old e → q.isRooted [e] = true → p.isRooted [e] = true
  captured : ∀ {h}, q.captures h = true → p.captures h = true
  owners : ∀ {e c d}, old c → q.element? e = some d → Child.element c ∈ d.children →
    old e ∧ ∃ d', p.element? e = some d' ∧ Child.element c ∈ d'.children

/-- A shorter search may take more for alive, but never less. -/
theorem someAliveWithin_of_fades {old : ElementId → Prop} (h : Fades old p q) {n m : Nat}
    (hle : n ≤ m) {es fs : List ElementId} (hs : ∀ e ∈ es, old e ∧ e ∈ fs)
    (ha : q.someAliveWithin m es = true) : p.someAliveWithin n fs = true := by
  induction n generalizing m es fs with
  | zero =>
    cases es with
    | nil => cases m <;> cases ha
    | cons e r =>
      cases fs with
      | nil => exact absurd (hs e List.mem_cons_self).2 List.not_mem_nil
      | cons f s => rfl
  | succ n ih =>
    obtain ⟨m, rfl⟩ : ∃ k, m = k + 1 := ⟨m - 1, by omega⟩
    cases es with
    | nil => cases ha
    | cons e r =>
      cases fs with
      | nil => exact absurd (hs e List.mem_cons_self).2 List.not_mem_nil
      | cons f s =>
        rw [someAliveWithin, Bool.or_eq_true] at ha ⊢
        rcases ha with ha | ha
        · obtain ⟨x, hx, hr⟩ := isKept_iff.mp ha
          exact Or.inl (isKept_iff.mpr ⟨x, (hs x hx).2, hr.imp (h.rooted (hs x hx).1) h.captured⟩)
        · refine Or.inr (ih (by omega) (fun c hc => ?_) ha)
          obtain ⟨d, hd, x, hx, hxc⟩ := mem_owners.mp hc
          obtain ⟨hold, d', hd', hc'⟩ := h.owners (hs x hx).1 hd hxc
          exact ⟨hold, mem_owners.mpr ⟨d', hd', x, (hs x hx).2, hc'⟩⟩

theorem elementAlive_of_fades {old : ElementId → Prop} (h : Fades old p q) {e : ElementId}
    (he : old e) (ha : q.elementAlive e = true) : p.elementAlive e = true := by
  refine someAliveWithin_of_fades h (Nat.succ_le_succ h.size) (fun c hc => ?_) ha
  exact ⟨List.mem_singleton.mp hc ▸ he, hc⟩

theorem Shrinks.fades (h : Shrinks p q) : Fades (fun _ => True) p q where
  size := Nat.le_of_eq h.size.symm
  rooted _ hr := isRooted_of_shrinks h (fun _ he => he) hr
  captured := h.captured
  owners _ hd hm := by
    obtain ⟨d', hd', hc⟩ := h.children hd
    exact ⟨trivial, d', hd', hc _ hm⟩

theorem someAliveWithin_of_shrinks (h : Shrinks p q) {n m : Nat} (hle : n ≤ m)
    {es fs : List ElementId} (hs : ∀ e ∈ es, e ∈ fs) (ha : q.someAliveWithin m es = true) :
    p.someAliveWithin n fs = true :=
  someAliveWithin_of_fades h.fades hle (fun e he => ⟨trivial, hs e he⟩) ha

theorem elementAlive_of_shrinks (h : Shrinks p q) {e : ElementId} (ha : q.elementAlive e = true) :
    p.elementAlive e = true :=
  elementAlive_of_fades h.fades trivial ha

/-- The same for models, if handlers stay. -/
theorem modelAlive_of_shrinks (h : Shrinks p q)
    (hh : ∀ {e d}, q.element? e = some d → ∃ d', p.element? e = some d' ∧ d'.handlers = d.handlers)
    {m : ModelId} (ha : q.modelAlive m = true) : p.modelAlive m = true := by
  unfold modelAlive at ha ⊢
  rw [Bool.or_eq_true, Bool.or_eq_true, Bool.or_eq_true, List.any_eq_true] at ha ⊢
  rcases ha with ((hheld | hcaptured) | ⟨v, hv, hm⟩) | hs
  · refine Or.inl (Or.inl (Or.inl ?_))
    unfold isHeld at hheld ⊢
    rw [List.contains_iff_mem] at hheld ⊢
    exact h.held hheld
  · exact Or.inl (Or.inl (Or.inr (h.captured hcaptured)))
  · exact Or.inl (Or.inr ⟨v, heldViews_of_shrinks h hv, hm⟩)
  · refine Or.inr (someAliveWithin_of_shrinks h (Nat.le_of_eq ?_) (fun e he => ?_) hs)
    · rw [h.size]
    obtain ⟨d, hd, hw⟩ := mem_elementsWith.mp he
    obtain ⟨d', hd', heq⟩ := hh hd
    refine mem_elementsWith.mpr ⟨d', hd', ?_⟩
    unfold PageElement.captures at hw ⊢
    rw [heq]
    exact hw

/-! ## The same for pages that agree -/

/-- Nothing that lifetimes depend on differs. -/
structure SameLives (p q : Page κ σ) : Prop where
  elements : q.elements = p.elements
  views : q.views = p.views
  held : q.held = p.held
  captured : ∀ h, q.captures h = p.captures h

namespace SameLives

/-- A bus was changed, but nobody came to listen and nobody went. -/
theorem modifyBus {b : BusId} {f : Registry (Listener κ) → Registry (Listener κ)}
    (hf : ∀ r, p.bus? b = some r → (f r).listeners = r.listeners) : SameLives p (p.modifyBus b f) where
  elements := rfl
  views := rfl
  held := rfl
  captured h := by
    unfold captures
    rw [listeners_modifyBus hf]

theorem store (p : Page κ σ) (m : ModelId) (key : String) (value : Value) :
    SameLives p (p.store m key value) := ⟨rfl, rfl, rfl, fun _ => rfl⟩

theorem shrinks (h : SameLives p q) : Shrinks p q where
  size := congrArg Array.size h.elements
  views := h.views
  held hh := h.held ▸ hh
  captured hh := (h.captured _).symm.trans hh
  children {e d} hd := by
    unfold element? at hd ⊢
    rw [h.elements] at hd
    exact ⟨d, hd, fun _ hc => hc⟩

theorem isRooted (h : SameLives p q) (es : List ElementId) : q.isRooted es = p.isRooted es := by
  unfold Page.isRooted heldViews isHeld
  rw [h.views, h.held]

theorem isKept (h : SameLives p q) (es : List ElementId) : q.isKept es = p.isKept es := by
  unfold Page.isKept
  simp only [h.isRooted, h.captured]

theorem elementsWith (h : SameLives p q) (select : PageElement κ → Bool) :
    q.elementsWith select = p.elementsWith select := by
  unfold Page.elementsWith
  rw [h.elements]

theorem someAliveWithin (h : SameLives p q) (fuel : Nat) (es : List ElementId) :
    q.someAliveWithin fuel es = p.someAliveWithin fuel es := by
  induction fuel generalizing es with
  | zero =>
    cases es with
    | nil => rfl
    | cons e r => rfl
  | succ fuel ih =>
    cases es with
    | nil => rfl
    | cons e r =>
      rw [Page.someAliveWithin, Page.someAliveWithin, h.isKept, ih]
      show _ = (_ || p.someAliveWithin fuel (p.elementsWith _))
      rw [← h.elementsWith]
      rfl

theorem someAlive (h : SameLives p q) (es : List ElementId) : q.someAlive es = p.someAlive es := by
  unfold Page.someAlive
  rw [h.someAliveWithin, h.elements]

theorem elementAlive (h : SameLives p q) (e : ElementId) : q.elementAlive e = p.elementAlive e :=
  h.someAlive [e]

theorem modelAlive (h : SameLives p q) (m : ModelId) : q.modelAlive m = p.modelAlive m := by
  unfold Page.modelAlive
  rw [h.someAlive, h.elementsWith, h.captured]
  unfold heldViews isHeld
  rw [h.views, h.held]

end SameLives

/-! ## What is held -/

theorem isHeld_iff {h : Handle} : p.isHeld h = true ↔ h ∈ p.held := List.contains_iff_mem

theorem elementAlive_of_isKept {e : ElementId} (h : p.isKept [e] = true) :
    p.elementAlive e = true := by
  unfold elementAlive someAlive
  rw [someAliveWithin, h, Bool.true_or]

theorem elementAlive_of_isRooted {e : ElementId} (h : p.isRooted [e] = true) :
    p.elementAlive e = true :=
  elementAlive_of_isKept (isKept_iff.mpr ⟨e, List.mem_singleton_self e, Or.inl h⟩)

/-- What a registered listener captured strongly is alive. -/
theorem elementAlive_of_keeps {l : Listener κ} {e : ElementId} (hl : l ∈ p.listeners)
    (hk : .element e ∈ l.keeps) : p.elementAlive e = true :=
  elementAlive_of_isKept (isKept_iff.mpr ⟨e, List.mem_singleton_self e, Or.inr (captures_iff.mpr ⟨l, hl, hk⟩)⟩)

theorem modelAlive_of_keeps {l : Listener κ} {m : ModelId} (hl : l ∈ p.listeners)
    (hk : .model m ∈ l.keeps) : p.modelAlive m = true := by
  unfold modelAlive
  rw [captures_iff.mpr ⟨l, hl, hk⟩, Bool.or_true, Bool.true_or, Bool.true_or]

theorem isRooted_of_held {e : ElementId} (h : .element e ∈ p.held) : p.isRooted [e] = true := by
  unfold isRooted
  rw [Bool.or_eq_true]
  left
  exact List.any_eq_true.mpr ⟨e, List.mem_singleton_self e, isHeld_iff.mpr h⟩

theorem isRooted_hold {es : List ElementId} (h : p.isRooted es = true) (x : Handle) :
    (p.hold x).isRooted es = true :=
  isRooted_of_shrinks (Shrinks.hold p x) (fun _ hc => hc) h

theorem modelAlive_of_held {m : ModelId} (h : .model m ∈ p.held) : p.modelAlive m = true := by
  unfold modelAlive
  rw [isHeld_iff.mpr h, Bool.true_or, Bool.true_or, Bool.true_or]

/-! ## Holding on to what is alive -/

/-- What the program may take hold of. -/
def isAlive (p : Page κ σ) : Handle → Bool
  | .element e => p.elementAlive e
  | .model m => p.modelAlive m
  | .view v => p.isHeld (.view v)

theorem someAliveWithin_of_isKept {es : List ElementId} (h : p.isKept es = true) (n : Nat) :
    p.someAliveWithin n es = true := by
  cases es with
  | nil =>
    obtain ⟨e, he, -⟩ := isKept_iff.mp h
    cases he
  | cons e r =>
    cases n with
    | zero => rfl
    | succ n => rw [someAliveWithin, h, Bool.true_or]

theorem isRooted_of_hold {h : Handle} {es : List ElementId} (hr : (p.hold h).isRooted es = true)
    (hv : ∀ v, h = .view v → p.isHeld h = true) : p.isRooted es = true ∨ ∃ e ∈ es, h = .element e := by
  have hview : ∀ v, (p.hold h).isHeld (.view v) = true → p.isHeld (.view v) = true := by
    intro v hm
    rcases List.mem_cons.mp (isHeld_iff.mp hm) with rfl | hm
    · exact hv v rfl
    · exact isHeld_iff.mpr hm
  unfold isRooted at hr ⊢
  rw [Bool.or_eq_true] at hr ⊢
  rcases hr with hr | hr
  · obtain ⟨e, he, hm⟩ := List.any_eq_true.mp hr
    rcases List.mem_cons.mp (isHeld_iff.mp hm) with heq | hm
    · exact Or.inr ⟨e, he, heq.symm⟩
    · exact Or.inl (Or.inl (List.any_eq_true.mpr ⟨e, he, isHeld_iff.mpr hm⟩))
  · obtain ⟨v, hm, hk⟩ := List.any_eq_true.mp hr
    obtain ⟨⟨w, i⟩, hw, rfl⟩ := List.mem_map.mp hm
    obtain ⟨hw, hi⟩ := List.mem_filter.mp hw
    refine Or.inl (Or.inr (List.any_eq_true.mpr ⟨w, ?_, hk⟩))
    exact List.mem_map.mpr ⟨(w, i), List.mem_filter.mpr ⟨hw, hview _ hi⟩, rfl⟩

theorem isKept_of_hold {h : Handle} {es : List ElementId} (hk : (p.hold h).isKept es = true)
    (hv : ∀ v, h = .view v → p.isHeld h = true) : p.isKept es = true ∨ ∃ e ∈ es, h = .element e := by
  unfold isKept at hk ⊢
  rcases Bool.or_eq_true _ _ ▸ hk with hr | hc
  · refine (isRooted_of_hold hr hv).imp_left fun hr => ?_
    rw [hr, Bool.true_or]
  · -- taking hold changes nothing on the buses
    change es.any (fun e => p.captures (.element e)) = true at hc
    exact Or.inl (by rw [hc, Bool.or_true])

theorem someAliveWithin_of_hold {h : Handle} (ha : p.isAlive h = true) {n : Nat}
    (hn : n ≤ p.elements.size + 1) {es : List ElementId}
    (hs : (p.hold h).someAliveWithin n es = true) : p.someAliveWithin n es = true := by
  induction n generalizing es with
  | zero =>
    cases es with
    | nil => cases hs
    | cons e r => rfl
  | succ n ih =>
    cases es with
    | nil => cases hs
    | cons e r =>
      rw [someAliveWithin, Bool.or_eq_true] at hs
      rcases hs with hs | hs
      · have hroot := isKept_of_hold hs fun v hv => by
          subst hv
          exact ha
        rcases hroot with hroot | ⟨x, hx, rfl⟩
        · exact someAliveWithin_of_isKept hroot _
        · refine someAliveWithin_of_shrinks (Shrinks.refl p) hn (fun c hc => ?_) ha
          rw [List.mem_singleton.mp hc]
          exact hx
      · have hrest : p.someAliveWithin n (p.owners (e :: r)) = true := ih (by omega) hs
        rw [someAliveWithin, hrest, Bool.or_true]

/-- Holding on to what is alive brings nothing back to life. -/
theorem elementAlive_of_hold {h : Handle} (ha : p.isAlive h = true) {e : ElementId}
    (he : (p.hold h).elementAlive e = true) : p.elementAlive e = true :=
  someAliveWithin_of_hold ha (Nat.le_refl _) he

end Page

end Bindery
