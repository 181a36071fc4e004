import Bindery.Proofs.Binding.Wiring
import Bindery.Proofs.Page.Grafting
import Bindery.Proofs.Page.Receiving
import Bindery.View.Setup

/-!
# What is in flight

The events in flight on the buses of a page.  Nothing but the beginning and the end of a delivery
changes them.

* `Page.flight?`     the depth limit of a bus, and what is in flight on it
* `Page.Level`       the same buses with the same events in flight
* `Page.Balanced`    the same, but for new buses, on which nothing is in flight
-/

namespace Bindery.Page

variable {κ σ : Type} {p q s : Page κ σ}

/-- How many events may be in flight on a bus, and which are. -/
def flight? (p : Page κ σ) (b : BusId) : Option (Nat × List String) :=
  (p.bus? b).map fun r => (r.maxDepth, r.inFlight)

theorem flight?_of_bus? {b : BusId} {r : Registry (Listener κ)} (h : p.bus? b = some r) :
    p.flight? b = some (r.maxDepth, r.inFlight) := by
  unfold flight?
  rw [h]
  rfl

theorem flight?_eq_some {b : BusId} {limit : Nat} {events : List String} :
    p.flight? b = some (limit, events) ↔
      ∃ r, p.bus? b = some r ∧ r.maxDepth = limit ∧ r.inFlight = events := by
  unfold flight?
  rw [Option.map_eq_some_iff]
  simp only [Prod.mk.injEq]

theorem flight?_of_buses (h : q.buses = p.buses) (b : BusId) : q.flight? b = p.flight? b := by
  unfold flight?
  rw [bus?_of_buses h]

/-- A bus that changed, with as many events allowed as before. -/
theorem flight?_modifyBus (p : Page κ σ) (b : BusId) {f : Registry (Listener κ) → Registry (Listener κ)}
    (hf : ∀ r, (f r).maxDepth = r.maxDepth) (c : BusId) :
    (p.modifyBus b f).flight? c
      = if b = c then (p.bus? c).map fun r => (r.maxDepth, (f r).inFlight) else p.flight? c := by
  unfold flight?
  rw [bus?_modifyBus]
  split
  · rw [Option.map_map]
    congr 1
    funext r
    show ((f r).maxDepth, (f r).inFlight) = _
    rw [hf]
  · rfl

/-! ## Buses that stay -/

/-- Asking a shelf changes shelves only. -/
theorem request_eq (p : Page κ σ) (shelf : ShelfId) (path : String) :
    (p.request shelf path).2 = { p with shelves := (p.request shelf path).2.shelves } := by
  unfold request
  split <;> rfl

theorem buses_openView (p : Page κ σ) (b : BusId) (request : ViewRequest) :
    (p.openView b request).2.buses = p.buses := by
  unfold openView
  split <;> rfl

theorem elements_openView (p : Page κ σ) (b : BusId) (request : ViewRequest) :
    (p.openView b request).2.elements = p.elements := by
  unfold openView
  split <;> rfl

/-! ## The same in flight -/

/-- The same buses, and on each the same events in flight. -/
structure Level (p q : Page κ σ) : Prop where
  size : q.buses.size = p.buses.size
  flight : ∀ b, q.flight? b = p.flight? b

namespace Level

theorem refl (p : Page κ σ) : p.Level p := ⟨rfl, fun _ => rfl⟩

theorem trans (h : p.Level q) (k : q.Level s) : p.Level s :=
  ⟨k.size.trans h.size, fun b => (k.flight b).trans (h.flight b)⟩

theorem of_buses (h : q.buses = p.buses) : p.Level q :=
  ⟨congrArg Array.size h, flight?_of_buses h⟩

/-- A bus that changed, but not what is in flight on it. -/
theorem modifyBus (p : Page κ σ) (b : BusId) {f : Registry (Listener κ) → Registry (Listener κ)}
    (hd : ∀ r, (f r).maxDepth = r.maxDepth) (hf : ∀ r, (f r).inFlight = r.inFlight) :
    p.Level (p.modifyBus b f) where
  size := Array.size_modify
  flight c := by
    rw [flight?_modifyBus p b hd]
    simp only [hf]
    exact ite_self _

theorem subscribe (p : Page κ σ) (b : BusId) (event : String) (l : Listener κ) :
    p.Level (p.subscribe b event l).2 := by
  cases hb : p.bus? b with
  | none =>
    rw [subscribe_of_none hb]
    exact refl p
  | some r =>
    rw [subscribe_of_some hb]
    refine ⟨Array.size_modify, fun c => ?_⟩
    by_cases hc : b = c
    · subst hc
      rw [flight?_of_bus? (bus?_modifyBus_self hb _), flight?_of_bus? hb,
        r.maxDepth_subscribe, r.inFlight_subscribe]
    · unfold flight?
      rw [bus?_modifyBus_of_ne hc]

theorem unsubscribe (p : Page κ σ) (place : Subscription) : p.Level (p.unsubscribe place) :=
  modifyBus p place.bus (fun r => r.maxDepth_remove place.place) fun r => r.inFlight_remove place.place

theorem clear (p : Page κ σ) (b : BusId) : p.Level (p.modifyBus b Registry.clear) :=
  modifyBus p b (fun _ => rfl) fun _ => rfl

theorem receive (p : Page κ σ) (value : Value) (l : Listener κ) : p.Level (p.receive value l) := by
  rw [receive_eq]
  exact of_buses rfl

theorem setMarkup (p : Page κ σ) (e : ElementId) (markup : String) :
    p.Level (p.setMarkup e markup) := by
  rw [setMarkup_eq]
  exact of_buses rfl

theorem request (p : Page κ σ) (shelf : ShelfId) (path : String) :
    p.Level (p.request shelf path).2 := by
  rw [request_eq]
  exact of_buses rfl

theorem openView (p : Page κ σ) (b : BusId) (request : ViewRequest) :
    p.Level (p.openView b request).2 := of_buses (buses_openView p b request)

theorem bindAttributes (p : Page κ σ) (b : BusId) (m : ModelId) (e : ElementId)
    (entries : List (String × String)) : p.Level (p.bindAttributes b m e entries).2 :=
  bindAttributes_keeps (fun _ _ _ _ _ h => h.trans (of_buses rfl)) (fun _ _ _ h => h.trans (of_buses rfl))
    (fun q event _ h => h.trans (subscribe q b event _)) (refl p) entries

end Level

/-! ## New buses -/

/-- On each bus the same events are in flight, and on new buses none are. -/
def Balanced (p q : Page κ σ) : Prop :=
  ∀ b, q.flight? b = p.flight? b ∨ p.flight? b = none ∧ ∃ limit, q.flight? b = some (limit, [])

namespace Balanced

theorem refl (p : Page κ σ) : p.Balanced p := fun _ => Or.inl rfl

theorem of_level (h : p.Level q) : p.Balanced q := fun b => Or.inl (h.flight b)

theorem trans (h : p.Balanced q) (k : q.Balanced s) : p.Balanced s := by
  intro b
  rcases k b with hs | ⟨hq, hs⟩
  · rw [hs]
    exact h b
  · rcases h b with hp | ⟨-, limit, hp⟩
    · exact Or.inr ⟨hp ▸ hq, hs⟩
    · rw [hp] at hq
      cases hq

theorem addBus (p : Page κ σ) (limit : Nat) : p.Balanced (p.addBus limit).2 := by
  intro b
  by_cases hb : b.index < p.buses.size
  · left
    have h : (p.buses.push { maxDepth := limit })[b.index]? = p.buses[b.index]? := by
      rw [Array.getElem?_push_lt hb, Array.getElem?_eq_getElem hb]
    show ((p.buses.push { maxDepth := limit })[b.index]?).map _ = _
    rw [h]
    rfl
  · have hnone : p.buses[b.index]? = none := Array.getElem?_eq_none (by omega)
    have hp : p.flight? b = none := by
      show (p.buses[b.index]?).map _ = _
      rw [hnone]
      rfl
    rw [hp]
    by_cases hlast : b.index = p.buses.size
    · right
      refine ⟨rfl, limit, ?_⟩
      show ((p.buses.push { maxDepth := limit })[b.index]?).map _ = _
      rw [hlast, Array.getElem?_push_size]
      rfl
    · left
      show ((p.buses.push { maxDepth := limit })[b.index]?).map _ = _
      rw [Array.getElem?_eq_none (by rw [Array.size_push]; omega)]
      rfl

theorem flight (h : p.Balanced q) {b : BusId} {x : Nat × List String} (hp : p.flight? b = some x) :
    q.flight? b = some x := by
  rcases h b with hq | ⟨hn, -⟩
  · exact hq.trans hp
  · rw [hn] at hp
    cases hp

end Balanced

end Bindery.Page
