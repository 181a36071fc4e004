import Bindery.Engine.Delivery
import Bindery.Proofs.Engine.Runs

/-!
# Publishing, one part at a time

What `Engine.publishWith` and `Engine.deliver` do to a page, case by case.

* `publishWith_of_entered`   publishing is one delivery between entering and leaving
* `deliver_of_called`        a listener that is there when its turn comes
* `write_of_observed`        a write is a value stored and then announced
-/

namespace Bindery

namespace Engine

variable {κ σ : Type} {callbacks : Callbacks κ σ} {engine : Engine κ σ} {bus : BusId}
  {event : String} {value : Value} {p : Page κ σ} {r : Registry (Listener κ)}

/-! ## Deliveries -/

theorem deliver_of_gone {generation i : Nat} {rest : List Nat} (hb : p.bus? bus = some r)
    (hs : r.slot? event generation i = none) :
    deliver callbacks engine bus event generation value (i :: rest) p = some (.ok (), p) := by
  rw [deliver, Run.get_bind, hb, Option.bind_some, hs]
  rfl

theorem deliver_of_empty {generation i : Nat} {rest : List Nat} (hb : p.bus? bus = some r)
    (hs : r.slot? event generation i = some none) :
    deliver callbacks engine bus event generation value (i :: rest) p
      = deliver callbacks engine bus event generation value rest p := by
  rw [deliver, Run.get_bind, hb, Option.bind_some, hs]

section

variable {generation i : Nat} {rest : List Nat} {l : Listener κ} {q : Page κ σ}

theorem deliver_of_called (hb : p.bus? bus = some r)
    (hs : r.slot? event generation i = some (some l))
    (hn : notify callbacks engine l value p = some (.ok (), q)) :
    deliver callbacks engine bus event generation value (i :: rest) p
      = deliver callbacks engine bus event generation value rest q := by
  rw [deliver, Run.get_bind, hb, Option.bind_some, hs]
  exact Run.bind_of_eq hn _

theorem deliver_of_failed {failure : BusError} (hb : p.bus? bus = some r)
    (hs : r.slot? event generation i = some (some l))
    (hn : notify callbacks engine l value p = some (.error failure, q)) :
    deliver callbacks engine bus event generation value (i :: rest) p
      = some (.error failure, q) := by
  rw [deliver, Run.get_bind, hb, Option.bind_some, hs]
  exact Run.bind_of_eq hn _

end

/-! ## Publishing -/

theorem publishWith_of_absent (hb : p.bus? bus = none) :
    publishWith callbacks engine bus event value p = some (.ok (), p) := by
  rw [publishWith, Run.get_bind, hb]
  rfl

theorem publishWith_of_silent (hb : p.bus? bus = some r) (he : r.enter event = .ok none) :
    publishWith callbacks engine bus event value p = some (.ok (), p) := by
  rw [publishWith, Run.get_bind, hb]
  simp only [he]
  rfl

theorem publishWith_of_refused {failure : BusError} (hb : p.bus? bus = some r)
    (he : r.enter event = .error failure) :
    publishWith callbacks engine bus event value p = some (.error failure, p) := by
  rw [publishWith, Run.get_bind, hb]
  simp only [he]
  rfl

theorem publishWith_of_entered {d : Delivery} {r' : Registry (Listener κ)} {outcome : Outcome}
    {q : Page κ σ} (hb : p.bus? bus = some r) (he : r.enter event = .ok (some (d, r')))
    (hd : deliver callbacks engine bus event d.generation value (List.range d.length)
      (p.modifyBus bus fun _ => r') = some (outcome, q)) :
    publishWith callbacks engine bus event value p
      = some (outcome, q.modifyBus bus Registry.leave) := by
  rw [publishWith, Run.get_bind, hb]
  simp only [he]
  rw [Run.modify_bind, Run.bind_of_eq hd]
  rfl

theorem publishWith_eq_some_of_entered {d : Delivery} {r' : Registry (Listener κ)}
    {outcome : Outcome} {q : Page κ σ} (hb : p.bus? bus = some r)
    (he : r.enter event = .ok (some (d, r')))
    (h : publishWith callbacks engine bus event value p = some (outcome, q)) :
    ∃ q₁, deliver callbacks engine bus event d.generation value (List.range d.length)
        (p.modifyBus bus fun _ => r') = some (outcome, q₁) ∧
      q = q₁.modifyBus bus Registry.leave := by
  rw [publishWith, Run.get_bind, hb] at h
  simp only [he] at h
  rw [Run.modify_bind] at h
  obtain ⟨outcome', q₁, hd, hend⟩ := Run.bind_eq_some.mp h
  cases hend
  exact ⟨q₁, hd, rfl⟩

/-! ## Writing -/

section

variable {m : Captured ModelId} (e : ElementId) (property key : String) (control : Control)

theorem handle_of_finds (h : p.finds m = true) :
    handle callbacks engine e (.writeBack m property key control) p
      = engine.write m.target key (control.coerce (p.property e property)) p := by
  rw [handle, Run.get_bind, if_pos h]

theorem handle_of_lost (h : ¬ p.finds m = true) :
    handle callbacks engine e (.writeBack m property key control) p = some (.ok (), p) := by
  rw [handle, Run.get_bind, if_neg h]
  rfl

end

theorem handle_of_strong (e : ElementId) (m : ModelId) (property key : String) (control : Control) :
    handle callbacks engine e (.writeBack (.strong m) property key control) p
      = engine.write m key (control.coerce (p.property e property)) p :=
  handle_of_finds e property key control rfl

theorem write_of_silent {m : ModelId} {d : Model} {key : String} (hm : p.model? m = some d)
    (hk : key ∉ d.observed) :
    engine.write m key value p = some (.ok (), p.store m key value) := by
  rw [write, Run.get_bind, hm]
  simp only [Run.modify_bind, if_neg hk]
  rfl

theorem write_of_observed {m : ModelId} {d : Model} {key : String} (hm : p.model? m = some d)
    (hk : key ∈ d.observed) :
    engine.write m key value p
      = holding (.model m) (engine.publish d.bus (d.event key) value) (p.store m key value) := by
  rw [write, Run.get_bind, hm]
  simp only [Run.modify_bind, if_pos hk]

end Engine

end Bindery
