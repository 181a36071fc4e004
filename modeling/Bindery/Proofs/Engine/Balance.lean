import Bindery.Proofs.Engine.Preserving
import Bindery.Proofs.Page.Flights

/-!
# Balance

Whatever is called, and however it ends, the same events are in flight afterwards.  Publishing takes
away the last event in flight without looking at it, and it is always its own, since everything called
in between is balanced.

* `ordinary_level`        what writing and binding change leaves in flight what was
* `Engine.Balanced`       an engine that leaves in flight what was
* `balanced_ofFrames`     every engine is one
-/

namespace Bindery

variable {κ σ α β : Type}

/-! ## The routines of a page are level -/

open Page

theorem Page.ordinary_level : Ordinary (Page.Level (κ := κ) (σ := σ)) where
  refl := .refl
  hold _ _ := .of_buses rfl
  release _ _ := .of_buses rfl
  store _ _ _ _ := .of_buses rfl
  subscribe := Page.Level.subscribe
  bindAttributes := Page.Level.bindAttributes

def Call.KeepsBuses : Call κ → Prop
  | openBus _ => False
  | _ => True

def Call.FiresNothing : Call κ → Prop
  | dispatch .. => False
  | _ => True

theorem Call.level_routine {fires : Prop} {c : Call κ} (hc : c.KeepsBuses)
    (hfires : c.FiresNothing ∨ fires) : (c.routine : Routine κ σ _).Within Page.Level fires := by
  cases c with
  | openBus limit => cases hc
  | subscribe bus event code => exact .amendGet fun p => Page.Level.subscribe p bus event _
  | unsubscribe s => exact .amend fun p => Page.Level.unsubscribe p s
  | clear bus => exact .amend fun p => Page.Level.clear p bus
  | publish bus event value => exact .announce bus event value
  | observe bus name values => exact .amendGet fun _ => Page.Level.of_buses rfl
  | write m key value => exact ordinary_level.write m key value
  | create tag => exact .amendGet fun _ => Page.Level.of_buses rfl
  | setMarkup e markup => exact .amend fun p => Page.Level.setMarkup p e markup
  | dispatch e kind => exact .fire (hfires.resolve_left id) e kind
  | bind bus m e => exact ordinary_level.bindElement bus m e
  | stock entries => exact .amendGet fun _ => Page.Level.of_buses rfl
  | openView bus request => exact .amendGet fun p => Page.Level.openView p bus request
  | load v shelf =>
    exact ordinary_level.load (fun _ _ => .of_buses rfl) Page.Level.setMarkup fun s _ p path =>
      Page.Level.request p s path
  | populate v markup =>
    exact ordinary_level.populate (fun _ _ => .of_buses rfl) Page.Level.setMarkup markup
  | _ => exact .amend fun _ => Page.Level.of_buses rfl

theorem Call.balanced_routine (c : Call κ) : (c.routine : Routine κ σ _).Within Balanced True := by
  by_cases hc : c.KeepsBuses
  · exact (level_routine hc (Or.inr trivial)).mono (fun _ _ h => .of_level h) fun h => h
  · cases c with
    | openBus limit => exact .amendGet fun p => .addBus p limit
    | _ => exact absurd trivial hc

theorem Program.balanced_routine (program : Program κ σ α) :
    program.routine.Within Balanced True := by
  induction program with
  | done a => trivial
  | inspect next ih => exact ih
  | amend f next ih => exact ⟨fun _ => .of_level (Page.Level.of_buses rfl), ih⟩
  | call c next ih => exact (Call.balanced_routine c).bind ih

/-- A listener of a binding calls nothing. -/
theorem Listener.level_routine {fires : Prop} (callbacks : Callbacks κ σ) (value : Value)
    {l : Listener κ} (h : l.isBinding = true) : (l.routine callbacks value).Within Page.Level fires := by
  cases l with
  | callback code => cases h
  | _ => exact ⟨fun p => Page.Level.receive p value _, trivial⟩

theorem Listener.balanced_routine (callbacks : Callbacks κ σ) (value : Value) (l : Listener κ) :
    (l.routine callbacks value).Within Balanced True := by
  cases l with
  | callback code => exact Program.balanced_routine _
  | _ => exact ⟨fun p => .of_level (Page.Level.receive p value _), trivial⟩

theorem Handler.balanced_routine (callbacks : Callbacks κ σ) (e : ElementId) (handler : Handler κ) :
    (handler.routine callbacks e).Within Balanced True := by
  cases handler with
  | writeBack m property key control =>
    intro p
    dsimp only
    split
    · exact (ordinary_level.write m.target key _).mono (fun _ _ h => .of_level h) fun h => h
    · trivial
  | callback code => exact Program.balanced_routine _

/-! ## Engines -/

/-- Whatever the engine carries out, the same events are in flight afterwards. -/
structure Engine.Balanced (engine : Engine κ σ) : Prop where
  publish : ∀ {bus event value p a q}, engine.publish bus event value p = some (a, q) → p.Balanced q
  dispatch : ∀ {e kind p a q}, engine.dispatch e kind p = some (a, q) → p.Balanced q

namespace Engine

variable {callbacks : Callbacks κ σ} {engine : Engine κ σ} {p q : Page κ σ} {a : α}

/-- What is in flight is a property that the engine keeps. -/
theorem Balanced.preserves (he : engine.Balanced) (p : Page κ σ) : engine.Preserves p.Balanced :=
  ⟨fun h hp => hp.trans (he.publish h), fun h hp => hp.trans (he.dispatch h)⟩

theorem Balanced.routine (he : engine.Balanced) {routine : Routine κ σ α}
    (hr : routine.Within Page.Balanced True) (h : routine.run engine p = some (a, q)) :
    p.Balanced q :=
  (he.preserves p).routine (hr.mono (fun _ _ h hp => hp.trans h) fun h => h) h (.refl p)

theorem Balanced.notify (he : engine.Balanced) {l : Listener κ} {value : Value} {outcome : Outcome}
    (h : notify callbacks engine l value p = some (outcome, q)) : p.Balanced q := by
  rw [notify_eq] at h
  exact he.routine (l.balanced_routine callbacks value) h

theorem Balanced.handle (he : engine.Balanced) {e : ElementId} {handler : Handler κ}
    {outcome : Outcome} (h : handle callbacks engine e handler p = some (outcome, q)) :
    p.Balanced q := by
  rw [handle_eq] at h
  exact he.routine (handler.balanced_routine callbacks e) h

theorem Balanced.deliver (he : engine.Balanced) {bus : BusId} {event : String} {generation : Nat}
    {value : Value} {turns : List Nat} {outcome : Outcome}
    (h : deliver callbacks engine bus event generation value turns p = some (outcome, q)) :
    p.Balanced q :=
  Preserves.deliver (fun hn hp => hp.trans (he.notify hn)) h (.refl p)

theorem Balanced.handleAll (he : engine.Balanced) {e : ElementId} {handlers : List (Handler κ)}
    {outcome : Outcome} (h : handleAll callbacks engine e handlers p = some (outcome, q)) :
    p.Balanced q :=
  Preserves.handleAll (fun hn hp => hp.trans (he.handle hn)) h (.refl p)

theorem flight?_enter {bus : BusId} {event : String} {r r' : Registry (Listener κ)} {d : Delivery}
    (hb : p.bus? bus = some r) (he : r.enter event = .ok (some (d, r'))) (c : BusId) :
    (p.modifyBus bus fun _ => r').flight? c
      = if bus = c then some (r.maxDepth, r.inFlight ++ [event]) else p.flight? c := by
  obtain ⟨-, -, rfl⟩ := Registry.enter_eq_some he
  split
  · rename_i hbc
    subst hbc
    exact Page.flight?_of_bus? (Page.bus?_modifyBus_self hb _)
  · rename_i hbc
    unfold Page.flight?
    rw [Page.bus?_modifyBus_of_ne hbc]

theorem flight?_leave {bus : BusId} {limit : Nat} {events : List String} {event : String}
    (h : p.flight? bus = some (limit, events ++ [event])) (c : BusId) :
    (p.modifyBus bus Registry.leave).flight? c
      = if bus = c then some (limit, events) else p.flight? c := by
  rw [Page.flight?_modifyBus p bus (f := Registry.leave) fun _ => rfl]
  split
  · rename_i hbc
    subst hbc
    obtain ⟨r, hr, rfl, hevents⟩ := Page.flight?_eq_some.mp h
    rw [hr]
    show some (r.maxDepth, r.inFlight.dropLast) = _
    rw [hevents, List.dropLast_concat]
  · rfl

/-- One delivery: the event that came into flight is the one that leaves. -/
theorem Balanced.publishWith (he : engine.Balanced) {bus : BusId} {event : String} {value : Value}
    {outcome : Outcome} (h : publishWith callbacks engine bus event value p = some (outcome, q)) :
    p.Balanced q := by
  cases hb : p.bus? bus with
  | none =>
    rw [publishWith_of_absent hb] at h
    cases h
    exact .refl _
  | some r =>
    cases hr : r.enter event with
    | error failure =>
      rw [publishWith_of_refused hb hr] at h
      cases h
      exact .refl _
    | ok entered =>
      cases entered with
      | none =>
        rw [publishWith_of_silent hb hr] at h
        cases h
        exact .refl _
      | some x =>
        obtain ⟨s, hd, rfl⟩ := publishWith_eq_some_of_entered hb hr h
        have hs := he.deliver hd
        have hself := hs.flight ((flight?_enter hb hr bus).trans (if_pos rfl))
        intro c
        rw [flight?_leave hself c]
        by_cases hbc : bus = c
        · subst hbc
          rw [if_pos rfl]
          exact Or.inl (Page.flight?_of_bus? hb).symm
        · have hc := hs c
          rw [flight?_enter hb hr, if_neg hbc] at hc
          rw [if_neg hbc]
          exact hc

theorem balanced_ofFrames (callbacks : Callbacks κ σ) (frames : Nat) :
    (ofFrames callbacks frames).Balanced := by
  induction frames with
  | zero => exact ⟨fun h => (nomatch h), fun h => (nomatch h)⟩
  | succ frames ih =>
    refine ⟨fun h => ih.publishWith h, fun {e kind p a q} h => ?_⟩
    obtain ⟨s, hs, rfl⟩ := Run.holding_eq_some.mp h
    have hhandled := ih.handleAll hs
    have hhold : p.Balanced (p.hold (.element e)) := .of_level (Page.Level.of_buses rfl)
    exact (hhold.trans hhandled).trans (.of_level (Page.Level.of_buses rfl))

end Engine

end Bindery
