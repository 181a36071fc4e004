import Mathlib.Algebra.Order.BigOperators.Group.Finset
import Bindery.Proofs.Engine.Balance

/-!
# Calls return

A publish that is let in takes one of the places that its bus has for events in flight, and holds it
for as long as its listeners are called.  So as long as no buses are made and no handler fires events,
calls nest at most twice as deep as there are places left, whoever listens by then.

* `Page.room`          how many more events may come into flight
* `Callbacks.Bounded`  what listeners and handlers may call
* `Engine.Settles`     a run that returns, the same with any number of frames that is large enough
* `calls_return`       publishing, writing and firing return
-/

namespace Bindery

variable {κ σ α β : Type}

/-! ## Room -/

def freePlaces : Option (Nat × List String) → Nat
  | some (limit, events) => limit - events.length
  | none => 0

/-- How many more events may come into flight, on all buses. -/
def Page.room (p : Page κ σ) : Nat := ∑ i ∈ Finset.range p.buses.size, freePlaces (p.flight? ⟨i⟩)

theorem Page.Level.room {p q : Page κ σ} (h : p.Level q) : q.room = p.room := by
  unfold Page.room
  rw [h.size]
  exact Finset.sum_congr rfl fun i _ => by rw [h.flight]

theorem Page.room_enter {p : Page κ σ} {bus : BusId} {event : String}
    {r r' : Registry (Listener κ)} {d : Delivery} (hb : p.bus? bus = some r)
    (he : r.enter event = .ok (some (d, r'))) : (p.modifyBus bus fun _ => r').room < p.room := by
  obtain ⟨-, hfree, -⟩ := Registry.enter_eq_some he
  have hflight := Engine.flight?_enter hb he
  have hself := hflight bus
  rw [if_pos rfl] at hself
  have hsize : (p.modifyBus bus fun _ => r').buses.size = p.buses.size := Array.size_modify
  unfold Page.room
  rw [hsize]
  refine Finset.sum_lt_sum (fun i _ => ?_) ⟨bus.index, ?_, ?_⟩
  · by_cases hi : bus = ⟨i⟩
    · subst hi
      rw [hself, Page.flight?_of_bus? hb]
      show r.maxDepth - (r.inFlight ++ [event]).length ≤ r.maxDepth - r.inFlight.length
      rw [List.length_append]
      omega
    · rw [hflight, if_neg hi]
  · exact Finset.mem_range.mpr (Array.getElem?_eq_some_iff.mp hb).1
  · rw [hself, Page.flight?_of_bus? hb]
    show r.maxDepth - (r.inFlight ++ [event]).length < r.maxDepth - r.inFlight.length
    rw [List.length_append, List.length_singleton]
    omega

theorem Page.Level.leave {p q : Page κ σ} {bus : BusId} {event : String}
    {r r' : Registry (Listener κ)} {d : Delivery} (hb : p.bus? bus = some r)
    (he : r.enter event = .ok (some (d, r'))) (h : (p.modifyBus bus fun _ => r').Level q) :
    p.Level (q.modifyBus bus Registry.leave) where
  size := Array.size_modify.trans (h.size.trans Array.size_modify)
  flight c := by
    have hself : q.flight? bus = some (r.maxDepth, r.inFlight ++ [event]) :=
      (h.flight bus).trans ((Engine.flight?_enter hb he bus).trans (if_pos rfl))
    rw [Engine.flight?_leave hself c, h.flight, Engine.flight?_enter hb he]
    split
    · rename_i hbc
      subst hbc
      exact (Page.flight?_of_bus? hb).symm
    · rfl

/-! ## Runs that return -/

/-- Listeners make no bus, and handlers besides fire no events. -/
structure Callbacks.Bounded (callbacks : Callbacks κ σ) : Prop where
  onPublish : ∀ code value, (callbacks.onPublish code value).Tame Call.KeepsBuses
  onEvent : ∀ code e, (callbacks.onEvent code e).Tame fun c => c.KeepsBuses ∧ c.FiresNothing

namespace Engine

/-- With no more than `room` places left, the run returns with `frames` frames, and with more of them
it returns the same. -/
def Settles (callbacks : Callbacks κ σ) (room frames : Nat) (run : Engine κ σ → Run κ σ α) : Prop :=
  ∀ p : Page κ σ, p.room ≤ room → ∃ a q, p.Level q ∧
    ∀ n, frames ≤ n → run (ofFrames callbacks n) p = some (a, q)

namespace Settles

variable {callbacks : Callbacks κ σ} {room frames : Nat} {run : Engine κ σ → Run κ σ α}

theorem mono {frames' : Nat} (h : Settles callbacks room frames run) (hf : frames ≤ frames') :
    Settles callbacks room frames' run := by
  intro p hp
  obtain ⟨a, q, hq, hn⟩ := h p hp
  exact ⟨a, q, hq, fun n hle => hn n (hf.trans hle)⟩

theorem pure (a : α) : Settles callbacks room frames fun _ => (Pure.pure a : Run κ σ α) :=
  fun p _ => ⟨a, p, .refl p, fun _ _ => rfl⟩

theorem bind {f : α → Engine κ σ → Run κ σ β} (h : Settles callbacks room frames run)
    (hf : ∀ a, Settles callbacks room frames (f a)) :
    Settles callbacks room frames fun engine => run engine >>= fun a => f a engine := by
  intro p hp
  obtain ⟨a, q, hpq, hrun⟩ := h p hp
  obtain ⟨b, s, hqs, hnext⟩ := hf a q (hpq.room ▸ hp)
  exact ⟨b, s, hpq.trans hqs, fun n hn => (Run.bind_of_eq (hrun n hn) _).trans (hnext n hn)⟩

theorem inspect {f : Page κ σ → Engine κ σ → Run κ σ α}
    (h : ∀ p, Settles callbacks room frames (f p)) :
    Settles callbacks room frames fun engine => get >>= fun p => f p engine :=
  fun p hp => h p p hp

theorem modify {f : Page κ σ → Page κ σ} (h : ∀ p : Page κ σ, p.Level (f p)) :
    Settles callbacks room frames fun _ => (modify f : Run κ σ PUnit) :=
  fun p _ => ⟨⟨⟩, f p, h p, fun _ _ => rfl⟩

theorem routine {fires : Prop} {routine : Routine κ σ α} (h : routine.Within Page.Level fires)
    (hpublish : ∀ bus event value, Settles callbacks room frames (·.publish bus event value))
    (hdispatch : fires → ∀ e kind, Settles callbacks room frames (·.dispatch e kind)) :
    Settles callbacks room frames fun engine => routine.run engine := by
  induction routine with
  | done a => exact pure a
  | look next ih => exact inspect fun p => ih p (h p)
  | change f next ih => exact (modify h.1).bind fun _ => ih h.2
  | publish bus event value next ih => exact (hpublish bus event value).bind fun a => ih a (h a)
  | dispatch e kind next ih => exact (hdispatch h.1 e kind).bind fun a => ih a (h.2 a)

end Settles

variable {callbacks : Callbacks κ σ} {room frames : Nat}

theorem settles_notify (hc : callbacks.Bounded)
    (hpublish : ∀ bus event value, Settles callbacks room frames (·.publish bus event value))
    (hdispatch : ∀ e kind, Settles callbacks room frames (·.dispatch e kind)) (l : Listener κ)
    (value : Value) :
    Settles callbacks room frames fun engine => notify callbacks engine l value := by
  have hl : (l.routine callbacks value).Within Page.Level True := by
    cases l with
    | callback code =>
      exact Program.within_routine (fun _ _ => .of_buses rfl)
        (fun c h => Call.level_routine h (Or.inr trivial)) (hc.onPublish code value)
    | _ => exact Listener.level_routine callbacks value rfl
  simp only [notify_eq]
  exact .routine hl hpublish fun _ => hdispatch

theorem settles_handle (hc : callbacks.Bounded)
    (hpublish : ∀ bus event value, Settles callbacks room frames (·.publish bus event value))
    (e : ElementId) (handler : Handler κ) :
    Settles callbacks room frames fun engine => handle callbacks engine e handler := by
  have hh : (handler.routine callbacks e).Within Page.Level False := by
    cases handler with
    | callback code =>
      exact Program.within_routine (fun _ _ => .of_buses rfl)
        (fun c h => Call.level_routine h.1 (Or.inl h.2)) (hc.onEvent code e)
    | writeBack m property key control =>
      intro p
      dsimp only
      split
      · exact Page.ordinary_level.write m.target key _
      · trivial
  simp only [handle_eq]
  exact .routine hh hpublish fun h => h.elim

theorem settles_deliver
    (h : ∀ l value, Settles callbacks room frames fun engine => notify callbacks engine l value)
    (bus : BusId) (event : String) (generation : Nat) (value : Value) (turns : List Nat) :
    Settles callbacks room frames fun engine =>
      deliver callbacks engine bus event generation value turns := by
  induction turns with
  | nil => exact .pure _
  | cons i rest ih =>
    unfold deliver
    refine .inspect fun p => ?_
    cases (p.bus? bus).bind (·.slot? event generation i) with
    | none => exact .pure _
    | some slot =>
      cases slot with
      | none => exact ih
      | some l =>
        refine (h l value).bind fun outcome => ?_
        cases outcome with
        | ok u => exact ih
        | error failure => exact .pure _

theorem settles_handleAll
    (h : ∀ e handler, Settles callbacks room frames fun engine => handle callbacks engine e handler)
    (e : ElementId) (handlers : List (Handler κ)) :
    Settles callbacks room frames fun engine => handleAll callbacks engine e handlers := by
  induction handlers with
  | nil => exact .pure _
  | cons handler rest ih =>
    unfold handleAll
    refine (h e handler).bind fun outcome => ?_
    cases outcome with
    | ok u => exact ih
    | error failure => exact .pure _

/-- Publishing settles if it does with less room. -/
theorem settles_publish
    (h : ∀ less, less < room → ∀ l value,
      Settles callbacks less frames fun engine => notify callbacks engine l value)
    (bus : BusId) (event : String) (value : Value) :
    Settles callbacks room (frames + 1) (·.publish bus event value) := by
  intro p hp
  suffices hwith : ∃ a q, p.Level q ∧ ∀ n, frames ≤ n →
      publishWith callbacks (ofFrames callbacks n) bus event value p = some (a, q) by
    obtain ⟨a, q, hq, hn⟩ := hwith
    refine ⟨a, q, hq, fun n hle => ?_⟩
    cases n with
    | zero => exact absurd hle (Nat.not_succ_le_zero frames)
    | succ n => exact hn n (Nat.le_of_succ_le_succ hle)
  cases hb : p.bus? bus with
  | none => exact ⟨_, p, .refl p, fun n _ => publishWith_of_absent hb⟩
  | some r =>
    cases he : r.enter event with
    | error failure => exact ⟨_, p, .refl p, fun n _ => publishWith_of_refused hb he⟩
    | ok entered =>
      cases entered with
      | none => exact ⟨_, p, .refl p, fun n _ => publishWith_of_silent hb he⟩
      | some x =>
        have hless := (Page.room_enter hb he).trans_le hp
        obtain ⟨a, q, hq, hn⟩ := settles_deliver (h _ hless) bus event x.1.generation value
          (List.range x.1.length) _ le_rfl
        exact ⟨a, q.modifyBus bus Registry.leave, hq.leave hb he,
          fun n hle => publishWith_of_entered hb he (hn n hle)⟩

theorem settles_dispatch (hc : callbacks.Bounded)
    (h : ∀ bus event value, Settles callbacks room frames (·.publish bus event value))
    (e : ElementId) (kind : EventKind) : Settles callbacks room (frames + 1) (·.dispatch e kind) := by
  intro p hp
  have hhold : p.Level (p.hold (.element e)) := .of_buses rfl
  -- the handlers go on with one frame less
  obtain ⟨a, q, hq, hn⟩ := settles_handleAll (settles_handle hc h) e
    ((p.hold (.element e)).handlers e kind) (p.hold (.element e)) (hhold.room ▸ hp)
  refine ⟨a, q.release (.element e), (hhold.trans hq).trans (.of_buses rfl), fun n hle => ?_⟩
  cases n with
  | zero => exact absurd hle (Nat.not_succ_le_zero frames)
  | succ n => exact Run.holding_of_eq (hn n (Nat.le_of_succ_le_succ hle))

/-- Each event in flight pays for two frames: one for its own delivery, and one for an element on which
a listener fires. -/
theorem settles_engine (hc : callbacks.Bounded) (room : Nat) :
    (∀ bus event value, Settles callbacks room (2 * room + 1) (·.publish bus event value)) ∧
      ∀ e kind, Settles callbacks room (2 * room + 2) (·.dispatch e kind) := by
  induction room using Nat.strong_induction_on with
  | _ room ih =>
    have hpublish : ∀ bus event value,
        Settles callbacks room (2 * room + 1) (·.publish bus event value) := by
      refine settles_publish fun less hless => settles_notify hc (fun bus event value => ?_) fun e kind => ?_
      · exact ((ih less hless).1 bus event value).mono (by omega)
      · exact ((ih less hless).2 e kind).mono (by omega)
    exact ⟨hpublish, settles_dispatch hc hpublish⟩

end Engine

/-- Publishing, writing and firing return, whatever is in flight and whoever listens; the frames that
suffice are known beforehand. -/
theorem calls_return (callbacks : Callbacks κ σ) (hc : callbacks.Bounded) (p : Page κ σ) :
    (∀ bus event value, ∃ outcome q, ∀ frames, 2 * p.room + 1 ≤ frames →
      (Engine.ofFrames callbacks frames).publish bus event value p = some (outcome, q)) ∧
    (∀ m key value, ∃ outcome q, ∀ frames, 2 * p.room + 1 ≤ frames →
      (Engine.ofFrames callbacks frames).write m key value p = some (outcome, q)) ∧
    ∀ e kind, ∃ outcome q, ∀ frames, 2 * p.room + 2 ≤ frames →
      (Engine.ofFrames callbacks frames).dispatch e kind p = some (outcome, q) := by
  obtain ⟨hpublish, hdispatch⟩ := Engine.settles_engine hc p.room
  refine ⟨fun bus event value => ?_, fun m key value => ?_, fun e kind => ?_⟩
  · obtain ⟨outcome, q, -, h⟩ := hpublish bus event value p le_rfl
    exact ⟨outcome, q, h⟩
  · have hwithin : (Routine.write m key value : Routine κ σ Outcome).Within Page.Level False :=
      Page.ordinary_level.write m key value
    have hwrite := Engine.Settles.routine hwithin hpublish fun h => h.elim
    obtain ⟨outcome, q, -, h⟩ := hwrite p le_rfl
    exact ⟨outcome, q, fun n hn => (congrFun (Routine.run_write _ m key value) p).symm.trans (h n hn)⟩
  · obtain ⟨outcome, q, -, h⟩ := hdispatch e kind p le_rfl
    exact ⟨outcome, q, h⟩

/-- A listener lets a new one wait behind an event that is longer than its own, fires on an element
and then publishes the new event; a handler publishes the event it was installed with. -/
def sprouting : Callbacks String Unit where
  onPublish event value :=
    .call (.subscribe ⟨0⟩ (event ++ "a") (event ++ "a")) fun _ =>
      .call (.dispatch ⟨0⟩ .input) fun _ => .call (.publish ⟨0⟩ (event ++ "a") value) .done
  onEvent event _ := .call (.publish ⟨0⟩ event .null) .done

/-- One listener waits for `a` and one for `b`, and the handler of the element publishes `b`. -/
def seedbed : Page String Unit where
  buses := #[{ maxDepth := 2, channels := [⟨"a", 0, [some (.callback "a")]⟩,
    ⟨"b", 1, [some (.callback "b")]⟩], nextGeneration := 2 }]
  elements := #[{ tag := "input", handlers := [(.input, .callback "b")] }]
  host := ()

theorem sprouting_returns :
    sprouting.Bounded ∧ seedbed.room = 2 ∧
      ∃ q, ∀ frames, 5 ≤ frames → (Engine.ofFrames sprouting frames).publish ⟨0⟩ "a" .null seedbed
        = some (.error (.depthExceeded "aaa" 2), q) := by
  have hbounded : sprouting.Bounded :=
    ⟨fun _ _ => ⟨trivial, fun _ => ⟨trivial, fun _ => ⟨trivial, fun _ => trivial⟩⟩⟩,
      fun _ _ => ⟨⟨trivial, trivial⟩, fun _ => trivial⟩⟩
  have hroom : seedbed.room = 2 := rfl
  obtain ⟨outcome, q, h⟩ := (calls_return sprouting hbounded seedbed).1 ⟨0⟩ "a" .null
  rw [hroom] at h
  have hfive : ((Engine.ofFrames sprouting 5).publish ⟨0⟩ "a" .null seedbed).map Prod.fst
      = some (.error (.depthExceeded "aaa" 2)) := by decide +kernel
  rw [h 5 le_rfl] at hfive
  cases hfive
  exact ⟨hbounded, hroom, q, h⟩

end Bindery
