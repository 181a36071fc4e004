import Mathlib.Data.List.Nodup
import Mathlib.Logic.Relation
import Bindery.Proofs.Engine.Balance

/-!
# The moments of a run

A run comes from one moment to the next.  At each there is a page, something left to do, and the
publish calls that are delivering, outermost first.  A call is stepped into, or stepped over once it
returns.

* `Stage`, `Stage.Next`     a moment of a run, and the moments that may come next
* `Stage.Reach`             the moments that a run comes to
* `reach_of_run`            a routine that is carried out comes to its end
* `reach_of_deliver`        a delivery that fails comes to the listener that failed
-/

namespace Bindery

inductive Todo (κ σ : Type) : Type 1 where
  | routine {α : Type} (routine : Routine κ σ α)
  /-- the turns of a delivery, each the place of a listener -/
  | turns (bus : BusId) (event : String) (generation : Nat) (value : Value) (places : List Nat)
  /-- the handlers that are called one after the other -/
  | handlers (e : ElementId) (handlers : List (Handler κ))

structure Stage (κ σ : Type) : Type 1 where
  /-- how deep calls may still go -/
  frames : Nat
  /-- the publish calls that are delivering, outermost first, each with its bus -/
  delivering : List (BusId × String)
  todo : Todo κ σ
  page : Page κ σ

variable {κ σ : Type}

namespace Stage

/-- The moments that may come next. -/
inductive Next (callbacks : Callbacks κ σ) : Stage κ σ → Stage κ σ → Prop where
  | look {α n s p} (next : Page κ σ → Routine κ σ α) :
      Next callbacks ⟨n, s, .routine (.look next), p⟩ ⟨n, s, .routine (next p), p⟩
  | change {α n s p} (f : Page κ σ → Page κ σ) (next : Routine κ σ α) :
      Next callbacks ⟨n, s, .routine (.change f next), p⟩ ⟨n, s, .routine next, f p⟩
  /-- a publish begins to deliver -/
  | enter {α n s p bus event value r d r'} (next : Outcome → Routine κ σ α) :
      p.bus? bus = some r → r.enter event = .ok (some (d, r')) →
      Next callbacks ⟨n + 1, s, .routine (.publish bus event value next), p⟩
        ⟨n, s ++ [(bus, event)], .turns bus event d.generation value (List.range d.length),
          p.modifyBus bus fun _ => r'⟩
  /-- a publish has returned -/
  | published {α n s p bus event value a q} (next : Outcome → Routine κ σ α) :
      (Engine.ofFrames callbacks n).publish bus event value p = some (a, q) →
      Next callbacks ⟨n, s, .routine (.publish bus event value next), p⟩ ⟨n, s, .routine (next a), q⟩
  | fire {α n s p e kind} (next : Outcome → Routine κ σ α) :
      Next callbacks ⟨n + 1, s, .routine (.dispatch e kind next), p⟩
        ⟨n, s, .handlers e ((p.hold (.element e)).handlers e kind), p.hold (.element e)⟩
  | fired {α n s p e kind a q} (next : Outcome → Routine κ σ α) :
      (Engine.ofFrames callbacks n).dispatch e kind p = some (a, q) →
      Next callbacks ⟨n, s, .routine (.dispatch e kind next), p⟩ ⟨n, s, .routine (next a), q⟩
  /-- the listener whose turn it is is gone -/
  | skip {n s p bus event g value i rest r} :
      p.bus? bus = some r → r.slot? event g i = some none →
      Next callbacks ⟨n, s, .turns bus event g value (i :: rest), p⟩
        ⟨n, s, .turns bus event g value rest, p⟩
  /-- a listener is called -/
  | call {n s p bus event g value i rest r l} :
      p.bus? bus = some r → r.slot? event g i = some (some l) →
      Next callbacks ⟨n, s, .turns bus event g value (i :: rest), p⟩
        ⟨n, s, .routine (l.routine callbacks value), p⟩
  /-- a listener has returned -/
  | called {n s p bus event g value i rest r l q} :
      p.bus? bus = some r → r.slot? event g i = some (some l) →
      Engine.notify callbacks (Engine.ofFrames callbacks n) l value p = some (.ok (), q) →
      Next callbacks ⟨n, s, .turns bus event g value (i :: rest), p⟩
        ⟨n, s, .turns bus event g value rest, q⟩
  | handle {n s p e handler rest} :
      Next callbacks ⟨n, s, .handlers e (handler :: rest), p⟩
        ⟨n, s, .routine (handler.routine callbacks e), p⟩
  | handled {n s p e handler rest q} :
      Engine.handle callbacks (Engine.ofFrames callbacks n) e handler p = some (.ok (), q) →
      Next callbacks ⟨n, s, .handlers e (handler :: rest), p⟩ ⟨n, s, .handlers e rest, q⟩

/-- The moments that a run comes to. -/
abbrev Reach (callbacks : Callbacks κ σ) : Stage κ σ → Stage κ σ → Prop :=
  Relation.ReflTransGen (Next callbacks)

end Stage

open Stage

variable {α β : Type} {callbacks : Callbacks κ σ} {n : Nat} {s : List (BusId × String)} {p q : Page κ σ}

theorem reach_of_run {routine : Routine κ σ α} {a : α} (f : α → Routine κ σ β)
    (h : routine.run (Engine.ofFrames callbacks n) p = some (a, q)) :
    Reach callbacks ⟨n, s, .routine (routine.bind f), p⟩ ⟨n, s, .routine (f a), q⟩ := by
  induction routine generalizing p with
  | done b =>
    cases h
    exact .refl
  | look next ih => exact .head (.look _) (ih p h)
  | change g next ih => exact .head (.change _ _) (ih h)
  | publish bus event value next ih =>
    obtain ⟨b, t, ht, hq⟩ := Run.bind_eq_some.mp h
    exact .head (.published _ ht) (ih b hq)
  | dispatch e kind next ih =>
    obtain ⟨b, t, ht, hq⟩ := Run.bind_eq_some.mp h
    exact .head (.fired _ ht) (ih b hq)

/-- A delivery that fails comes to a listener that fails when it is called. -/
theorem reach_of_deliver {bus : BusId} {event : String} {generation : Nat} {value : Value}
    {turns : List Nat} {failure : BusError}
    (h : Engine.deliver callbacks (Engine.ofFrames callbacks n) bus event generation value turns p
      = some (.error failure, q)) :
    ∃ i rest r l t u, Reach callbacks ⟨n, s, .turns bus event generation value turns, p⟩
        ⟨n, s, .turns bus event generation value (i :: rest), t⟩ ∧
      t.bus? bus = some r ∧ r.slot? event generation i = some (some l) ∧
      Engine.notify callbacks (Engine.ofFrames callbacks n) l value t = some (.error failure, u) := by
  induction turns generalizing p with
  | nil => cases h
  | cons i rest ih =>
    rw [Engine.deliver, Run.get_bind] at h
    cases hs : (p.bus? bus).bind (·.slot? event generation i) with
    | none =>
      rw [hs] at h
      cases h
    | some slot =>
      rw [hs] at h
      obtain ⟨r, hb, hslot⟩ := Option.bind_eq_some_iff.mp hs
      cases slot with
      | none =>
        obtain ⟨j, rest', r', l, t, u, hreach, ht⟩ := ih h
        exact ⟨j, rest', r', l, t, u, .head (.skip hb hslot) hreach, ht⟩
      | some l =>
        obtain ⟨outcome, t, hn, hrest⟩ := Run.bind_eq_some.mp h
        cases outcome with
        | error failure' =>
          cases hrest
          exact ⟨i, rest, r, l, p, _, .refl, hb, hslot, hn⟩
        | ok u =>
          obtain ⟨j, rest', r', l', t', u', hreach, ht⟩ := ih hrest
          exact ⟨j, rest', r', l', t', u', .head (.called hb hslot hn) hreach, ht⟩

/-! ## What one step does -/

def Todo.Balanced : Todo κ σ → Prop
  | .routine r => r.Within Page.Balanced True
  | _ => True

namespace Stage

variable {S T : Stage κ σ}

/-- One step brings an event into flight, or it leaves all as it is. -/
theorem Next.effect (h : Next callbacks S T) (hS : S.todo.Balanced) :
    T.todo.Balanced ∧
      (T.delivering = S.delivering ∧ S.page.Balanced T.page ∨
        ∃ bus event r d r', S.page.bus? bus = some r ∧ r.enter event = .ok (some (d, r')) ∧
          T.delivering = S.delivering ++ [(bus, event)] ∧
          T.page = S.page.modifyBus bus fun _ => r') := by
  have hengine := fun n => Engine.balanced_ofFrames callbacks n
  cases h with
  | look next => exact ⟨hS _, Or.inl ⟨rfl, .refl _⟩⟩
  | change f next => exact ⟨hS.2, Or.inl ⟨rfl, hS.1 _⟩⟩
  | enter next hb hr => exact ⟨trivial, Or.inr ⟨_, _, _, _, _, hb, hr, rfl, rfl⟩⟩
  | published next hp => exact ⟨hS _, Or.inl ⟨rfl, (hengine _).publish hp⟩⟩
  | fire next => exact ⟨trivial, Or.inl ⟨rfl, .of_level (Page.Level.of_buses rfl)⟩⟩
  | fired next hp => exact ⟨hS.2 _, Or.inl ⟨rfl, (hengine _).dispatch hp⟩⟩
  | skip hb hs => exact ⟨trivial, Or.inl ⟨rfl, .refl _⟩⟩
  | call hb hs => exact ⟨Listener.balanced_routine .., Or.inl ⟨rfl, .refl _⟩⟩
  | called hb hs hn => exact ⟨trivial, Or.inl ⟨rfl, (hengine _).notify hn⟩⟩
  | handle => exact ⟨Handler.balanced_routine .., Or.inl ⟨rfl, .refl _⟩⟩
  | handled hh => exact ⟨trivial, Or.inl ⟨rfl, (hengine _).handle hh⟩⟩

/-! ## What is in flight -/

/-- The events of the publish calls that are delivering on a bus, outermost first. -/
def eventsOn (S : Stage κ σ) (b : BusId) : List String :=
  (S.delivering.filter (·.1 = b)).map Prod.snd

/-- In flight on a bus are the events of the publish calls that are delivering, each once and no more
of them than the bus allows. -/
structure Orderly (b : BusId) (S : Stage κ σ) : Prop where
  todo : S.todo.Balanced
  inFlight : ∀ {limit events}, S.page.flight? b = some (limit, events) → events = S.eventsOn b
  absent : S.page.flight? b = none → S.eventsOn b = []
  nodup : (S.eventsOn b).Nodup
  room : ∀ {limit events}, S.page.flight? b = some (limit, events) → events.length ≤ limit

theorem eventsOn_concat_self {b : BusId} {event : String}
    (h : T.delivering = S.delivering ++ [(b, event)]) : T.eventsOn b = S.eventsOn b ++ [event] := by
  unfold eventsOn
  rw [h, List.filter_append, List.map_append, List.filter_cons_of_pos (by simp)]
  rfl

theorem eventsOn_concat_of_ne {b c : BusId} {event : String} (hne : c ≠ b)
    (h : T.delivering = S.delivering ++ [(c, event)]) : T.eventsOn b = S.eventsOn b := by
  unfold eventsOn
  rw [h, List.filter_append, List.map_append, List.filter_cons_of_neg (by simpa using hne)]
  exact List.append_nil _

theorem orderly_of_next {b : BusId} (h : Next callbacks S T) (hS : S.Orderly b) : T.Orderly b := by
  obtain ⟨htodo, ⟨hsame, hpage⟩ | ⟨c, event, r, d, r', hc, hr, hpush, hpage⟩⟩ := h.effect hS.todo
  · have hevents : T.eventsOn b = S.eventsOn b := by
      unfold eventsOn
      rw [hsame]
    rcases hpage b with hb | ⟨hnone, limit, hb⟩
    · exact ⟨htodo, fun hT => hevents ▸ hS.inFlight (hb ▸ hT), fun hT => hevents ▸ hS.absent (hb ▸ hT),
        hevents ▸ hS.nodup, fun hT => hS.room (hb ▸ hT)⟩
    · -- a new bus
      have hempty := hS.absent hnone
      refine ⟨htodo, fun hT => ?_, fun hT => ?_, hevents ▸ hS.nodup, fun hT => ?_⟩
      · cases hb.symm.trans hT
        rw [hevents, hempty]
      · cases hb.symm.trans hT
      · cases hb.symm.trans hT
        exact Nat.zero_le _
  · have hflight := Engine.flight?_enter hc hr b
    rw [← hpage] at hflight
    by_cases hcb : c = b
    · subst hcb
      rw [if_pos rfl] at hflight
      have hS' := Page.flight?_of_bus? hc
      obtain ⟨hnew, hroom, -⟩ := Registry.enter_eq_some hr
      have hin := hS.inFlight hS'
      have hevents := eventsOn_concat_self hpush
      refine ⟨htodo, fun hT => ?_, fun hT => ?_, ?_, fun hT => ?_⟩
      · cases hflight.symm.trans hT
        rw [hevents, hin]
      · cases hflight.symm.trans hT
      · rw [hevents, List.nodup_append]
        refine ⟨hS.nodup, List.nodup_singleton event, fun x hx y hy => ?_⟩
        rw [List.mem_singleton.mp hy]
        rintro rfl
        exact hnew (hin ▸ hx)
      · cases hflight.symm.trans hT
        rw [List.length_append, List.length_singleton]
        exact hroom
    · rw [if_neg hcb] at hflight
      have hevents := eventsOn_concat_of_ne hcb hpush
      exact ⟨htodo, fun hT => hevents ▸ hS.inFlight (hflight ▸ hT),
        fun hT => hevents ▸ hS.absent (hflight ▸ hT), hevents ▸ hS.nodup,
        fun hT => hS.room (hflight ▸ hT)⟩

theorem orderly_of_reach {b : BusId} (h : Reach callbacks S T) (hS : S.Orderly b) : T.Orderly b := by
  induction h with
  | refl => exact hS
  | tail _ hnext ih => exact orderly_of_next hnext ih

theorem limit_of_reach {b : BusId} {limit : Nat} {events : List String} (h : Reach callbacks S T)
    (hS : S.Orderly b) (hb : S.page.flight? b = some (limit, events)) :
    ∃ events', T.page.flight? b = some (limit, events') := by
  induction h with
  | refl => exact ⟨events, hb⟩
  | tail hreach hnext ih =>
    obtain ⟨mid, hmid⟩ := ih
    obtain ⟨-, ⟨-, hpage⟩ | ⟨c, event, r, d, r', hc, hr, -, hpage⟩⟩ :=
      hnext.effect (orderly_of_reach hreach hS).todo
    · exact ⟨mid, hpage.flight hmid⟩
    · have hflight := Engine.flight?_enter hc hr b
      rw [← hpage] at hflight
      by_cases hcb : c = b
      · subst hcb
        rw [if_pos rfl] at hflight
        cases (Page.flight?_of_bus? hc).symm.trans hmid
        exact ⟨_, hflight⟩
      · rw [if_neg hcb] at hflight
        exact ⟨mid, hflight.trans hmid⟩

end Stage

end Bindery
