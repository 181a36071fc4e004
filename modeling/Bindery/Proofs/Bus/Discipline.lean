import Bindery.Proofs.Engine.Stages

/-!
# The discipline of a bus

At every moment of a run the events in flight on a bus are those of the publish calls that are
delivering on it.  So the guards of a publish see the calls that it is made in, and what they report
is true of them.

* `Program.failures`      the errors that a program got from the bus
* `Stage.Relays`          listeners that fail only with errors they got
* `BusError.Traces`       an error that tells where a publish led
* `stack_discipline`      what holds at every moment of a run
-/

namespace Bindery

variable {κ σ α β : Type}

/-! ## Errors that a program got -/

/-- The error that a call got from publishing on a bus or from writing to a model of the bus. -/
def Call.failures (b : BusId) (p : Page κ σ) : (c : Call κ) → c.Answer → List BusError
  | .publish bus _ _, .error failure => if bus = b then [failure] else []
  | .write m _ _, .error failure => if (p.model? m).map Model.bus = some b then [failure] else []
  | _, _ => []

/-- The errors that a program gets from publishing on a bus and from writing to models of the bus. -/
def Program.failures (engine : Engine κ σ) (b : BusId) : Program κ σ α → Page κ σ → List BusError
  | .done _, _ => []
  | .inspect next, p => (next p).failures engine b p
  | .amend f next, p => next.failures engine b { p with host := f p.host }
  | .call c next, p =>
    match c.run engine p with
    | none => []
    | some (a, q) => c.failures b p a ++ (next a).failures engine b q

namespace Stage

variable {callbacks : Callbacks κ σ} {n : Nat} {s : List (BusId × String)} {p q : Page κ σ} {b : BusId}
  {failure : BusError}

/-- Each listener of the bus that is called from now on fails, if it does, with an error that it got
from the bus while it was called. -/
def Relays (callbacks : Callbacks κ σ) (b : BusId) (S : Stage κ σ) : Prop :=
  ∀ ⦃T event generation value i rest r code failure q⦄, Reach callbacks S T →
    T.todo = .turns b event generation value (i :: rest) → T.page.bus? b = some r →
    r.slot? event generation i = some (some (.callback code)) →
    (callbacks.onPublish code value).run (Engine.ofFrames callbacks T.frames) T.page
      = some (.error failure, q) →
    failure ∈ (callbacks.onPublish code value).failures (Engine.ofFrames callbacks T.frames) b T.page

theorem Relays.of_reach {S T : Stage κ σ} (h : S.Relays callbacks b) (hT : Reach callbacks S T) :
    T.Relays callbacks b :=
  fun _ _ _ _ _ _ _ _ _ _ hU => h (hT.trans hU)

theorem reach_of_write {m : ModelId} {d : Model} {key : String} {value : Value}
    (hm : p.model? m = some d) (f : Outcome → Routine κ σ β)
    (h : (Engine.ofFrames callbacks n).write m key value p = some (.error failure, q)) :
    ∃ next t u, Reach callbacks ⟨n, s, .routine ((Routine.write m key value).bind f), p⟩
        ⟨n, s, .routine (.publish d.bus (d.event key) value next : Routine κ σ β), t⟩ ∧
      (Engine.ofFrames callbacks n).publish d.bus (d.event key) value t = some (.error failure, u) := by
  by_cases hk : key ∈ d.observed
  · rw [Engine.write_of_observed hm hk] at h
    obtain ⟨t, ht, -⟩ := Run.holding_eq_some.mp h
    have hbegin : Reach callbacks ⟨n, s, .routine ((Routine.write m key value).bind f), p⟩
        ⟨n, s, .routine ((if key ∈ d.observed then
          Routine.holding (.model m) (.announce d.bus (d.event key) value)
          else pure (.ok ()) : Routine κ σ Outcome).bind f), p.store m key value⟩ := by
      refine .head (.look _) ?_
      simp only [Routine.bind, hm]
      exact .single (.change _ _)
    rw [if_pos hk] at hbegin
    exact ⟨_, (p.store m key value).hold (.model m), t, hbegin.tail (.change _ _), ht⟩
  · rw [Engine.write_of_silent hm hk] at h
    cases h

theorem reach_of_call {c : Call κ} {a : c.Answer} (f : c.Answer → Routine κ σ β)
    (hc : c.run (Engine.ofFrames callbacks n) p = some (a, q)) (h : failure ∈ c.failures b p a) :
    ∃ event value next t u, Reach callbacks ⟨n, s, .routine (c.routine.bind f), p⟩
        ⟨n, s, .routine (.publish b event value next : Routine κ σ β), t⟩ ∧
      (Engine.ofFrames callbacks n).publish b event value t = some (.error failure, u) := by
  cases c with
  | publish bus event value =>
    cases a with
    | ok u => cases h
    | error failure' =>
      change failure ∈ if bus = b then [failure'] else [] at h
      split at h
      · rename_i hb
        subst hb
        cases List.mem_singleton.mp h
        exact ⟨event, value, f, p, q, .refl, hc⟩
      · cases h
  | write m key value =>
    cases a with
    | ok u => cases h
    | error failure' =>
      change failure ∈ if (p.model? m).map Model.bus = some b then [failure'] else [] at h
      split at h
      · rename_i hb
        cases List.mem_singleton.mp h
        obtain ⟨d, hm, rfl⟩ := Option.map_eq_some_iff.mp hb
        obtain ⟨next, t, u, hreach, ht⟩ := reach_of_write (s := s) hm f hc
        exact ⟨d.event key, value, next, t, u, hreach, ht⟩
      · cases h
  | _ => cases h

theorem reach_of_failures {program : Program κ σ α}
    (h : failure ∈ program.failures (Engine.ofFrames callbacks n) b p) :
    ∃ event value next t u, Reach callbacks ⟨n, s, .routine program.routine, p⟩
        ⟨n, s, .routine (.publish b event value next : Routine κ σ α), t⟩ ∧
      (Engine.ofFrames callbacks n).publish b event value t = some (.error failure, u) := by
  induction program generalizing p with
  | done a => cases h
  | inspect next ih =>
    obtain ⟨event, value, next', t, u, hreach, ht⟩ := ih p h
    exact ⟨event, value, next', t, u, .head (.look _) hreach, ht⟩
  | amend f next ih =>
    obtain ⟨event, value, next', t, u, hreach, ht⟩ := ih h
    exact ⟨event, value, next', t, u, .head (.change _ _) hreach, ht⟩
  | call c next ih =>
    rw [Program.failures] at h
    cases hc : c.run (Engine.ofFrames callbacks n) p with
    | none =>
      rw [hc] at h
      cases h
    | some answered =>
      obtain ⟨a, q⟩ := answered
      rw [hc] at h
      rcases List.mem_append.mp h with h | h
      · exact reach_of_call (fun a => (next a).routine) hc h
      · obtain ⟨event, value, next', t, u, hreach, ht⟩ := ih a h
        have hrun : (c.routine (σ := σ)).run (Engine.ofFrames callbacks n) p = some (a, q) := by
          rw [c.run_routine, hc]
        exact ⟨event, value, next', t, u, (reach_of_run _ hrun).trans hreach, ht⟩

end Stage

/-! ## What errors tell -/

namespace BusError

/-- What an error tells of a publish of `event` that it refused, on a bus that lets `limit` events in
and has `events` in flight. -/
def Reports (limit : Nat) (events : List String) (event : String) : BusError → Prop
  | .cycle repeated chain => repeated = event ∧ chain = events ∧ event ∈ events
  | .depthExceeded refused depth =>
    refused = event ∧ depth = limit ∧ limit = events.length ∧ event ∉ events

/-- What an error tells of the publish of `event` that it is the answer to: it came to a publish that
was delivering, and the chain names the way there, or it went as deep as it may. -/
def Traces (limit : Nat) (events : List String) (event : String) : BusError → Prop
  | .cycle repeated chain => chain.Nodup ∧ repeated ∈ chain ∧
      (events ++ [event] <+: chain ∨ chain = events ∧ repeated = event)
  | .depthExceeded _ depth => depth = limit

/-- The same with nothing in flight: the chain begins with `event`. -/
def LeadsFrom (limit : Nat) (event : String) : BusError → Prop
  | .cycle repeated chain => chain.head? = some event ∧ chain.Nodup ∧ repeated ∈ chain
  | .depthExceeded _ depth => depth = limit

theorem reports_of_enter {r : Registry (Listener κ)} {event : String} {failure : BusError}
    (hroom : r.inFlight.length ≤ r.maxDepth) (h : r.enter event = .error failure) :
    failure.Reports r.maxDepth r.inFlight event := by
  rcases Registry.enter_eq_error h with ⟨hin, rfl⟩ | ⟨hout, hdeep, rfl⟩
  · exact ⟨rfl, rfl, hin⟩
  · exact ⟨rfl, rfl, Nat.le_antisymm hdeep hroom, hout⟩

theorem Reports.traces {limit : Nat} {events : List String} {event : String} {failure : BusError}
    (h : failure.Reports limit events event) (hnodup : events.Nodup) :
    failure.Traces limit events event := by
  cases failure with
  | cycle repeated chain =>
    obtain ⟨rfl, rfl, hin⟩ := h
    exact ⟨hnodup, hin, Or.inr ⟨rfl, rfl⟩⟩
  | depthExceeded refused depth => exact h.2.1

/-- The error of a publish inside a delivery tells of the publish that is delivering. -/
theorem Traces.of_inner {limit : Nat} {events : List String} {event inner : String}
    {failure : BusError} (h : failure.Traces limit (events ++ [event]) inner) :
    failure.Traces limit events event := by
  cases failure with
  | cycle repeated chain =>
    obtain ⟨hnodup, hmem, hpre | ⟨rfl, -⟩⟩ := h
    · exact ⟨hnodup, hmem, Or.inl ((List.prefix_append _ _).trans hpre)⟩
    · exact ⟨hnodup, hmem, Or.inl (List.prefix_refl _)⟩
  | depthExceeded _ depth => exact h

theorem Traces.leadsFrom {limit : Nat} {event : String} {failure : BusError}
    (h : failure.Traces limit [] event) : failure.LeadsFrom limit event := by
  cases failure with
  | cycle repeated chain =>
    obtain ⟨hnodup, hmem, hpre | ⟨rfl, -⟩⟩ := h
    · obtain ⟨rest, rfl⟩ := hpre
      exact ⟨rfl, hnodup, hmem⟩
    · cases hmem
  | depthExceeded _ depth => exact h

end BusError

theorem Engine.publish_of_refused {callbacks : Callbacks κ σ} {n : Nat} {bus : BusId}
    {event : String} {value : Value} {failure : BusError} {outcome : Outcome} {p q : Page κ σ}
    {r : Registry (Listener κ)} (hb : p.bus? bus = some r) (he : r.enter event = .error failure)
    (h : (ofFrames callbacks n).publish bus event value p = some (outcome, q)) :
    outcome = .error failure ∧ q = p := by
  cases n with
  | zero => cases h
  | succ n =>
    change publishWith callbacks (ofFrames callbacks n) bus event value p = _ at h
    rw [publishWith_of_refused hb he] at h
    cases h
    exact ⟨rfl, rfl⟩

namespace Stage

variable {callbacks : Callbacks κ σ} {b : BusId}

/-- A publish that fails while listeners pass on what they got from the bus tells where it led.  The
induction is on the frames: the error comes from the door of the bus, or from a publish that was made
by a listener one frame further down. -/
theorem traces_of_publish {n : Nat} {s : List (BusId × String)} {p q : Page κ σ} {event : String}
    {value : Value} {next : Outcome → Routine κ σ α} {limit : Nat} {events : List String}
    {failure : BusError}
    (hS : Orderly b ⟨n, s, .routine (.publish b event value next), p⟩)
    (hrelays : Relays callbacks b ⟨n, s, .routine (.publish b event value next), p⟩)
    (hb : p.flight? b = some (limit, events))
    (h : (Engine.ofFrames callbacks n).publish b event value p = some (.error failure, q)) :
    failure.Traces limit events event := by
  induction n generalizing α s p q event value limit events with
  | zero => cases h
  | succ n ih =>
    change Engine.publishWith callbacks (Engine.ofFrames callbacks n) b event value p = _ at h
    obtain ⟨r, hr, rfl, rfl⟩ := Page.flight?_eq_some.mp hb
    cases he : r.enter event with
    | error refused =>
      rw [Engine.publishWith_of_refused hr he] at h
      cases h
      exact (BusError.reports_of_enter (hS.room hb) he).traces (hS.inFlight hb ▸ hS.nodup)
    | ok entered =>
      cases entered with
      | none =>
        rw [Engine.publishWith_of_silent hr he] at h
        cases h
      | some x =>
        obtain ⟨d, r'⟩ := x
        obtain ⟨q₁, hd, -⟩ := Engine.publishWith_eq_some_of_entered hr he h
        obtain ⟨i, rest, r₁, l, t, u, hdeliver, ht, hslot, hnotify⟩ :=
          reach_of_deliver (s := s ++ [(b, event)]) hd
        have hreach := hdeliver.head (Next.enter next hr he)
        cases l with
        | callback code =>
          have hgot := hrelays hreach rfl ht hslot hnotify
          obtain ⟨event', value', next', t', u', hprogram, hpublish⟩ :=
            reach_of_failures (s := s ++ [(b, event)]) hgot
          have hinner := (hreach.tail (.call ht hslot)).trans hprogram
          have horderly := orderly_of_reach hinner hS
          obtain ⟨events', hflight⟩ := limit_of_reach hinner hS hb
          have hevents : events' = r.inFlight ++ [event] := by
            rw [horderly.inFlight hflight, hS.inFlight hb]
            exact eventsOn_concat_self (S := ⟨n + 1, s, .routine (.publish b event value next), p⟩) rfl
          subst hevents
          exact (ih horderly (hrelays.of_reach hinner) hflight hpublish).of_inner
        | text e m template names changed =>
          rw [Engine.notify_of_isBinding callbacks _ value rfl] at hnotify
          cases hnotify
        | property e name =>
          rw [Engine.notify_of_isBinding callbacks _ value rfl] at hnotify
          cases hnotify

/-! ## At every moment -/

theorem orderly_of_idle {n : Nat} {p : Page κ σ} {routine : Routine κ σ α}
    (hroutine : routine.Within Page.Balanced True) (hidle : ∀ r, p.bus? b = some r → r.inFlight = []) :
    Orderly b ⟨n, [], .routine routine, p⟩ where
  todo := hroutine
  inFlight h := by
    obtain ⟨r, hr, -, rfl⟩ := Page.flight?_eq_some.mp h
    exact hidle r hr
  absent _ := rfl
  nodup := List.nodup_nil
  room h := by
    obtain ⟨r, hr, -, rfl⟩ := Page.flight?_eq_some.mp h
    rw [hidle r hr]
    exact Nat.zero_le _

theorem Orderly.publishing {S : Stage κ σ} (h : S.Orderly b) (event : String) (value : Value) :
    Orderly b ⟨S.frames, S.delivering, .routine (.announce b event value), S.page⟩ where
  todo _ := trivial
  inFlight := h.inFlight
  absent := h.absent
  nodup := h.nodup
  room := h.room

/-- What holds at a moment of a run of a bus that is `r` then. -/
structure Disciplined (callbacks : Callbacks κ σ) (b : BusId) (S : Stage κ σ)
    (r : Registry (Listener κ)) : Prop where
  /-- in flight are the events of the publish calls that are delivering, outermost first -/
  inFlight : r.inFlight = S.eventsOn b
  nodup : r.inFlight.Nodup
  room : r.inFlight.length ≤ r.maxDepth
  /-- whatever is published now leaves in flight what was -/
  returns : ∀ {bus event value outcome q},
    (Engine.ofFrames callbacks S.frames).publish bus event value S.page = some (outcome, q) →
      ∃ r', q.bus? b = some r' ∧ r'.maxDepth = r.maxDepth ∧ r'.inFlight = r.inFlight
  /-- a publish that is refused reports what is in flight -/
  reports : ∀ {event failure}, r.enter event = .error failure →
    failure.Reports r.maxDepth r.inFlight event ∧
      ∀ {value outcome q},
        (Engine.ofFrames callbacks S.frames).publish b event value S.page = some (outcome, q) →
          outcome = .error failure ∧ q = S.page
  /-- with nothing in flight, and listeners that pass on what they got from the bus -/
  traces : ∀ {event value failure q}, r.inFlight = [] →
    Relays callbacks b ⟨S.frames, S.delivering, .routine (.announce b event value), S.page⟩ →
    (Engine.ofFrames callbacks S.frames).publish b event value S.page = some (.error failure, q) →
    failure.LeadsFrom r.maxDepth event

end Stage

open Stage in
/-- Whatever a program does and whatever it is that it calls, on a bus that is idle at first the
publish calls that are delivering are in flight at every moment, and errors tell of them. -/
theorem stack_discipline (callbacks : Callbacks κ σ) (frames : Nat) (program : Program κ σ α)
    (p : Page κ σ) (b : BusId) (hidle : ∀ r, p.bus? b = some r → r.inFlight = []) (S : Stage κ σ)
    (hS : Reach callbacks ⟨frames, [], .routine program.routine, p⟩ S) (r : Registry (Listener κ))
    (hb : S.page.bus? b = some r) : S.Disciplined callbacks b r := by
  have horderly := orderly_of_reach hS (orderly_of_idle program.balanced_routine hidle)
  have hflight := Page.flight?_of_bus? hb
  have hin := horderly.inFlight hflight
  have hroom := horderly.room hflight
  refine ⟨hin, hin ▸ horderly.nodup, hroom, fun h => ?_, fun he => ?_, fun hempty hrelays h => ?_⟩
  · have hafter := ((Engine.balanced_ofFrames callbacks S.frames).publish h).flight hflight
    exact Page.flight?_eq_some.mp hafter
  · exact ⟨BusError.reports_of_enter hroom he, Engine.publish_of_refused hb he⟩
  · have htraces := traces_of_publish (horderly.publishing _ _) hrelays hflight h
    rw [hempty] at htraces
    exact htraces.leadsFrom

/-- The code of a listener is the event that it publishes. -/
def relaying : Callbacks String Unit where
  onPublish event value := .call (.publish ⟨0⟩ event value) .done
  onEvent _ _ := .done (.ok ())

/-- A publish of `a` leads to `b`, that to `c`, and that to `b` again. -/
def lasso : Page String Unit where
  buses := #[{ maxDepth := 4, channels := [⟨"a", 0, [some (.callback "b")]⟩,
    ⟨"b", 1, [some (.callback "c")]⟩, ⟨"c", 2, [some (.callback "b")]⟩], nextGeneration := 3 }]
  host := ()

theorem relays_relaying (S : Stage String Unit) : S.Relays relaying ⟨0⟩ := by
  intro T event generation value i rest r code failure q _ _ _ _ h
  obtain ⟨outcome, t, ht, hend⟩ := Run.bind_eq_some.mp h
  cases hend
  have hcall : (Call.publish ⟨0⟩ code value).run (Engine.ofFrames relaying T.frames) T.page
      = some (.error failure, q) := ht
  show failure ∈ Program.failures _ _ (.call (.publish ⟨0⟩ code value) .done) _
  rw [Program.failures, hcall]
  exact List.mem_singleton_self failure

open Stage in
/-- Once `a` is delivered, a second publish of it is refused; and the answer to the first one names the
way from `a` to `b`. -/
theorem lasso_disciplined :
    (∀ r, lasso.bus? ⟨0⟩ = some r → r.inFlight = []) ∧
      (∃ S r, Reach relaying
          ⟨4, [], .routine (.publish ⟨0⟩ "a" .null .done : Routine String Unit Outcome), lasso⟩ S ∧
        S.page.bus? ⟨0⟩ = some r ∧ r.inFlight = S.eventsOn ⟨0⟩ ∧ r.inFlight = ["a"] ∧
        r.enter "a" = .error (.cycle "a" ["a"]) ∧ (BusError.cycle "a" ["a"]).Reports 4 ["a"] "a") ∧
      ∃ q, (Engine.ofFrames relaying 4).publish ⟨0⟩ "a" .null lasso
          = some (.error (.cycle "b" ["a", "b", "c"]), q) ∧
        (BusError.cycle "b" ["a", "b", "c"]).LeadsFrom 4 "a" ∧ q.flight? ⟨0⟩ = some (4, []) := by
  have hidle : ∀ r, lasso.bus? ⟨0⟩ = some r → r.inFlight = [] := by
    rintro r ⟨⟩
    rfl
  have hdisciplined := stack_discipline relaying 4
    (.call (.publish ⟨0⟩ "a" .null) .done : Program String Unit Outcome) lasso ⟨0⟩ hidle
  have hpublish : (Engine.ofFrames relaying 4).publish ⟨0⟩ "a" .null lasso
      = some (.error (.cycle "b" ["a", "b", "c"]), lasso) := rfl
  refine ⟨hidle, ?_, lasso, hpublish, ?_⟩
  · have hbus : lasso.bus? ⟨0⟩ = some lasso.buses[0] := rfl
    have henter : lasso.buses[0].enter "a"
        = .ok (some (⟨0, 1⟩, { lasso.buses[0] with inFlight := ["a"] })) := rfl
    have hnext : Next relaying
        ⟨4, [], .routine (.publish ⟨0⟩ "a" .null .done : Routine String Unit Outcome), lasso⟩ _ :=
      .enter _ hbus henter
    have hreach := Relation.ReflTransGen.single hnext
    have hdelivering := hdisciplined _ hreach _ rfl
    exact ⟨_, _, hreach, rfl, hdelivering.inFlight, rfl, rfl, (hdelivering.reports rfl).1⟩
  · have hstart := hdisciplined _ .refl _ rfl
    obtain ⟨r, hr, hlimit, hempty⟩ := hstart.returns hpublish
    exact ⟨hstart.traces rfl (relays_relaying _) hpublish,
      Page.flight?_eq_some.mpr ⟨r, hr, hlimit, hempty⟩⟩

end Bindery
