import Bindery.Engine.Delivery
import Bindery.Proofs.Bus.Numbered
import Bindery.Proofs.Bus.Plain
import Bindery.Proofs.Engine.Publishing
import Bindery.Proofs.Page.Store

/-!
# The bus refines the plain bus

A script on a bus of a page, with listeners that are scripts themselves, answers what it answers on a
plain bus, and it calls the same listeners with the same values in the same order.

The page keeps a `Ledger` for the script: the place of each number and the calls made so far.
`Mirrors` relates a page with its ledger to a plain bus.

* `Mirrors.subscribe`, `Mirrors.remove`, `Mirrors.clear`   one operation on both sides
* `simulates_deliver`     one delivery: places of a channel on one side, a list on the other
* `simulates_publish`     publishing, by induction on the room that is left
* `plain_bus_refined`     whole scripts on a new bus
-/

namespace Bindery

/-- What the host of a page keeps for scripts. -/
structure Ledger (σ : Type) where
  /-- the place of each number -/
  places : List Registration := []
  /-- which number was called with what, first call first -/
  calls : List (Nat × Value) := []
  own : σ

variable {κ σ α : Type}

namespace Ledger

def settle (place : Registration) (l : Ledger σ) : Ledger σ := { l with places := l.places ++ [place] }

def note (number : Nat) (value : Value) (l : Ledger σ) : Ledger σ :=
  { l with calls := l.calls ++ [(number, value)] }

def update (f : σ → σ) (l : Ledger σ) : Ledger σ := { l with own := f l.own }

end Ledger

/-- A script as a program on one bus of a page.  A listener is installed with its number. -/
def BusScript.program (bus : BusId) : BusScript κ σ α → Program (Nat × κ) (Ledger σ) α
  | done a => .done a
  | inspect next => .inspect fun p => (next p.host.own).program bus
  | amend f next => .amend (Ledger.update f) (next.program bus)
  | subscribe event code next => .inspect fun p =>
    .call (.subscribe bus event (p.host.places.length, code)) fun
      | some s => .amend (Ledger.settle s.place) ((next p.host.places.length).program bus)
      | none => (next p.host.places.length).program bus
  | remove number next => .inspect fun p =>
    match p.host.places[number]? with
    | some place => .call (.unsubscribe ⟨bus, place⟩) fun _ => next.program bus
    | none => next.program bus
  | clear next => .call (.clear bus) fun _ => next.program bus
  | publish event value next => .call (.publish bus event value) fun outcome =>
    (next outcome).program bus
  | isRegistered event next => .inspect fun p =>
    (next (((p.bus? bus).map (·.isRegistered event)).getD false)).program bus
  | listenerCount event next => .inspect fun p =>
    (next (((p.bus? bus).map (·.listenerCount event)).getD 0)).program bus

/-- Listeners that are scripts, each call noted in the ledger. -/
def scripted (bus : BusId) (code : κ → Value → BusScript κ σ Outcome) :
    Callbacks (Nat × κ) (Ledger σ) where
  onPublish k value := .amend (Ledger.note k.1 value) ((code k.2 value).program bus)
  onEvent _ _ := .done (.ok ())

/-- A bus of a page, with the ledger, stands for a plain bus. -/
structure Mirrors (bus : BusId) (p : Page (Nat × κ) (Ledger σ)) (s : PlainBus κ σ) : Prop where
  registry : ∃ r, p.bus? bus = some r ∧ Represents r p.host.places s.lists ∧
    r.maxDepth = s.limit ∧ r.inFlight = s.stack
  issued : s.issued = p.host.places.length
  calls : p.host.calls = s.calls
  own : p.host.own = s.host

namespace Mirrors

variable {bus : BusId} {p : Page (Nat × κ) (Ledger σ)} {s : PlainBus κ σ}

/-! ## One operation -/

theorem init (limit : Nat) (q : Page (Nat × κ) (Ledger σ)) (own : σ) :
    Mirrors (q.addBus limit).1 { (q.addBus limit).2 with host := { own } }
      ({ limit, host := own } : PlainBus κ σ) where
  registry := ⟨{ maxDepth := limit }, Array.getElem?_push_size, .init limit, rfl, rfl⟩
  issued := rfl
  calls := rfl
  own := rfl

theorem amend (h : Mirrors bus p s) (f : σ → σ) :
    Mirrors bus { p with host := p.host.update f } { s with host := f s.host } :=
  ⟨h.registry, h.issued, h.calls, congrArg f h.own⟩

theorem note (h : Mirrors bus p s) (number : Nat) (value : Value) :
    Mirrors bus { p with host := p.host.note number value } (s.note number value) :=
  ⟨h.registry, h.issued, congrArg (· ++ [(number, value)]) h.calls, h.own⟩

theorem subscribe (h : Mirrors bus p s) (event : String) (code : κ) :
    ∃ place q, p.subscribe bus event (.callback (p.host.places.length, code)) = (some ⟨bus, place⟩, q) ∧
      q.host = p.host ∧
      Mirrors bus { q with host := q.host.settle place } (s.subscribe event code).2 := by
  obtain ⟨r, hr, hrep, hd, hf⟩ := h.registry
  have hsub := hrep.subscribe event code
  refine ⟨_, _, Page.subscribe_of_some hr _ _, rfl, ⟨⟨_, Page.bus?_modifyBus_self hr _, ?_, ?_, ?_⟩,
    ?_, h.calls, h.own⟩⟩
  · show Represents _ _ fun e => if event = e then s.lists e ++ [(s.issued, code)] else s.lists e
    rw [h.issued]
    exact hsub
  · exact (Registry.maxDepth_subscribe ..).trans hd
  · exact (Registry.inFlight_subscribe ..).trans hf
  · show s.issued + 1 = (p.host.places ++ [_]).length
    rw [h.issued, List.length_append, List.length_singleton]

theorem remove (h : Mirrors bus p s) {number : Nat} {place : Registration}
    (hp : p.host.places[number]? = some place) :
    Mirrors bus (p.unsubscribe ⟨bus, place⟩) (s.remove number) := by
  obtain ⟨r, hr, hrep, hd, hf⟩ := h.registry
  refine ⟨⟨_, Page.bus?_modifyBus_self hr _, hrep.remove hp, ?_, ?_⟩, h.issued, h.calls, h.own⟩
  · exact (Registry.maxDepth_remove ..).trans hd
  · exact (Registry.inFlight_remove ..).trans hf

theorem remove_unknown (h : Mirrors bus p s) {number : Nat} (hp : p.host.places[number]? = none) :
    s.remove number = s := by
  obtain ⟨r, hr, hrep, -, -⟩ := h.registry
  have hl : ∀ event, (s.lists event).filter (·.1 ≠ number) = s.lists event := by
    intro event
    rw [List.filter_eq_self]
    intro x hx
    have hlt := hrep.number_lt hx
    have hge : p.host.places.length ≤ number := List.getElem?_eq_none_iff.mp hp
    simp only [decide_eq_true_eq]
    omega
  show { s with lists := fun e => (s.lists e).filter (·.1 ≠ number) } = s
  rw [funext hl]

theorem clear (h : Mirrors bus p s) : Mirrors bus (p.modifyBus bus Registry.clear) s.clear := by
  obtain ⟨r, hr, hrep, hd, hf⟩ := h.registry
  exact ⟨⟨_, Page.bus?_modifyBus_self hr _, hrep.clear, hd, hf⟩, h.issued, h.calls, h.own⟩

theorem push (h : Mirrors bus p s) {r : Registry (Listener (Nat × κ))} (hr : p.bus? bus = some r)
    (event : String) :
    Mirrors bus (p.modifyBus bus fun _ => { r with inFlight := r.inFlight ++ [event] })
      (s.push event) := by
  obtain ⟨r', hr', hrep, hd, hf⟩ := h.registry
  obtain rfl := Option.some.inj (hr.symm.trans hr')
  exact ⟨⟨_, Page.bus?_modifyBus_self hr _, hrep.inFlight _, hd, congrArg (· ++ [event]) hf⟩,
    h.issued, h.calls, h.own⟩

theorem pop (h : Mirrors bus p s) : Mirrors bus (p.modifyBus bus Registry.leave) s.pop := by
  obtain ⟨r, hr, hrep, hd, hf⟩ := h.registry
  exact ⟨⟨_, Page.bus?_modifyBus_self hr _, hrep.inFlight _, hd, congrArg List.dropLast hf⟩,
    h.issued, h.calls, h.own⟩

theorem isRegistered (h : Mirrors bus p s) (event : String) :
    ((p.bus? bus).map (·.isRegistered event)).getD false = s.isRegistered event := by
  obtain ⟨r, hr, hrep, -, -⟩ := h.registry
  rw [hr]
  exact hrep.isRegistered event

theorem listenerCount (h : Mirrors bus p s) (event : String) :
    ((p.bus? bus).map (·.listenerCount event)).getD 0 = s.listenerCount event := by
  obtain ⟨r, hr, hrep, -, -⟩ := h.registry
  rw [hr]
  exact hrep.listenerCount event

end Mirrors

/-! ## Runs -/

/-- A run does to every page what `f` does to the plain bus that the page stands for, when `room` more
events may be in flight.  Places that were given out stay those of their numbers. -/
def Simulates (bus : BusId) (room : Nat) (m : Run (Nat × κ) (Ledger σ) α)
    (f : PlainBus κ σ → α × PlainBus κ σ) : Prop :=
  ∀ p s, Mirrors bus p s → s.stack.length + room = s.limit →
    ∃ q, m p = some ((f s).1, q) ∧ Mirrors bus q (f s).2 ∧ p.host.places <+: q.host.places

/-- Publishing on a bus of a page and on a plain bus, with the same room. -/
def SimulatesPublish (bus : BusId) (room : Nat) (engine : Engine (Nat × κ) (Ledger σ))
    (publish : PlainBus.Publisher κ σ) : Prop :=
  (∀ event value s, PlainBus.Later s (publish event value s).2) ∧
    ∀ event value, Simulates bus room (engine.publish bus event value) (publish event value)

section

variable {bus : BusId} {room : Nat} {engine : Engine (Nat × κ) (Ledger σ)}
  {publish : PlainBus.Publisher κ σ}

theorem simulates_eval (hp : SimulatesPublish bus room engine publish) (script : BusScript κ σ α) :
    Simulates bus room ((script.program bus).run engine) (script.eval publish) := by
  induction script with
  | done a => exact fun p s h _ => ⟨p, rfl, h, List.prefix_refl _⟩
  | inspect next ih =>
    intro p s h hroom
    show ∃ q, ((next p.host.own).program bus).run engine p = _ ∧ _
    rw [h.own]
    exact ih s.host p s h hroom
  | amend f next ih =>
    intro p s h hroom
    exact ih _ _ (h.amend f) hroom
  | subscribe event code next ih =>
    intro p s h hroom
    obtain ⟨place, q, hq, hhost, hm⟩ := h.subscribe event code
    obtain ⟨q', hrun, hm', hpre⟩ := ih (s.subscribe event code).1 _ _ hm hroom
    refine ⟨q', ?_, hm', List.IsPrefix.trans ?_ hpre⟩
    · have hs : (modifyGet (Page.subscribe bus event (.callback (p.host.places.length, code))) :
          Run (Nat × κ) (Ledger σ) _) p = some (some ⟨bus, place⟩, q) := congrArg some hq
      rw [BusScript.program, Program.run, Run.get_bind, Program.run]
      refine (Run.bind_of_eq hs _).trans ?_
      show ((next p.host.places.length).program bus).run engine _ = _
      rw [← h.issued]
      exact hrun
    · show _ <+: q.host.places ++ [place]
      rw [hhost]
      exact List.prefix_append _ _
  | remove number next ih =>
    intro p s h hroom
    cases hp : p.host.places[number]? with
    | some place =>
      obtain ⟨q, hrun, hm, hpre⟩ := ih _ _ (h.remove hp) hroom
      refine ⟨q, ?_, hm, hpre⟩
      show (match p.host.places[number]? with
        | some place => Program.call (.unsubscribe ⟨bus, place⟩) fun _ => next.program bus
        | none => next.program bus).run engine p = _
      rw [hp]
      exact hrun
    | none =>
      obtain ⟨q, hrun, hm, hpre⟩ := ih p s h hroom
      have hs : (BusScript.remove number next).eval publish s = next.eval publish s := by
        show next.eval publish (s.remove number) = _
        rw [h.remove_unknown hp]
      refine ⟨q, ?_, hs ▸ hm, hpre⟩
      show (match p.host.places[number]? with
        | some place => Program.call (.unsubscribe ⟨bus, place⟩) fun _ => next.program bus
        | none => next.program bus).run engine p = _
      rw [hp, hs]
      exact hrun
  | clear next ih =>
    intro p s h hroom
    exact ih _ _ h.clear hroom
  | publish event value next ih =>
    intro p s h hroom
    obtain ⟨q, hrun, hm, hpre⟩ := hp.2 event value p s h hroom
    have hl := hp.1 event value s
    obtain ⟨q', hrun', hm', hpre'⟩ := ih (publish event value s).1 q (publish event value s).2 hm
      (by rw [hl.stack, hl.limit]; exact hroom)
    exact ⟨q', (Run.bind_of_eq hrun _).trans hrun', hm', hpre.trans hpre'⟩
  | isRegistered event next ih =>
    intro p s h hroom
    show ∃ q, ((next _).program bus).run engine p = _ ∧ _
    rw [h.isRegistered]
    exact ih _ p s h hroom
  | listenerCount event next ih =>
    intro p s h hroom
    show ∃ q, ((next _).program bus).run engine p = _ ∧ _
    rw [h.listenerCount]
    exact ih _ p s h hroom

/-! ## One delivery -/

variable (code : κ → Value → BusScript κ σ Outcome)

theorem simulates_notify (hp : SimulatesPublish bus room engine publish) (number : Nat) (k : κ)
    (value : Value) :
    Simulates bus room (Engine.notify (scripted bus code) engine (.callback (number, k)) value)
      (fun s => (code k value).eval publish (s.note number value)) := by
  intro p s h hroom
  exact simulates_eval hp (code k value) _ _ (h.note number value) hroom

variable {r : Registry (Listener (Nat × κ))} {places : List Registration} {event : String}
  {c : Channel (Listener (Nat × κ))} (value : Value) (s₀ : PlainBus κ σ)

/-- The turns that are left of a delivery, the next one at slot `i`.  `r`, `places` and `s₀` are the
registry, the places and the plain bus when the delivery began. -/
theorem simulates_deliver (hp : SimulatesPublish bus room engine publish)
    (hr : Represents r places s₀.lists) (hissued : s₀.issued = places.length)
    (hc : r.channel? event = some c) (m i : Nat) (hi : i + m = c.slots.length)
    (p : Page (Nat × κ) (Ledger σ)) (s : PlainBus κ σ) (h : Mirrors bus p s)
    (hroom : s.stack.length + room = s.limit) (hlater : s₀.Later s)
    (hpre : places <+: p.host.places) :
    ∃ q, Engine.deliver (scripted bus code) engine bus event c.generation value (List.range' i m) p
        = some ((PlainBus.callAll code publish event value
            ((numbersIn (c.slots.drop i)).map Prod.fst) s).1, q) ∧
      Mirrors bus q (PlainBus.callAll code publish event value
        ((numbersIn (c.slots.drop i)).map Prod.fst) s).2 ∧
      p.host.places <+: q.host.places := by
  induction m generalizing i p s with
  | zero =>
    rw [List.drop_of_length_le (by omega)]
    exact ⟨p, rfl, h, List.prefix_refl _⟩
  | succ m ih =>
    obtain ⟨r', hb, hr', -, -⟩ := h.registry
    -- a number of the channel whose slot is not as it was waits no longer
    have hgone : ∀ (j : Nat) x, c.slots[j]? = some (some (Listener.callback x)) →
        (∀ k, r'.slot? event c.generation j ≠ some (some (.callback (x.1, k)))) →
        s.code? event x.1 = none := by
      intro j x hj hs
      refine PlainBus.code?_eq_none fun k hk => hs k ?_
      exact hr.slot?_of_mem hr' hpre hc hj hk
    rw [List.range'_succ]
    cases hs : r'.slot? event c.generation i with
    | none =>
      have hall : ∀ n ∈ (numbersIn (c.slots.drop i)).map Prod.fst, s.code? event n = none := by
        intro n hn
        obtain ⟨x, hx, rfl⟩ := List.mem_map.mp hn
        obtain ⟨j, hj⟩ := mem_numbersIn.mp hx
        rw [List.getElem?_drop] at hj
        refine hgone (i + j) x hj fun k => ?_
        rw [Registry.slot?_eq_none hs]
        exact nofun
      rw [PlainBus.callAll_of_gone code hall]
      exact ⟨p, Engine.deliver_of_gone hb hs, h, List.prefix_refl _⟩
    | some slot =>
      have hlt : i < c.slots.length := by omega
      cases slot with
      | none =>
        have hcall : PlainBus.callAll code publish event value
              ((numbersIn (c.slots.drop i)).map Prod.fst) s
            = PlainBus.callAll code publish event value
              ((numbersIn (c.slots.drop (i + 1))).map Prod.fst) s := by
          have hslot := List.getElem?_eq_getElem hlt
          rw [numbersIn_drop hslot]
          cases hx : c.slots[i].bind Listener.numbered? with
          | none => rfl
          | some x =>
            obtain ⟨l, hl, hx⟩ := Option.bind_eq_some_iff.mp hx
            rw [hl, Listener.eq_of_numbered? hx] at hslot
            have hnone := hgone i x hslot fun k => by
              rw [hs]
              exact nofun
            exact PlainBus.callAll_cons_of_gone code hnone _
        rw [hcall, Engine.deliver_of_empty hb hs]
        exact ih (i + 1) (by omega) p s h hroom hlater hpre
      | some l =>
        obtain ⟨⟨n, k⟩, rfl, hx, hslot⟩ := hr.mem_of_slot? hr' hpre hc
          (fun n k hn => hlater.gone event n k (hissued ▸ hn)) hlt hs
        have hk : s.code? event n = some k :=
          PlainBus.code?_eq_some hx fun j hj => hr'.code_unique hj hx
        obtain ⟨q, hn, hq, hpre'⟩ := simulates_notify code hp n k value p s h hroom
        have hl := (PlainBus.Later.note n value s).trans
          (PlainBus.later_eval hp.1 (code k value) (s.note n value))
        rw [numbersIn_drop hslot]
        show ∃ q, _ = some ((PlainBus.callAll code publish event value
          (n :: (numbersIn (c.slots.drop (i + 1))).map Prod.fst) s).1, q) ∧
          Mirrors bus q (PlainBus.callAll code publish event value
          (n :: (numbersIn (c.slots.drop (i + 1))).map Prod.fst) s).2 ∧ _
        beta_reduce at hn hq
        generalize hres : (code k value).eval publish (s.note n value) = res at hn hq hl
        obtain ⟨outcome, t⟩ := res
        cases outcome with
        | error failure =>
          rw [PlainBus.callAll_cons_of_failed code hk hres]
          exact ⟨q, Engine.deliver_of_failed hb hs hn, hq, hpre'⟩
        | ok u =>
          rw [PlainBus.callAll_cons_of_ok code hk hres, Engine.deliver_of_called hb hs hn]
          obtain ⟨q', hrun, hq', hpre''⟩ := ih (i + 1) (by omega) q t hq
            (by rw [hl.stack, hl.limit]; exact hroom) (hlater.trans hl) (hpre.trans hpre')
          exact ⟨q', hrun, hq', hpre'.trans hpre''⟩

/-! ## Publishing -/

/-- Publishing when listeners may publish with less room. -/
theorem simulates_publishWith (event : String)
    (hp : ∀ less, room = less + 1 → SimulatesPublish bus less engine (PlainBus.publish code less)) :
    Simulates bus room (Engine.publishWith (scripted bus code) engine bus event value)
      (PlainBus.publish code room event value) := by
  intro p s h hroom
  obtain ⟨r, hb, hr, hd, hf⟩ := h.registry
  have hempty := hr.isRegistered event
  rw [PlainBus.publish_rule code hroom]
  cases hc : r.channel? event with
  | none =>
    have he : (s.lists event).isEmpty = true := by
      rw [Registry.isRegistered, hc] at hempty
      simpa using hempty.symm
    rw [if_pos he]
    exact ⟨p, Engine.publishWith_of_silent hb (Registry.enter_of_none hc), h, List.prefix_refl _⟩
  | some c =>
    have he : ¬ (s.lists event).isEmpty = true := by
      rw [Registry.isRegistered, hc] at hempty
      simpa using hempty.symm
    have henter := Registry.enter_of_some hc
    rw [if_neg he]
    by_cases hcycle : event ∈ s.stack
    · rw [if_pos (hf ▸ hcycle), hf] at henter
      rw [if_pos hcycle]
      exact ⟨p, Engine.publishWith_of_refused hb henter, h, List.prefix_refl _⟩
    · rw [if_neg (hf ▸ hcycle)] at henter
      rw [if_neg hcycle]
      by_cases hdeep : s.limit ≤ s.stack.length
      · rw [if_pos (by rw [hd, hf]; exact hdeep), hd] at henter
        rw [if_pos hdeep]
        exact ⟨p, Engine.publishWith_of_refused hb henter, h, List.prefix_refl _⟩
      · rw [if_neg (by rw [hd, hf]; exact hdeep)] at henter
        rw [if_neg hdeep]
        obtain ⟨less, rfl⟩ : ∃ less, room = less + 1 := ⟨room - 1, by omega⟩
        have hlists : s.lists event = numbersIn (c.slots.drop 0) := by
          rw [hr.listed, Registry.listed, Registry.slotsOf_of_some hc, List.drop_zero]
        obtain ⟨q, hrun, hq, hpre⟩ := simulates_deliver code value (s.push event)
          (hp less rfl) hr h.issued hc c.slots.length 0 (Nat.zero_add _) _ _ (h.push hb event) (by
            show (s.stack ++ [event]).length + less = s.limit
            rw [List.length_append, List.length_singleton]
            omega) (.refl _) (List.prefix_refl _)
        rw [← List.range_eq_range'] at hrun
        rw [hlists]
        exact ⟨_, Engine.publishWith_of_entered hb henter hrun, hq.pop, hpre⟩

/-- Publishing with `room` more events in flight takes `room + 1` frames; more do no harm. -/
theorem simulates_publish (room extra : Nat) :
    SimulatesPublish bus room (Engine.ofFrames (scripted bus code) (room + 1 + extra))
      (PlainBus.publish code room) := by
  induction room with
  | zero =>
    refine ⟨PlainBus.later_publish code 0, fun event value => ?_⟩
    rw [Nat.add_right_comm, Engine.ofFrames_succ]
    exact simulates_publishWith code value event fun less h => absurd h (Nat.zero_ne_add_one less)
  | succ room ih =>
    refine ⟨PlainBus.later_publish code (room + 1), fun event value => ?_⟩
    rw [Nat.add_right_comm, Engine.ofFrames_succ, ← Nat.add_right_comm]
    refine simulates_publishWith code value event fun less h => ?_
    obtain rfl := Nat.add_right_cancel h
    rw [Nat.add_right_comm] at ih
    exact ih

end

/-! ## Scripts on a new bus -/

/-- A script on a new bus does what it does on a plain bus: the answers are the same, so are the calls
of listeners and the state that the scripts share, and in the end the same registrations wait for each
event and no place was given out twice. -/
theorem plain_bus_refined (limit extra : Nat) (code : κ → Value → BusScript κ σ Outcome)
    (script : BusScript κ σ α) (q : Page (Nat × κ) (Ledger σ)) (own : σ) :
    let bus := (q.addBus limit).1
    let a := script.eval (PlainBus.publish code limit) { limit, host := own }
    ∃ p r, (script.program bus).run (Engine.ofFrames (scripted bus code) (limit + 1 + extra))
        { (q.addBus limit).2 with host := { own } } = some (a.1, p) ∧
      p.host.own = a.2.host ∧ p.host.calls = a.2.calls ∧
      p.host.places.length = a.2.issued ∧ p.host.places.Nodup ∧
      p.bus? bus = some r ∧ r.inFlight = a.2.stack ∧
      ∀ event, r.isRegistered event = a.2.isRegistered event ∧
        r.listenerCount event = a.2.listenerCount event := by
  intro bus a
  have hp : SimulatesPublish bus limit (Engine.ofFrames (scripted bus code) (limit + 1 + extra))
      (PlainBus.publish code limit) := simulates_publish code limit extra
  obtain ⟨p, hrun, hm, -⟩ := simulates_eval hp script _ _ (Mirrors.init limit q own)
    (Nat.zero_add limit)
  obtain ⟨r, hb, hr, -, hf⟩ := hm.registry
  exact ⟨p, r, hrun, hm.own, hm.calls, hm.issued.symm, hr.issued.nodup, hb, hf,
    fun event => ⟨hr.isRegistered event, hr.listenerCount event⟩⟩

end Bindery
