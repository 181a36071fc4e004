import Bindery.Proofs.Bus.Channels
import Bindery.Proofs.Engine.Publishing
import Bindery.Proofs.Page.Receiving

/-!
# Announcements on a quiet bus

On a bus whose listeners were all made by binding, publishing calls no code: it fails at the door, or
every listener of the event receives the value.

* `Registry.heard`      the listeners of an event
* `publishWith_quiet`   publishing on such a bus
* `write_quiet_ok`      a write with nothing in flight
-/

namespace Bindery

namespace Registry

variable {L : Type}

def heard (r : Registry L) (event : String) : List L := (r.slotsOf event).filterMap id

theorem mem_heard {r : Registry L} {event : String} {l : L} :
    l ∈ r.heard event ↔ some l ∈ r.slotsOf event := by
  simp [heard]

theorem mem_heard_of_slot? {r : Registry L} {event : String} {generation i : Nat} {l : L}
    (h : r.slot? event generation i = some (some l)) : l ∈ r.heard event := by
  cases hc : r.channel? event with
  | none =>
    rw [slot?_of_none hc] at h
    cases h
  | some c =>
    rw [slot?_of_some hc] at h
    split at h
    · rw [mem_heard, slotsOf_of_some hc]
      exact List.mem_of_getElem? (Option.join_eq_some_iff.mp (Option.some.inj h))
    · cases h

theorem mem_listeners_of_heard {r : Registry L} {event : String} {l : L} (h : l ∈ r.heard event) :
    l ∈ r.listeners := by
  rw [mem_heard] at h
  obtain ⟨c, hc⟩ := exists_channel_of_mem_slotsOf h
  rw [slotsOf_of_some hc] at h
  exact mem_listeners.mpr ⟨c, List.mem_of_find?_eq_some hc, h⟩

theorem heard_of_no_channels {r : Registry L} (h : r.channels = []) (event : String) :
    r.heard event = [] := by
  have hc : r.channel? event = none := by
    unfold channel?
    rw [h]
    rfl
  unfold heard
  rw [slotsOf_of_none hc]
  rfl

theorem heard_subscribe (r : Registry L) (event : String) (l : L) (other : String) :
    (r.subscribe event l).2.heard other
      = if event = other then r.heard other ++ [l] else r.heard other := by
  unfold heard
  rw [slotsOf_subscribe]
  split
  · rw [List.filterMap_append]
    rfl
  · rfl

end Registry

/-- All listeners were made by binding. -/
def Registry.Quiet {κ : Type} (r : Registry (Listener κ)) : Prop :=
  ∀ event, ∀ l ∈ r.heard event, l.isBinding = true

/-- A listener of the event writes this property of the element. -/
def Registry.Displays {κ : Type} (r : Registry (Listener κ)) (event : String) (e : ElementId)
    (name : String) : Prop :=
  ∃ l ∈ r.heard event, l.propertyOn e = some name

namespace Page

variable {κ σ : Type}

theorem modifyBus_modifyBus_cancel {p : Page κ σ} {b : BusId} {r : Registry (Listener κ)}
    (h : p.bus? b = some r) {f g : Registry (Listener κ) → Registry (Listener κ)}
    (hfg : g (f r) = r) : (p.modifyBus b f).modifyBus b g = p := by
  have hb : (p.buses.modify b.index f).modify b.index g = p.buses := by
    apply Array.ext_getElem?
    intro i
    rw [Array.getElem?_modify, Array.getElem?_modify]
    by_cases hi : b.index = i
    · subst hi
      have h' : p.buses[b.index]? = some r := h
      rw [if_pos rfl, if_pos rfl, h', Option.map_some, Option.map_some, hfg]
    · rw [if_neg hi, if_neg hi]
  show { p with buses := (p.buses.modify b.index f).modify b.index g } = p
  rw [hb]

end Page

namespace Engine

variable {κ σ : Type} (callbacks : Callbacks κ σ) (engine : Engine κ σ) {bus : BusId}
  {event : String} (value : Value)

theorem notify_of_isBinding {l : Listener κ} (h : l.isBinding = true) (p : Page κ σ) :
    notify callbacks engine l value p = some (.ok (), p.receive value l) := by
  cases l with
  | text e m template names changed =>
    rw [notify, Run.get_bind, Page.receive_text]
    split <;> rfl
  | property e name =>
    rw [notify, Run.get_bind, Page.receive_property]
    split <;> rfl
  | callback code => cases h

/-- The turns that are left of a delivery on a quiet bus, the next one at slot `i`. -/
theorem deliver_quiet {r : Registry (Listener κ)} {c : Channel (Listener κ)}
    (hc : r.channel? event = some c) (hq : ∀ l, some l ∈ c.slots → l.isBinding = true) (m i : Nat)
    (hi : i + m = c.slots.length) {p : Page κ σ} (hb : p.bus? bus = some r) :
    deliver callbacks engine bus event c.generation value (List.range' i m) p
      = some (.ok (), p.receiveAll value ((c.slots.drop i).filterMap id)) := by
  induction m generalizing i p with
  | zero =>
    rw [List.drop_of_length_le (by omega)]
    rfl
  | succ m ih =>
    have hlt : i < c.slots.length := by omega
    have hs : r.slot? event c.generation i = some c.slots[i] := by
      rw [Registry.slot?_of_some hc, if_pos rfl, List.getElem?_eq_getElem hlt, Option.join_some]
    rw [List.range'_succ, List.drop_eq_getElem_cons hlt, List.filterMap_cons]
    cases hl : c.slots[i] with
    | none =>
      rw [hl] at hs
      rw [deliver_of_empty hb hs, ih (i + 1) (by omega) hb]
      rfl
    | some l =>
      rw [hl] at hs
      have hm : some l ∈ c.slots := hl ▸ List.getElem_mem hlt
      rw [deliver_of_called hb hs (notify_of_isBinding callbacks engine value (hq l hm) p),
        ih (i + 1) (by omega) ((Page.bus?_receive p l bus).trans hb)]
      rfl

/-- Publishing on a quiet bus: refused at the door, or received by all. -/
theorem publishWith_quiet {r : Registry (Listener κ)} (hq : r.Quiet) {p : Page κ σ}
    (hb : p.bus? bus = some r) :
    publishWith callbacks engine bus event value p
      = match r.enter event with
        | .error failure => some (.error failure, p)
        | .ok _ => some (.ok (), p.receiveAll value (r.heard event)) := by
  cases hc : r.channel? event with
  | none =>
    have he := Registry.enter_of_none hc
    rw [publishWith_of_silent hb he, he, Registry.heard, Registry.slotsOf_of_none hc]
    rfl
  | some c =>
    have hh : r.heard event = c.slots.filterMap id := by
      rw [Registry.heard, Registry.slotsOf_of_some hc]
    have he := Registry.enter_of_some hc
    by_cases hcycle : event ∈ r.inFlight
    · rw [if_pos hcycle] at he
      rw [publishWith_of_refused hb he, he]
    · rw [if_neg hcycle] at he
      by_cases hdeep : r.maxDepth ≤ r.inFlight.length
      · rw [if_pos hdeep] at he
        rw [publishWith_of_refused hb he, he]
      · rw [if_neg hdeep] at he
        have hslots : ∀ l, some l ∈ c.slots → l.isBinding = true := fun l hl =>
          hq event l (by rw [hh]; simpa using hl)
        have hd := deliver_quiet callbacks engine value
          (r := { r with inFlight := r.inFlight ++ [event] }) hc hslots c.slots.length 0
          (Nat.zero_add _) (Page.bus?_modifyBus_self hb fun _ =>
            { r with inFlight := r.inFlight ++ [event] })
        rw [← List.range_eq_range', List.drop_zero, Page.receiveAll_modifyBus _ _ fun r' hr' => by
          cases hb.symm.trans hr'
          rfl] at hd
        rw [publishWith_of_entered hb he hd, he, hh]
        refine congrArg (fun q => some (Except.ok (), q)) ?_
        refine Page.modifyBus_modifyBus_cancel ((Page.bus?_receiveAll ..).trans hb) ?_
        show { r with inFlight := (r.inFlight ++ [event]).dropLast } = r
        rw [List.dropLast_concat]

theorem publishWith_quiet_ok {r : Registry (Listener κ)} (hq : r.Quiet) {p : Page κ σ}
    (hb : p.bus? bus = some r) (hf : event ∉ r.inFlight) (hd : r.inFlight.length < r.maxDepth) :
    publishWith callbacks engine bus event value p
      = some (.ok (), p.receiveAll value (r.heard event)) := by
  rw [publishWith_quiet callbacks engine value hq hb]
  cases hc : r.channel? event with
  | none => rw [Registry.enter_of_none hc]
  | some c =>
    have he := Registry.enter_of_some hc
    rw [if_neg hf, if_neg (by omega)] at he
    rw [he]

theorem write_quiet_ok {r : Registry (Listener κ)} (hq : r.Quiet) (hidle : r.inFlight = [])
    (hroom : 0 < r.maxDepth) (frames : Nat) {p : Page κ σ} {m : ModelId} {d : Model}
    (hm : p.model? m = some d) (hb : p.bus? d.bus = some r) {key : String} (hk : key ∈ d.observed) :
    (ofFrames callbacks (frames + 1)).write m key value p
      = some (.ok (), (((p.store m key value).hold (.model m)).receiveAll value
          (r.heard (d.event key))).release (.model m)) := by
  rw [write_of_observed hm hk]
  refine Run.holding_of_eq ?_
  rw [ofFrames_succ]
  refine publishWith_quiet_ok callbacks _ _ hq hb ?_ ?_
  · rw [hidle]
    exact List.not_mem_nil
  · rw [hidle]
    exact hroom

theorem receiveAll_of_publishWith {r : Registry (Listener κ)} (hq : r.Quiet) {p q : Page κ σ}
    (hb : p.bus? bus = some r)
    (h : publishWith callbacks engine bus event value p = some (.ok (), q)) :
    q = p.receiveAll value (r.heard event) := by
  rw [publishWith_quiet callbacks engine value hq hb] at h
  split at h
  · cases h
  · cases h
    rfl

end Engine

end Bindery
