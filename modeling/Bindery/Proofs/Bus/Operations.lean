import Mathlib.Data.List.Nodup
import Bindery.Proofs.Bus.Places

/-!
# What becomes of a registry

Whoever calls a bus, and in the middle of whatever delivery, its registry changes by five operations:
somebody comes in, gives a place up or clears everything, and a delivery begins or ends.  So what holds
of every registry is what the operations keep, in any order.

A place is the handle of the listener that came into it.  The slot of a place can only lose its
listener, and go with its channel; no slot is filled again, and no slot takes the place of another.

* `slotAt?`, `Wanes`                     the slot at a place, and what becomes of it
* `Operation`, `replay`, `issued`        operations one after the other, and the places they give out
* `Sound`                                the invariant of a registry with the places it gave out
* `Sound.apply`, `Sound.wanes`           one operation
* `Sound.replay`, `Sound.wanes_replay`   a whole row of operations
-/

namespace Bindery.Registry

variable {L : Type} {r : Registry L}

/-! ## The slot at a place -/

/-- The slot at a place: `none` if it is in no channel of today, `some none` if it is empty. -/
def slotAt? (r : Registry L) (place : Registration) : Option (Option L) :=
  (r.channel? place.event).bind fun c =>
    if c.generation = place.generation then c.slots[place.index]? else none

/-- What becomes of a slot: its listener is taken out, and in the end its channel goes. -/
inductive Wanes : Option (Option L) → Option (Option L) → Prop
  | same (s : Option (Option L)) : Wanes s s
  | emptied (l : L) : Wanes (some (some l)) (some none)
  | gone (s : Option (Option L)) : Wanes s none

theorem Wanes.trans {s t u : Option (Option L)} (h : Wanes s t) (k : Wanes t u) : Wanes s u := by
  cases k with
  | same => exact h
  | gone => exact .gone s
  | emptied l =>
    cases h with
    | same => exact .emptied l

theorem Wanes.vacant {s t : Option (Option L)} (h : Wanes s t) (hs : ∀ l, s ≠ some (some l)) :
    ∀ l, t ≠ some (some l) := by
  cases h with
  | same => exact hs
  | emptied l => exact absurd rfl (hs l)
  | gone => exact nofun

/-- A slot that is still there is as it was, or empty. -/
theorem Wanes.eq_or_none {s : Option (Option L)} {t : Option L} (h : Wanes s (some t)) :
    some t = s ∨ t = none := by
  cases h with
  | same => exact Or.inl rfl
  | emptied => exact Or.inr rfl

theorem slotAt?_of_channel? {place : Registration} {c : Channel L}
    (hc : r.channel? place.event = some c) (hg : c.generation = place.generation) :
    r.slotAt? place = c.slots[place.index]? := by
  rw [slotAt?, hc, Option.bind_some, if_pos hg]

theorem slotAt?_subscribe_self (r : Registry L) (event : String) (listener : L) :
    (r.subscribe event listener).2.slotAt? (r.subscribe event listener).1 = some (some listener) := by
  have hc := (r.channel?_subscribe event listener event).trans (if_pos rfl)
  rw [place_subscribe, slotAt?_of_channel? hc rfl]
  exact List.getElem?_concat_length

theorem slotAt?_subscribe {places : List Registration} (h : r.Issued places) {place : Registration}
    (hp : place ∈ places) (event : String) (listener : L) :
    (r.subscribe event listener).2.slotAt? place = r.slotAt? place := by
  rw [slotAt?, slotAt?, channel?_subscribe]
  split
  · rename_i he
    subst he
    rw [Option.bind_some]
    cases hc : r.channel? place.event with
    | none =>
      have hne : r.nextGeneration ≠ place.generation := Nat.ne_of_gt (h.old hp)
      rw [generationFor_of_none hc, if_neg hne]
      rfl
    | some c =>
      rw [generationFor_of_some hc, slotsOf_of_some hc, Option.bind_some]
      split
      · rename_i hg
        exact List.getElem?_append_left (h.within hp hc hg.symm)
      · rfl
  · rfl

theorem wanes_set (slots : List (Option L)) (i j : Nat) : Wanes slots[j]? (slots.set i none)[j]? := by
  rw [List.getElem?_set]
  split
  · rename_i hij
    subst hij
    split
    · rename_i hlt
      rw [List.getElem?_eq_getElem hlt]
      cases slots[i] with
      | none => exact .same _
      | some l => exact .emptied l
    · exact .gone _
  · exact .same _

/-- Giving up a place empties its slot, or takes its channel away. -/
theorem wanes_remove (r : Registry L) (place other : Registration) :
    Wanes (r.slotAt? other) ((r.remove place).slotAt? other) := by
  rw [slotAt?, slotAt?, channel?_remove]
  split
  · cases hc : r.channel? other.event with
    | none => exact .same _
    | some c =>
      rw [Option.bind_some, Option.bind_some]
      cases hw : c.without place with
      | none => exact .gone _
      | some d =>
        rcases Channel.eq_of_without hw with rfl | ⟨-, rfl, -⟩
        · exact .same _
        · rw [Option.bind_some]
          show Wanes _ (if c.generation = other.generation then _ else _)
          split
          · exact wanes_set c.slots place.index other.index
          · exact .same _
  · exact .same _

/-! ## Operations -/

/-- What can be done to a registry.  Any place can be given up, also one that was never given out. -/
inductive Operation (L : Type) where
  | subscribe (event : String) (listener : L)
  | remove (place : Registration)
  | clear
  | enter (event : String)
  | leave

namespace Operation

def apply (r : Registry L) : Operation L → Registry L
  | subscribe event listener => (r.subscribe event listener).2
  | remove place => r.remove place
  | clear => r.clear
  | enter event =>
    match r.enter event with
    | .ok (some (_, entered)) => entered
    | _ => r
  | leave => r.leave

/-- The place that an operation gives out, with the listener that comes into it. -/
def issue (r : Registry L) : Operation L → List (Registration × L)
  | subscribe event listener => [((r.subscribe event listener).1, listener)]
  | _ => []

end Operation

def replay (r : Registry L) : List (Operation L) → Registry L
  | [] => r
  | op :: rest => replay (op.apply r) rest

def issued (r : Registry L) : List (Operation L) → List (Registration × L)
  | [] => []
  | op :: rest => op.issue r ++ issued (op.apply r) rest

theorem replay_append (r : Registry L) (ops more : List (Operation L)) :
    r.replay (ops ++ more) = (r.replay ops).replay more := by
  induction ops generalizing r with
  | nil => rfl
  | cons op rest ih => exact ih _

theorem issued_append (r : Registry L) (ops more : List (Operation L)) :
    r.issued (ops ++ more) = r.issued ops ++ (r.replay ops).issued more := by
  induction ops generalizing r with
  | nil => rfl
  | cons op rest ih =>
    rw [List.cons_append, issued, issued, ih, List.append_assoc]
    rfl

theorem apply_enter (r : Registry L) (event : String) :
    ∃ events, (Operation.enter event).apply r = { r with inFlight := events } := by
  unfold Operation.apply
  dsimp only
  split
  · rename_i h
    exact ⟨_, (enter_eq_some h).2.2⟩
  · exact ⟨r.inFlight, rfl⟩

theorem maxDepth_replay (r : Registry L) (ops : List (Operation L)) :
    (r.replay ops).maxDepth = r.maxDepth := by
  induction ops generalizing r with
  | nil => rfl
  | cons op rest ih =>
    rw [replay, ih]
    cases op with
    | subscribe event listener => exact r.maxDepth_subscribe event listener
    | remove place => exact r.maxDepth_remove place
    | clear => rfl
    | enter event =>
      obtain ⟨events, h⟩ := r.apply_enter event
      rw [h]
    | leave => rfl

/-! ## The invariant -/

/-- A registry and the places that it gave out, each with the listener that came into it.  Channels
are told apart by their events, and no two events have shared a generation.  A slot holds the listener
that came into it, or none. -/
structure Sound (r : Registry L) (issued : List (Registration × L)) : Prop
    extends Issued r (issued.map Prod.fst) where
  events : (r.channels.map Channel.event).Nodup
  oneEvent : ∀ x ∈ issued, ∀ y ∈ issued, x.1.generation = y.1.generation → x.1.event = y.1.event
  own : ∀ x ∈ issued, Wanes (some (some x.2)) (r.slotAt? x.1)
  created : r.nextGeneration = issued.countP (·.1.index = 0)

theorem channel?_of_mem (h : (r.channels.map Channel.event).Nodup) {c : Channel L}
    (hc : c ∈ r.channels) : r.channel? c.event = some c := by
  rw [channel?, List.find?_eq_some_iff_append]
  obtain ⟨front, back, hsplit⟩ := List.append_of_mem hc
  refine ⟨decide_eq_true rfl, front, back, hsplit, fun d hd => ?_⟩
  rw [hsplit, List.map_append, List.nodup_append] at h
  have hne : d.event ≠ c.event :=
    h.2.2 _ (List.mem_map_of_mem hd) _ (List.mem_map_of_mem List.mem_cons_self)
  rw [decide_eq_false hne, Bool.not_false]

theorem events_replace (r : Registry L) (c : Channel L) :
    (r.replace c).channels.map Channel.event = r.channels.map Channel.event := by
  show (r.channels.map _).map _ = _
  rw [List.map_map]
  refine List.map_congr_left fun d _ => ?_
  show (if d.event = c.event then c else d).event = d.event
  split
  · rename_i h
    exact h.symm
  · rfl

theorem nodup_events_subscribe (h : (r.channels.map Channel.event).Nodup) (event : String)
    (listener : L) : ((r.subscribe event listener).2.channels.map Channel.event).Nodup := by
  cases hc : r.channel? event with
  | some c =>
    rw [subscribe_of_some hc, events_replace]
    exact h
  | none =>
    rw [subscribe_of_none hc]
    show ((r.channels ++ [_]).map Channel.event).Nodup
    rw [List.map_append, List.map_singleton, ← List.concat_eq_append, List.nodup_concat]
    refine ⟨fun hm => ?_, h⟩
    obtain ⟨d, hd, he⟩ := List.mem_map.mp hm
    exact absurd (decide_eq_true he) (List.find?_eq_none.mp hc d hd)

theorem nodup_events_remove (h : (r.channels.map Channel.event).Nodup) (place : Registration) :
    ((r.remove place).channels.map Channel.event).Nodup := by
  unfold remove
  cases r.channel? place.event with
  | none => exact h
  | some c =>
    dsimp only
    split
    · split
      · exact h.sublist (List.filter_sublist.map _)
      · rw [events_replace]
        exact h
    · exact h

namespace Sound

variable {issued : List (Registration × L)}

theorem init (maxDepth : Nat) : Sound ({ maxDepth } : Registry L) [] where
  toIssued := .init maxDepth
  events := List.nodup_nil
  oneEvent _ hx := nomatch hx
  own _ hx := nomatch hx
  created := rfl

theorem inFlight (h : r.Sound issued) (events : List String) :
    Sound { r with inFlight := events } issued where
  toIssued := h.toIssued.inFlight events
  events := h.events
  oneEvent := h.oneEvent
  own := h.own
  created := h.created

/-- Every channel has given out the place of its first slot. -/
theorem exists_first (h : r.Sound issued) {event : String} {c : Channel L}
    (hc : r.channel? event = some c) : ∃ x ∈ issued, x.1 = ⟨event, c.generation, 0⟩ :=
  List.mem_map.mp (h.covered hc (h.slots_pos hc))

/-- A listener comes into the channel of its event, or into one of a generation that is new. -/
theorem event_of_generationFor (h : r.Sound issued) {event : String} {x : Registration × L}
    (hx : x ∈ issued) (hg : x.1.generation = r.generationFor event) : x.1.event = event := by
  cases hc : r.channel? event with
  | some c =>
    obtain ⟨y, hy, hfirst⟩ := h.exists_first hc
    rw [generationFor_of_some hc] at hg
    have hsame : x.1.generation = y.1.generation := by rw [hg, hfirst]
    rw [h.oneEvent x hx y hy hsame, hfirst]
  | none =>
    rw [generationFor_of_none hc] at hg
    exact absurd (h.old (List.mem_map_of_mem hx)) (hg ▸ Nat.lt_irrefl _)

theorem subscribe (h : r.Sound issued) (event : String) (listener : L) :
    (r.subscribe event listener).2.Sound (issued ++ [((r.subscribe event listener).1, listener)]) where
  toIssued := by
    rw [List.map_append]
    exact h.toIssued.subscribe event listener
  events := nodup_events_subscribe h.events event listener
  oneEvent := by
    have hnew : ∀ x ∈ issued, x.1.generation = (r.subscribe event listener).1.generation →
        x.1.event = (r.subscribe event listener).1.event := by
      intro x hx hg
      rw [place_subscribe] at hg ⊢
      exact h.event_of_generationFor hx hg
    intro x hx y hy hg
    rcases List.mem_append.mp hx with hx | hx <;> rcases List.mem_append.mp hy with hy | hy
    · exact h.oneEvent x hx y hy hg
    · rw [List.mem_singleton.mp hy] at hg ⊢
      exact hnew x hx hg
    · rw [List.mem_singleton.mp hx] at hg ⊢
      exact (hnew y hy hg.symm).symm
    · rw [List.mem_singleton.mp hx, List.mem_singleton.mp hy]
  own x hx := by
    rcases List.mem_append.mp hx with hx | hx
    · rw [slotAt?_subscribe h.toIssued (List.mem_map_of_mem hx)]
      exact h.own x hx
    · rw [List.mem_singleton.mp hx, slotAt?_subscribe_self]
      exact .same _
  created := by
    rw [nextGeneration_subscribe, List.countP_append, ← h.created, List.countP_singleton,
      place_subscribe]
    cases hc : r.channel? event with
    | some c =>
      have hpos : (r.slotsOf event).length ≠ 0 := by
        rw [slotsOf_of_some hc]
        exact Nat.ne_of_gt (h.slots_pos hc)
      simp [hpos]
    | none => simp [slotsOf_of_none hc]

theorem remove (h : r.Sound issued) (place : Registration) : (r.remove place).Sound issued where
  toIssued := h.toIssued.remove place
  events := nodup_events_remove h.events place
  oneEvent := h.oneEvent
  own x hx := (h.own x hx).trans (wanes_remove r place x.1)
  created := (Issued.nextGeneration_remove r place).trans h.created

theorem clear (h : r.Sound issued) : r.clear.Sound issued where
  toIssued := h.toIssued.clear
  events := List.nodup_nil
  oneEvent := h.oneEvent
  own _ _ := .gone _
  created := h.created

theorem apply (h : r.Sound issued) (op : Operation L) : (op.apply r).Sound (issued ++ op.issue r) := by
  cases op with
  | subscribe event listener => exact h.subscribe event listener
  | remove place => exact (List.append_nil issued).symm ▸ h.remove place
  | clear => exact (List.append_nil issued).symm ▸ h.clear
  | enter event =>
    obtain ⟨events, he⟩ := r.apply_enter event
    rw [he]
    exact (List.append_nil issued).symm ▸ h.inFlight events
  | leave => exact (List.append_nil issued).symm ▸ h.inFlight _

/-- One operation takes listeners out of the places that were given out, and puts none in. -/
theorem wanes (h : r.Sound issued) {x : Registration × L} (hx : x ∈ issued) (op : Operation L) :
    Wanes (r.slotAt? x.1) ((op.apply r).slotAt? x.1) := by
  cases op with
  | subscribe event listener =>
    exact slotAt?_subscribe h.toIssued (List.mem_map_of_mem hx) event listener ▸ .same _
  | remove place => exact wanes_remove r place x.1
  | clear => exact .gone _
  | enter event =>
    obtain ⟨events, he⟩ := r.apply_enter event
    rw [he]
    exact .same _
  | leave => exact .same _

/-! ### Whole rows of operations -/

theorem replay (h : r.Sound issued) (ops : List (Operation L)) :
    (r.replay ops).Sound (issued ++ r.issued ops) := by
  induction ops generalizing r issued with
  | nil => exact (List.append_nil issued).symm ▸ h
  | cons op rest ih =>
    have hrest := ih (h.apply op)
    rw [List.append_assoc] at hrest
    exact hrest

theorem wanes_replay (h : r.Sound issued) {x : Registration × L} (hx : x ∈ issued)
    (ops : List (Operation L)) : Wanes (r.slotAt? x.1) ((r.replay ops).slotAt? x.1) := by
  induction ops generalizing r issued with
  | nil => exact .same _
  | cons op rest ih => exact (h.wanes hx op).trans (ih (h.apply op) (List.mem_append_left _ hx))

end Sound

end Bindery.Registry
