import Bindery.Bus.Registry

/-!
# The channels of a registry

Everything that a registry answers goes through `channel?`, the channel of an event.  Here each
operation is described by what it does to the channels, so that later proofs need not look at the
list in which they are kept.

* `slotsOf`, `generationFor`                 the slots of an event, and the generation of its channel
* `channel?_subscribe`, `channel?_remove`    the channels after an operation
* `enter_of_some`, `slot?_of_some`           what a delivery asks of a channel
-/

namespace Bindery

namespace Channel

variable {L : Type}

theorem isEmpty_eq_false_iff (c : Channel L) : c.isEmpty = false ↔ ∃ l, some l ∈ c.slots := by
  rw [isEmpty, List.all_eq_false]
  constructor
  · rintro ⟨s, hs, hn⟩
    cases s with
    | none => exact absurd rfl hn
    | some l => exact ⟨l, hs⟩
  · rintro ⟨l, hl⟩
    exact ⟨some l, hl, by simp⟩

/-- What is left of a channel after a place was given up, nothing if it was the last one. -/
def without (c : Channel L) (place : Registration) : Option (Channel L) :=
  if c.generation = place.generation then
    if (c.empty place.index).isEmpty then none else some (c.empty place.index)
  else some c

theorem without_of_ne {c : Channel L} {place : Registration}
    (h : c.generation ≠ place.generation) : c.without place = some c := if_neg h

theorem eq_of_without {c d : Channel L} {place : Registration} (h : c.without place = some d) :
    d = c ∨ c.generation = place.generation ∧ d = c.empty place.index ∧ d.isEmpty = false := by
  unfold without at h
  split at h
  · rename_i hg
    split at h
    · cases h
    · rename_i he
      cases h
      exact Or.inr ⟨hg, rfl, by simpa using he⟩
  · cases h
    exact Or.inl rfl

end Channel

namespace Registry

variable {L : Type}

theorem event_of_channel? {r : Registry L} {event : String} {c : Channel L}
    (h : r.channel? event = some c) : c.event = event := by
  have := List.find?_some h
  simpa using this

theorem channel?_replace (r : Registry L) (c : Channel L) (event : String) :
    (r.replace c).channel? event
      = if c.event = event then (r.channel? event).map fun _ => c else r.channel? event := by
  show (r.channels.map _).find? _ = _
  unfold channel?
  induction r.channels with
  | nil => simp
  | cons d l ih =>
    rw [List.map_cons, List.find?_cons, List.find?_cons, ih]
    by_cases hd : d.event = c.event
    · by_cases he : c.event = event
      · simp [hd, he]
      · simp [hd, he]
    · by_cases he : c.event = event
      · have hde : ¬ d.event = event := fun h => hd (h.trans he.symm)
        simp [he, hde]
      · simp [hd, he]

theorem channel?_drop (r : Registry L) (event other : String) :
    (r.drop event).channel? other = if event = other then none else r.channel? other := by
  show (r.channels.filter _).find? _ = _
  unfold channel?
  rw [List.find?_filter]
  by_cases h : event = other
  · subst h
    rw [if_pos rfl, List.find?_eq_none]
    intro d _ hd
    simp at hd
  · rw [if_neg h]
    congr 1
    funext d
    by_cases hd : d.event = other
    · have hn : d.event ≠ event := fun e => h (e.symm.trans hd)
      simp [hd, Ne.symm h]
    · simp [hd]

def slotsOf (r : Registry L) (event : String) : List (Option L) :=
  match r.channel? event with
  | some c => c.slots
  | none => []

/-- The generation of the channel that a new listener of an event comes into. -/
def generationFor (r : Registry L) (event : String) : Nat :=
  match r.channel? event with
  | some c => c.generation
  | none => r.nextGeneration

theorem slotsOf_of_some {r : Registry L} {event : String} {c : Channel L}
    (h : r.channel? event = some c) : r.slotsOf event = c.slots := by
  unfold slotsOf
  rw [h]

theorem slotsOf_of_none {r : Registry L} {event : String} (h : r.channel? event = none) :
    r.slotsOf event = [] := by
  unfold slotsOf
  rw [h]

theorem generationFor_of_some {r : Registry L} {event : String} {c : Channel L}
    (h : r.channel? event = some c) : r.generationFor event = c.generation := by
  unfold generationFor
  rw [h]

theorem generationFor_of_none {r : Registry L} {event : String} (h : r.channel? event = none) :
    r.generationFor event = r.nextGeneration := by
  unfold generationFor
  rw [h]

theorem subscribe_of_some {r : Registry L} {event : String} {c : Channel L}
    (h : r.channel? event = some c) (listener : L) :
    r.subscribe event listener
      = (⟨event, c.generation, c.slots.length⟩, r.replace (c.add listener)) := by
  unfold subscribe
  rw [h]

theorem subscribe_of_none {r : Registry L} {event : String} (h : r.channel? event = none)
    (listener : L) :
    r.subscribe event listener
      = (⟨event, r.nextGeneration, 0⟩,
        { r with
          channels := r.channels ++ [⟨event, r.nextGeneration, [some listener]⟩]
          nextGeneration := r.nextGeneration + 1 }) := by
  unfold subscribe
  rw [h]

theorem channel?_subscribe (r : Registry L) (event : String) (listener : L) (other : String) :
    (r.subscribe event listener).2.channel? other
      = if event = other then
          some ⟨event, r.generationFor event, r.slotsOf event ++ [some listener]⟩
        else r.channel? other := by
  cases hc : r.channel? event with
  | some c =>
    have hev : c.event = event := event_of_channel? hc
    rw [subscribe_of_some hc, generationFor_of_some hc, slotsOf_of_some hc]
    show (r.replace (c.add listener)).channel? other = _
    rw [channel?_replace]
    show (if c.event = other then _ else _) = _
    rw [hev]
    by_cases h : event = other
    · rw [if_pos h, if_pos h, ← h, hc, ← hev]
      rfl
    · rw [if_neg h, if_neg h]
  | none =>
    rw [subscribe_of_none hc, generationFor_of_none hc, slotsOf_of_none hc]
    show (r.channels ++ [_]).find? _ = _
    rw [List.find?_append]
    by_cases h : event = other
    · subst h
      have hn : r.channels.find? (·.event = event) = none := hc
      rw [hn]
      simp
    · rw [if_neg h]
      have hs : [(⟨event, r.nextGeneration, [some listener]⟩ : Channel L)].find?
          (·.event = other) = none := by simp [h]
      rw [hs, Option.or_none]
      rfl

theorem place_subscribe (r : Registry L) (event : String) (listener : L) :
    (r.subscribe event listener).1
      = ⟨event, r.generationFor event, (r.slotsOf event).length⟩ := by
  cases hc : r.channel? event with
  | some c => rw [subscribe_of_some hc, generationFor_of_some hc, slotsOf_of_some hc]
  | none => rw [subscribe_of_none hc, generationFor_of_none hc, slotsOf_of_none hc]; rfl

theorem slotsOf_subscribe (r : Registry L) (event : String) (listener : L) (other : String) :
    (r.subscribe event listener).2.slotsOf other
      = if event = other then r.slotsOf other ++ [some listener] else r.slotsOf other := by
  have hc := r.channel?_subscribe event listener other
  by_cases h : event = other
  · subst h
    rw [if_pos rfl] at hc ⊢
    exact slotsOf_of_some hc
  · rw [if_neg h] at hc ⊢
    unfold slotsOf
    rw [hc]

theorem generationFor_subscribe_self (r : Registry L) (event : String) (listener : L) :
    (r.subscribe event listener).2.generationFor event = r.generationFor event :=
  generationFor_of_some ((r.channel?_subscribe event listener event).trans (if_pos rfl))

theorem exists_channel_of_mem_slotsOf {r : Registry L} {event : String} {s : Option L}
    (h : s ∈ r.slotsOf event) : ∃ c, r.channel? event = some c := by
  cases hc : r.channel? event with
  | some c => exact ⟨c, rfl⟩
  | none =>
    rw [slotsOf_of_none hc] at h
    cases h

theorem generationFor_subscribe_of_mem {r : Registry L} {event other : String} {s : Option L}
    (h : s ∈ r.slotsOf other) (listener : L) :
    (r.subscribe event listener).2.generationFor other = r.generationFor other := by
  by_cases he : event = other
  · rw [he]
    exact generationFor_subscribe_self r other listener
  · obtain ⟨c, hc⟩ := exists_channel_of_mem_slotsOf h
    rw [generationFor_of_some hc]
    exact generationFor_of_some
      ((r.channel?_subscribe event listener other).trans ((if_neg he).trans hc))

theorem nextGeneration_subscribe (r : Registry L) (event : String) (listener : L) :
    (r.subscribe event listener).2.nextGeneration
      = if (r.channel? event).isSome then r.nextGeneration else r.nextGeneration + 1 := by
  unfold subscribe
  cases r.channel? event with
  | some c => rfl
  | none => rfl

theorem inFlight_subscribe (r : Registry L) (event : String) (listener : L) :
    (r.subscribe event listener).2.inFlight = r.inFlight := by
  unfold subscribe
  cases r.channel? event with
  | some c => rfl
  | none => rfl

theorem maxDepth_subscribe (r : Registry L) (event : String) (listener : L) :
    (r.subscribe event listener).2.maxDepth = r.maxDepth := by
  unfold subscribe
  cases r.channel? event with
  | some c => rfl
  | none => rfl

theorem mem_listeners {r : Registry L} {l : L} :
    l ∈ r.listeners ↔ ∃ c ∈ r.channels, some l ∈ c.slots := by
  simp [listeners, Channel.listeners]

theorem mem_listeners_of_replace {r : Registry L} {c : Channel L} {l : L}
    (h : l ∈ (r.replace c).listeners) : l ∈ r.listeners ∨ some l ∈ c.slots := by
  obtain ⟨d, hd, hl⟩ := mem_listeners.mp h
  obtain ⟨d', hd', rfl⟩ := List.mem_map.mp hd
  split at hl
  · exact Or.inr hl
  · exact Or.inl (mem_listeners.mpr ⟨d', hd', hl⟩)

theorem mem_listeners_of_subscribe {r : Registry L} {event : String} {listener l : L}
    (h : l ∈ (r.subscribe event listener).2.listeners) : l ∈ r.listeners ∨ l = listener := by
  cases hc : r.channel? event with
  | some c =>
    rw [subscribe_of_some hc] at h
    rcases mem_listeners_of_replace h with hl | hl
    · exact Or.inl hl
    · rcases List.mem_append.mp hl with hl | hl
      · exact Or.inl (mem_listeners.mpr ⟨c, List.mem_of_find?_eq_some hc, hl⟩)
      · exact Or.inr (Option.some.inj (List.mem_singleton.mp hl))
  | none =>
    rw [subscribe_of_none hc] at h
    obtain ⟨d, hd, hl⟩ := mem_listeners.mp h
    rcases List.mem_append.mp hd with hd | hd
    · exact Or.inl (mem_listeners.mpr ⟨d, hd, hl⟩)
    · cases List.mem_singleton.mp hd
      exact Or.inr (Option.some.inj (List.mem_singleton.mp hl))

theorem channel?_remove (r : Registry L) (place : Registration) (other : String) :
    (r.remove place).channel? other
      = if place.event = other then (r.channel? other).bind (·.without place)
        else r.channel? other := by
  unfold remove
  cases hc : r.channel? place.event with
  | none =>
    by_cases h : place.event = other
    · rw [if_pos h, ← h, hc]
      rfl
    · rw [if_neg h]
  | some c =>
    have he : (c.empty place.index).event = place.event := by
      show c.event = place.event
      exact event_of_channel? hc
    by_cases hg : c.generation = place.generation
    · have hw : c.without place
          = if (c.empty place.index).isEmpty then none else some (c.empty place.index) := if_pos hg
      by_cases hd : (c.empty place.index).isEmpty = true
      · simp only [hg, hd, if_true, channel?_drop]
        by_cases h : place.event = other
        · rw [if_pos h, if_pos h, ← h, hc, Option.bind_some, hw, if_pos hd]
        · rw [if_neg h, if_neg h]
      · simp only [hg, hd, if_true, if_false, Bool.false_eq_true, channel?_replace, he]
        by_cases h : place.event = other
        · rw [if_pos h, if_pos h, ← h, hc, Option.bind_some, hw, if_neg hd]
          rfl
        · rw [if_neg h, if_neg h]
    · simp only [hg, if_false]
      by_cases h : place.event = other
      · rw [if_pos h, ← h, hc, Option.bind_some, Channel.without_of_ne hg]
      · rw [if_neg h]

/-- Giving up a place empties its slot, and an event whose slots are all empty has none. -/
theorem slotsOf_remove (r : Registry L) (place : Registration) (other : String) :
    (r.remove place).slotsOf other
      = if place.event = other ∧ r.generationFor other = place.generation then
          if ((r.slotsOf other).set place.index none).all Option.isNone then []
          else (r.slotsOf other).set place.index none
        else r.slotsOf other := by
  have hr := r.channel?_remove place other
  by_cases h : place.event = other
  · rw [if_pos h] at hr
    cases hc : r.channel? other with
    | none =>
      rw [hc] at hr
      rw [slotsOf_of_none hr, slotsOf_of_none hc]
      split <;> rfl
    | some c =>
      rw [hc, Option.bind_some] at hr
      rw [slotsOf_of_some hc, generationFor_of_some hc]
      by_cases hg : c.generation = place.generation
      · rw [if_pos ⟨h, hg⟩]
        rw [show c.without place = _ from if_pos hg] at hr
        show _ = if (c.empty place.index).isEmpty then [] else (c.empty place.index).slots
        split at hr
        · rename_i he
          rw [slotsOf_of_none hr, if_pos he]
        · rename_i he
          rw [slotsOf_of_some hr, if_neg he]
      · rw [if_neg fun k => hg k.2]
        rw [Channel.without_of_ne hg] at hr
        exact slotsOf_of_some hr
  · rw [if_neg h] at hr
    rw [if_neg fun k => h k.1]
    unfold slotsOf
    rw [hr]

theorem generationFor_remove_of_mem {r : Registry L} {place : Registration} {event : String}
    {s : Option L} (h : s ∈ (r.remove place).slotsOf event) :
    (r.remove place).generationFor event = r.generationFor event := by
  obtain ⟨d, hd⟩ := exists_channel_of_mem_slotsOf h
  rw [generationFor_of_some hd]
  rw [channel?_remove] at hd
  split at hd
  · obtain ⟨c, hc, hw⟩ := Option.bind_eq_some_iff.mp hd
    rw [generationFor_of_some hc]
    rcases Channel.eq_of_without hw with rfl | ⟨-, rfl, -⟩ <;> rfl
  · exact (generationFor_of_some hd).symm

theorem maxDepth_remove (r : Registry L) (place : Registration) :
    (r.remove place).maxDepth = r.maxDepth := by
  unfold remove
  cases r.channel? place.event with
  | none => rfl
  | some c =>
    dsimp only
    split
    · split <;> rfl
    · rfl

theorem mem_listeners_of_remove {r : Registry L} {place : Registration} {l : L}
    (h : l ∈ (r.remove place).listeners) : l ∈ r.listeners := by
  unfold remove at h
  cases hc : r.channel? place.event with
  | none =>
    rw [hc] at h
    exact h
  | some c =>
    rw [hc] at h
    dsimp only at h
    split at h
    · split at h
      · obtain ⟨d, hd, hl⟩ := mem_listeners.mp h
        exact mem_listeners.mpr ⟨d, (List.mem_filter.mp hd).1, hl⟩
      · refine (mem_listeners_of_replace h).elim id fun hl => ?_
        have hold : some l ∈ c.slots := (List.mem_or_eq_of_mem_set hl).resolve_right nofun
        exact mem_listeners.mpr ⟨c, List.mem_of_find?_eq_some hc, hold⟩
    · exact h

theorem inFlight_remove (r : Registry L) (place : Registration) :
    (r.remove place).inFlight = r.inFlight := by
  unfold remove
  cases r.channel? place.event with
  | none => rfl
  | some c =>
    dsimp only
    split
    · split <;> rfl
    · rfl

/-! ## Deliveries -/

theorem enter_of_none {r : Registry L} {event : String} (h : r.channel? event = none) :
    r.enter event = .ok none := by
  unfold enter
  rw [h]

theorem enter_of_some {r : Registry L} {event : String} {c : Channel L}
    (h : r.channel? event = some c) :
    r.enter event
      = if event ∈ r.inFlight then .error (.cycle event r.inFlight)
        else if r.maxDepth ≤ r.inFlight.length then .error (.depthExceeded event r.maxDepth)
        else .ok (some (⟨c.generation, c.slots.length⟩, { r with inFlight := r.inFlight ++ [event] })) := by
  unfold enter
  rw [h]

/-- What a delivery that begins has found. -/
theorem enter_eq_some {r r' : Registry L} {event : String} {d : Delivery}
    (h : r.enter event = .ok (some (d, r'))) :
    event ∉ r.inFlight ∧ r.inFlight.length < r.maxDepth ∧
      r' = { r with inFlight := r.inFlight ++ [event] } := by
  unfold enter at h
  cases hc : r.channel? event with
  | none =>
    rw [hc] at h
    cases h
  | some c =>
    rw [hc] at h
    dsimp only at h
    split at h
    · cases h
    · rename_i hf
      split at h
      · cases h
      · rename_i hd
        cases h
        exact ⟨hf, Nat.lt_of_not_le hd, rfl⟩

/-- Why a delivery is refused. -/
theorem enter_eq_error {r : Registry L} {event : String} {failure : BusError}
    (h : r.enter event = .error failure) :
    event ∈ r.inFlight ∧ failure = .cycle event r.inFlight ∨
      event ∉ r.inFlight ∧ r.maxDepth ≤ r.inFlight.length ∧
        failure = .depthExceeded event r.maxDepth := by
  unfold enter at h
  cases hc : r.channel? event with
  | none =>
    rw [hc] at h
    cases h
  | some c =>
    rw [hc] at h
    dsimp only at h
    split at h
    · rename_i hf
      cases h
      exact Or.inl ⟨hf, rfl⟩
    · rename_i hf
      split at h
      · rename_i hd
        cases h
        exact Or.inr ⟨hf, hd, rfl⟩
      · cases h

theorem slot?_of_some {r : Registry L} {event : String} {c : Channel L}
    (h : r.channel? event = some c) (generation index : Nat) :
    r.slot? event generation index
      = if c.generation = generation then some (c.slots[index]?.join) else none := by
  unfold slot?
  rw [h]

theorem slot?_of_none {r : Registry L} {event : String} (h : r.channel? event = none)
    (generation index : Nat) :
    r.slot? event generation index = none := by
  unfold slot?
  rw [h]

/-- A delivery whose channel is gone finds none of its slots. -/
theorem slot?_eq_none {r : Registry L} {event : String} {generation i : Nat}
    (h : r.slot? event generation i = none) (j : Nat) : r.slot? event generation j = none := by
  cases hc : r.channel? event with
  | none => exact slot?_of_none hc generation j
  | some c =>
    rw [slot?_of_some hc] at h ⊢
    split at h
    · cases h
    · rename_i hg
      exact if_neg hg

end Registry

end Bindery
