import Bindery.Proofs.Bus.Channels

/-!
# The places of a registry

`Registry.Issued` is the invariant of a registry together with all places that it gave out: no place
was given out twice, the slots there are were all given out, and a place that lies in none of them
belongs to a channel of the past.

* `Issued.place_not_mem`                     the next place is a new one
* `Issued.subscribe`, `Issued.remove`, …     every operation keeps the invariant
-/

namespace Bindery.Registry

variable {L : Type}

/-- `places` are the places that the registry gave out. -/
structure Issued (r : Registry L) (places : List Registration) : Prop where
  nodup : places.Nodup
  /-- a slot is a place, empty or not -/
  covered : ∀ {event c} {i : Nat}, r.channel? event = some c → i < c.slots.length →
    ⟨event, c.generation, i⟩ ∈ places
  /-- a place in a channel of today is one of its slots -/
  within : ∀ {place c}, place ∈ places → r.channel? place.event = some c →
    place.generation = c.generation → place.index < c.slots.length
  old : ∀ {place}, place ∈ places → place.generation < r.nextGeneration
  live : ∀ {event c}, r.channel? event = some c → c.isEmpty = false

namespace Issued

variable {r : Registry L} {places : List Registration}

theorem init (maxDepth : Nat) : Issued ({ maxDepth } : Registry L) [] where
  nodup := List.nodup_nil
  covered h := nomatch h
  within h := absurd h List.not_mem_nil
  old h := absurd h List.not_mem_nil
  live h := nomatch h

/-- What is in flight does not matter. -/
theorem inFlight (h : r.Issued places) (events : List String) :
    Issued { r with inFlight := events } places :=
  ⟨h.nodup, h.covered, h.within, h.old, h.live⟩

theorem slots_pos (h : r.Issued places) {event : String} {c : Channel L}
    (hc : r.channel? event = some c) : 0 < c.slots.length := by
  obtain ⟨l, hl⟩ := (c.isEmpty_eq_false_iff).mp (h.live hc)
  exact List.length_pos_of_mem hl

theorem generation_lt (h : r.Issued places) {event : String} {c : Channel L}
    (hc : r.channel? event = some c) : c.generation < r.nextGeneration :=
  h.old (h.covered hc (h.slots_pos hc))

theorem mem_of_lt_slotsOf (h : r.Issued places) {event : String} {i : Nat}
    (hi : i < (r.slotsOf event).length) : ⟨event, r.generationFor event, i⟩ ∈ places := by
  cases hc : r.channel? event with
  | some c =>
    rw [slotsOf_of_some hc] at hi
    rw [generationFor_of_some hc]
    exact h.covered hc hi
  | none =>
    rw [slotsOf_of_none hc] at hi
    exact absurd hi (Nat.not_lt_zero i)

theorem index_lt_slotsOf (h : r.Issued places) {place : Registration} (hp : place ∈ places)
    (hg : place.generation = r.generationFor place.event) :
    place.index < (r.slotsOf place.event).length := by
  cases hc : r.channel? place.event with
  | some c =>
    rw [generationFor_of_some hc] at hg
    rw [slotsOf_of_some hc]
    exact h.within hp hc hg
  | none =>
    rw [generationFor_of_none hc] at hg
    exact absurd (h.old hp) (hg ▸ Nat.lt_irrefl _)

theorem place_not_mem (h : r.Issued places) (event : String) :
    ⟨event, r.generationFor event, (r.slotsOf event).length⟩ ∉ places := fun hm =>
  Nat.lt_irrefl _ (h.index_lt_slotsOf hm rfl)

theorem generationFor_lt (h : r.Issued places) (event : String) (listener : L) :
    r.generationFor event < (r.subscribe event listener).2.nextGeneration := by
  rw [nextGeneration_subscribe]
  cases hc : r.channel? event with
  | some c =>
    rw [generationFor_of_some hc]
    exact h.generation_lt hc
  | none =>
    rw [generationFor_of_none hc]
    exact Nat.lt_succ_self _

theorem nextGeneration_le (r : Registry L) (event : String) (listener : L) :
    r.nextGeneration ≤ (r.subscribe event listener).2.nextGeneration := by
  rw [nextGeneration_subscribe]
  split
  · exact Nat.le_refl _
  · exact Nat.le_succ _

theorem subscribe (h : r.Issued places) (event : String) (listener : L) :
    (r.subscribe event listener).2.Issued (places ++ [(r.subscribe event listener).1]) := by
  have hch := r.channel?_subscribe event listener
  rw [place_subscribe]
  refine ⟨?nodup, ?covered, ?within, ?old, ?live⟩
  case nodup =>
    rw [List.nodup_append]
    refine ⟨h.nodup, by simp, ?_⟩
    intro a ha b hb hab
    rw [List.mem_singleton.mp hb] at hab
    exact h.place_not_mem event (hab ▸ ha)
  case covered =>
    intro e c i hc hi
    rw [hch] at hc
    by_cases he : event = e
    · subst he
      rw [if_pos rfl, Option.some.injEq] at hc
      subst hc
      rw [List.length_append, List.length_singleton] at hi
      rcases Nat.lt_or_ge i (r.slotsOf event).length with hlt | hge
      · exact List.mem_append_left _ (h.mem_of_lt_slotsOf hlt)
      · have hi' : i = (r.slotsOf event).length := by omega
        rw [hi']
        exact List.mem_append_right _ List.mem_cons_self
    · rw [if_neg he] at hc
      exact List.mem_append_left _ (h.covered hc hi)
  case within =>
    intro q c hq hc hg
    rw [hch] at hc
    rcases List.mem_append.mp hq with hq | hq
    · by_cases he : event = q.event
      · rw [if_pos he, Option.some.injEq] at hc
        subst hc
        rw [he] at hg ⊢
        rw [List.length_append]
        exact Nat.lt_add_right _ (h.index_lt_slotsOf hq hg)
      · rw [if_neg he] at hc
        exact h.within hq hc hg
    · rw [List.mem_singleton.mp hq] at hc ⊢
      rw [if_pos rfl, Option.some.injEq] at hc
      subst hc
      simp
  case old =>
    intro q hq
    rcases List.mem_append.mp hq with hq | hq
    · exact Nat.lt_of_lt_of_le (h.old hq) (nextGeneration_le r event listener)
    · rw [List.mem_singleton.mp hq]
      exact h.generationFor_lt event listener
  case live =>
    intro e c hc
    rw [hch] at hc
    by_cases he : event = e
    · rw [if_pos he, Option.some.injEq] at hc
      subst hc
      rw [Channel.isEmpty_eq_false_iff]
      exact ⟨listener, List.mem_append_right _ List.mem_cons_self⟩
    · rw [if_neg he] at hc
      exact h.live hc

/-- The channels after a place was given up: the same, or with one slot empty. -/
theorem channel?_of_remove {place : Registration} {event : String} {d : Channel L}
    (hd : (r.remove place).channel? event = some d) :
    ∃ c, r.channel? event = some c ∧ d.generation = c.generation ∧
      d.slots.length = c.slots.length ∧ (c.isEmpty = false → d.isEmpty = false) := by
  rw [channel?_remove] at hd
  split at hd
  · obtain ⟨c, hc, hw⟩ := Option.bind_eq_some_iff.mp hd
    rcases Channel.eq_of_without hw with rfl | ⟨-, rfl, he⟩
    · exact ⟨d, hc, rfl, rfl, id⟩
    · exact ⟨c, hc, rfl, List.length_set, fun _ => he⟩
  · exact ⟨d, hd, rfl, rfl, id⟩

theorem nextGeneration_remove (r : Registry L) (place : Registration) :
    (r.remove place).nextGeneration = r.nextGeneration := by
  unfold Registry.remove
  cases r.channel? place.event with
  | none => rfl
  | some c =>
    dsimp only
    split
    · split <;> rfl
    · rfl

theorem remove (h : r.Issued places) (place : Registration) : (r.remove place).Issued places where
  nodup := h.nodup
  covered hd hi := by
    obtain ⟨c, hc, hg, hl, -⟩ := channel?_of_remove hd
    rw [hg]
    exact h.covered hc (hl ▸ hi)
  within hq hd hg := by
    obtain ⟨c, hc, hg', hl, -⟩ := channel?_of_remove hd
    rw [hl]
    exact h.within hq hc (hg.trans hg')
  old hq := nextGeneration_remove r place ▸ h.old hq
  live hd := by
    obtain ⟨c, hc, -, -, he⟩ := channel?_of_remove hd
    exact he (h.live hc)

theorem clear (h : r.Issued places) : r.clear.Issued places where
  nodup := h.nodup
  covered hc := nomatch hc
  within _ hc := nomatch hc
  old := h.old
  live hc := nomatch hc

end Issued

end Bindery.Registry
