import Bindery.Page.Basic
import Bindery.Proofs.Bus.Places
import Mathlib.Data.List.Nodup

/-!
# Numbered registrations

A program names its registrations by numbers, counted over the whole run, and a listener carries its
own number.  `Represents` says how a registry with its slots and generations stands for plain lists of
numbered registrations, given the place that each number got.

* `Registry.listed`              the numbers and codes that wait for an event
* `Represents.subscribe`, `Represents.remove`, `Represents.clear`   each operation on both sides
* `Represents.number_unique`     a place has one number
-/

namespace Bindery

variable {κ : Type}

def Listener.numbered? : Listener (Nat × κ) → Option (Nat × κ)
  | .callback code => some code
  | _ => none

theorem Listener.eq_of_numbered? {l : Listener (Nat × κ)} {x : Nat × κ}
    (h : l.numbered? = some x) : l = .callback x := by
  cases l with
  | callback code =>
    cases h
    rfl
  | text => cases h
  | property => cases h

def numbersIn (slots : List (Option (Listener (Nat × κ)))) : List (Nat × κ) :=
  slots.filterMap (·.bind Listener.numbered?)

theorem mem_numbersIn {slots : List (Option (Listener (Nat × κ)))} {x : Nat × κ} :
    x ∈ numbersIn slots ↔ ∃ i : Nat, slots[i]? = some (some (Listener.callback x)) := by
  unfold numbersIn
  rw [List.mem_filterMap]
  constructor
  · rintro ⟨s, hs, hx⟩
    obtain ⟨l, rfl, hl⟩ := Option.bind_eq_some_iff.mp hx
    rw [Listener.eq_of_numbered? hl] at hs
    exact List.mem_iff_getElem?.mp hs
  · rintro ⟨i, hi⟩
    exact ⟨_, List.mem_of_getElem? hi, rfl⟩

theorem numbersIn_of_all_none {slots : List (Option (Listener (Nat × κ)))}
    (h : slots.all Option.isNone = true) : numbersIn slots = [] := by
  unfold numbersIn
  rw [List.filterMap_eq_nil_iff]
  intro s hs
  rw [Option.isNone_iff_eq_none.mp (List.all_eq_true.mp h s hs)]
  rfl

theorem numbersIn_drop {slots : List (Option (Listener (Nat × κ)))} {i : Nat}
    {s : Option (Listener (Nat × κ))} (h : slots[i]? = some s) :
    numbersIn (slots.drop i)
      = (s.bind Listener.numbered?).toList ++ numbersIn (slots.drop (i + 1)) := by
  obtain ⟨hi, rfl⟩ := List.getElem?_eq_some_iff.mp h
  rw [List.drop_eq_getElem_cons hi]
  unfold numbersIn
  rw [List.filterMap_cons]
  cases slots[i].bind Listener.numbered? with
  | none => rfl
  | some x => rfl

/-- Emptying the one slot that holds a number takes the number away. -/
theorem numbersIn_set_none {slots : List (Option (Listener (Nat × κ)))} {i number : Nat}
    (h : ∀ (j : Nat) x, slots[j]? = some (some (Listener.callback x)) → (x.1 = number ↔ j = i)) :
    numbersIn (slots.set i none) = (numbersIn slots).filter (·.1 ≠ number) := by
  induction slots generalizing i with
  | nil => rfl
  | cons s r ih =>
    cases i with
    | zero =>
      have hr : ∀ x ∈ numbersIn r, decide (x.1 ≠ number) = true := by
        intro x hx
        obtain ⟨j, hj⟩ := mem_numbersIn.mp hx
        have hn := h (j + 1) x hj
        simpa using fun e => Nat.succ_ne_zero j (hn.mp e)
      have hs : ∀ x, s.bind Listener.numbered? = some x → x.1 = number := by
        intro x hx
        obtain ⟨l, rfl, hl⟩ := Option.bind_eq_some_iff.mp hx
        rw [Listener.eq_of_numbered? hl] at h
        exact (h 0 x rfl).mpr rfl
      show numbersIn r = _
      unfold numbersIn
      rw [List.filterMap_cons]
      cases hx : s.bind Listener.numbered? with
      | none => exact (List.filter_eq_self.mpr hr).symm
      | some x =>
        rw [List.filter_cons_of_neg (by simpa using hs x hx)]
        exact (List.filter_eq_self.mpr hr).symm
    | succ i =>
      have hi := ih (i := i) fun j x hj => by
        rw [h (j + 1) x hj]
        omega
      show numbersIn (s :: r.set i none) = _
      unfold numbersIn at hi ⊢
      rw [List.filterMap_cons, List.filterMap_cons]
      cases hx : s.bind Listener.numbered? with
      | none => exact hi
      | some x =>
        obtain ⟨l, rfl, hl⟩ := Option.bind_eq_some_iff.mp hx
        have hs : (some l :: r)[0]? = some (some (Listener.callback x)) := by
          rw [Listener.eq_of_numbered? hl]
          rfl
        have hn : x.1 ≠ number := fun e => Nat.succ_ne_zero i ((h 0 x hs).mp e).symm
        rw [List.filter_cons_of_pos (by simpa using hn)]
        exact congrArg (x :: ·) hi

/-- The numbers and codes that wait for an event, first one first. -/
def Registry.listed (r : Registry (Listener (Nat × κ))) (event : String) : List (Nat × κ) :=
  numbersIn (r.slotsOf event)

theorem getElem?_append_of_some {α : Type} {l : List α} {i : Nat} {a : α} (h : l[i]? = some a)
    (k : List α) : (l ++ k)[i]? = some a := by
  rw [List.getElem?_append_left (List.getElem?_eq_some_iff.mp h).1]
  exact h

/-- A registry stands for lists of numbered registrations; `places` holds the place of each number
that was given out. -/
structure Represents (r : Registry (Listener (Nat × κ))) (places : List Registration)
    (lists : String → List (Nat × κ)) : Prop where
  issued : r.Issued places
  listed : ∀ event, lists event = r.listed event
  /-- a slot that is not empty holds the listener whose number has this place -/
  placed : ∀ {event} {i : Nat} {l}, (r.slotsOf event)[i]? = some (some l) →
    ∃ number code, l = Listener.callback (number, code) ∧
      places[number]? = some ⟨event, r.generationFor event, i⟩

namespace Represents

variable {r : Registry (Listener (Nat × κ))} {places : List Registration}
  {lists : String → List (Nat × κ)}

theorem init (maxDepth : Nat) :
    Represents ({ maxDepth } : Registry (Listener (Nat × κ))) [] (fun _ => []) where
  issued := .init maxDepth
  listed _ := rfl
  placed h := nomatch h

theorem inFlight (h : Represents r places lists) (events : List String) :
    Represents { r with inFlight := events } places lists :=
  ⟨h.issued.inFlight events, h.listed, h.placed⟩

/-- A number waits for an event exactly if the slot at its place holds it. -/
theorem mem_lists (h : Represents r places lists) {event : String} {number : Nat} {code : κ} :
    (number, code) ∈ lists event ↔ ∃ i : Nat,
      (r.slotsOf event)[i]? = some (some (Listener.callback (number, code))) ∧
        places[number]? = some ⟨event, r.generationFor event, i⟩ := by
  rw [h.listed, Registry.listed, mem_numbersIn]
  constructor
  · rintro ⟨i, hi⟩
    obtain ⟨n, k, hl, hp⟩ := h.placed hi
    cases hl
    exact ⟨i, hi, hp⟩
  · rintro ⟨i, hi, -⟩
    exact ⟨i, hi⟩

theorem code_unique (h : Represents r places lists) {event : String} {number : Nat} {j k : κ}
    (hj : (number, j) ∈ lists event) (hk : (number, k) ∈ lists event) : j = k := by
  obtain ⟨i, hi, hp⟩ := h.mem_lists.mp hj
  obtain ⟨i', hi', hp'⟩ := h.mem_lists.mp hk
  rw [hp] at hp'
  cases hp'
  rw [hi] at hi'
  cases hi'
  rfl

theorem number_unique (h : Represents r places lists) {m n : Nat} {place : Registration}
    (hm : places[m]? = some place) (hn : places[n]? = some place) : m = n := by
  obtain ⟨hm, hm'⟩ := List.getElem?_eq_some_iff.mp hm
  obtain ⟨hn, hn'⟩ := List.getElem?_eq_some_iff.mp hn
  exact (h.issued.nodup.getElem_inj_iff).mp (hm'.trans hn'.symm)

theorem number_lt (h : Represents r places lists) {event : String} {x : Nat × κ}
    (hx : x ∈ lists event) : x.1 < places.length := by
  obtain ⟨i, -, hp⟩ := h.mem_lists.mp hx
  exact (List.getElem?_eq_some_iff.mp hp).1

theorem isRegistered (h : Represents r places lists) (event : String) :
    r.isRegistered event = !(lists event).isEmpty := by
  rw [h.listed]
  unfold Registry.isRegistered Registry.listed
  cases hc : r.channel? event with
  | none =>
    rw [Registry.slotsOf_of_none hc]
    rfl
  | some c =>
    obtain ⟨l, hl⟩ := (c.isEmpty_eq_false_iff).mp (h.issued.live hc)
    rw [← Registry.slotsOf_of_some hc] at hl
    obtain ⟨i, hi⟩ := List.mem_iff_getElem?.mp hl
    obtain ⟨n, k, rfl, -⟩ := h.placed hi
    have hm : (n, k) ∈ numbersIn (r.slotsOf event) := mem_numbersIn.mpr ⟨i, hi⟩
    cases hs : numbersIn (r.slotsOf event) with
    | nil =>
      rw [hs] at hm
      cases hm
    | cons x l => rfl

theorem listenerCount (h : Represents r places lists) (event : String) :
    r.listenerCount event = (lists event).length := by
  have hs : ∀ l ∈ (r.slotsOf event).filterMap id, l.numbered?.isSome = true := by
    intro l hl
    obtain ⟨s, hs, hl⟩ := List.mem_filterMap.mp hl
    obtain ⟨i, hi⟩ := List.mem_iff_getElem?.mp hs
    cases hl
    obtain ⟨n, k, rfl, -⟩ := h.placed hi
    rfl
  have hn : numbersIn (r.slotsOf event)
      = ((r.slotsOf event).filterMap id).filterMap Listener.numbered? := by
    rw [List.filterMap_filterMap]
    rfl
  rw [h.listed, Registry.listed, hn, List.length_filterMap_eq_countP,
    List.countP_eq_length.mpr hs]
  unfold Registry.listenerCount
  cases hc : r.channel? event with
  | none =>
    rw [Registry.slotsOf_of_none hc]
    rfl
  | some c =>
    rw [Registry.slotsOf_of_some hc]
    rfl

theorem subscribe (h : Represents r places lists) (event : String) (code : κ) :
    Represents (r.subscribe event (.callback (places.length, code))).2
      (places ++ [(r.subscribe event (.callback (places.length, code))).1])
      (fun e => if event = e then lists e ++ [(places.length, code)] else lists e) := by
  have hslots := r.slotsOf_subscribe event (.callback (places.length, code))
  refine ⟨h.issued.subscribe event _, ?listed, ?placed⟩
  case listed =>
    intro e
    unfold Registry.listed
    rw [hslots]
    by_cases he : event = e
    · rw [if_pos he, if_pos he, h.listed]
      simp [numbersIn, Listener.numbered?, Registry.listed]
    · rw [if_neg he, if_neg he, h.listed]
      rfl
  case placed =>
    intro e i l hl
    rw [hslots] at hl
    by_cases he : event = e
    · subst he
      rw [if_pos rfl] at hl
      rw [Registry.generationFor_subscribe_self]
      rcases Nat.lt_or_ge i (r.slotsOf event).length with hlt | hge
      · rw [List.getElem?_append_left hlt] at hl
        obtain ⟨n, k, rfl, hn⟩ := h.placed hl
        exact ⟨n, k, rfl, getElem?_append_of_some hn _⟩
      · rw [List.getElem?_append_right hge, List.getElem?_singleton] at hl
        split at hl
        · rename_i hi
          have hi' : i = (r.slotsOf event).length := by omega
          cases hl
          refine ⟨places.length, code, rfl, ?_⟩
          rw [hi', List.getElem?_concat_length, Registry.place_subscribe]
        · cases hl
    · rw [if_neg he] at hl
      obtain ⟨n, k, rfl, hn⟩ := h.placed hl
      rw [Registry.generationFor_subscribe_of_mem (List.mem_of_getElem? hl)]
      exact ⟨n, k, rfl, getElem?_append_of_some hn _⟩

/-- The slot at the place of a number is the only one that can hold it. -/
theorem number_eq_iff (h : Represents r places lists) {number : Nat} {place : Registration}
    (hp : places[number]? = some place) {event : String} {i : Nat} {x : Nat × κ}
    (hi : (r.slotsOf event)[i]? = some (some (Listener.callback x))) :
    x.1 = number ↔ place = ⟨event, r.generationFor event, i⟩ := by
  obtain ⟨n, k, hl, hn⟩ := h.placed hi
  cases hl
  constructor
  · rintro rfl
    rw [hn] at hp
    exact (Option.some.inj hp).symm
  · rintro rfl
    exact h.number_unique hn hp

theorem remove (h : Represents r places lists) {number : Nat} {place : Registration}
    (hp : places[number]? = some place) :
    Represents (r.remove place) places (fun e => (lists e).filter (·.1 ≠ number)) := by
  have hslots := r.slotsOf_remove place
  refine ⟨h.issued.remove place, ?listed, ?placed⟩
  case listed =>
    intro e
    rw [h.listed]
    unfold Registry.listed
    rw [hslots]
    by_cases he : place.event = e ∧ r.generationFor e = place.generation
    · have hn : ∀ (j : Nat) x, (r.slotsOf e)[j]? = some (some (Listener.callback x)) →
          (x.1 = number ↔ j = place.index) := by
        intro j x hx
        rw [h.number_eq_iff hp hx, ← he.1, Registration.mk.injEq]
        constructor
        · exact fun k => k.2.2.symm
        · exact fun k => ⟨rfl, he.1 ▸ he.2.symm, k.symm⟩
      rw [if_pos he, ← numbersIn_set_none hn]
      split
      · rename_i ha
        exact numbersIn_of_all_none ha
      · rfl
    · rw [if_neg he, List.filter_eq_self]
      intro x hx
      obtain ⟨j, hj⟩ := mem_numbersIn.mp hx
      have hne : x.1 ≠ number := by
        rw [Ne, h.number_eq_iff hp hj]
        rintro rfl
        exact he ⟨rfl, rfl⟩
      simpa using hne
  case placed =>
    intro e i l hl
    rw [Registry.generationFor_remove_of_mem (List.mem_of_getElem? hl)]
    have hl' : (r.slotsOf e)[i]? = some (some l) := by
      rw [hslots] at hl
      split at hl
      · split at hl
        · cases hl
        · rw [List.getElem?_set] at hl
          split at hl
          · split at hl <;> cases hl
          · exact hl
      · exact hl
    exact h.placed hl'

theorem clear (h : Represents r places lists) :
    Represents r.clear places (fun _ => []) where
  issued := h.issued.clear
  listed _ := rfl
  placed hl := nomatch hl

/-! ## During a delivery

`r` is the registry when a delivery of an event begins, with channel `c`, and `r'` the one at a later
turn of the same delivery. -/

section

variable {r' : Registry (Listener (Nat × κ))} {places' : List Registration}
  {lists' : String → List (Nat × κ)} {event : String} {c : Channel (Listener (Nat × κ))}

theorem slot?_of_mem (h : Represents r places lists) (h' : Represents r' places' lists')
    (hpre : places <+: places') (hc : r.channel? event = some c) {i : Nat} {x : Nat × κ} {k : κ}
    (hi : c.slots[i]? = some (some (Listener.callback x))) (hk : (x.1, k) ∈ lists' event) :
    r'.slot? event c.generation i = some (some (.callback (x.1, k))) := by
  rw [← Registry.slotsOf_of_some hc] at hi
  obtain ⟨n, j, hx, hn⟩ := h.placed hi
  cases hx
  obtain ⟨t, rfl⟩ := hpre
  obtain ⟨i', hi', hn'⟩ := h'.mem_lists.mp hk
  rw [getElem?_append_of_some hn, Option.some.injEq, Registration.mk.injEq] at hn'
  obtain ⟨-, hg, rfl⟩ := hn'
  obtain ⟨c', hc'⟩ := Registry.exists_channel_of_mem_slotsOf (List.mem_of_getElem? hi')
  rw [Registry.generationFor_of_some hc, Registry.generationFor_of_some hc'] at hg
  rw [Registry.slotsOf_of_some hc'] at hi'
  rw [Registry.slot?_of_some hc', if_pos hg.symm, hi', Option.join_some]

/-- What stands in a slot of the delivery at its turn stood there when the delivery began. -/
theorem mem_of_slot? (h : Represents r places lists) (h' : Represents r' places' lists')
    (hpre : places <+: places') (hc : r.channel? event = some c)
    (hgone : ∀ n k, n < places.length → (n, k) ∈ lists' event → (n, k) ∈ lists event) {i : Nat}
    (hi : i < c.slots.length) {l : Listener (Nat × κ)}
    (hs : r'.slot? event c.generation i = some (some l)) :
    ∃ x, l = .callback x ∧ x ∈ lists' event ∧ c.slots[i]? = some (some l) := by
  cases hc' : r'.channel? event with
  | none =>
    rw [Registry.slot?_of_none hc'] at hs
    cases hs
  | some c' =>
    rw [Registry.slot?_of_some hc'] at hs
    split at hs
    · rename_i hg
      rw [Option.some.injEq, Option.join_eq_some_iff, ← Registry.slotsOf_of_some hc'] at hs
      obtain ⟨n, k, rfl, hn⟩ := h'.placed hs
      have hm : (n, k) ∈ lists' event := h'.mem_lists.mpr ⟨i, hs, hn⟩
      -- the place of this slot was given out before the delivery, so its number was as well
      obtain ⟨m, hm'⟩ := List.mem_iff_getElem?.mp (h.issued.covered hc hi)
      obtain ⟨t, rfl⟩ := hpre
      rw [Registry.generationFor_of_some hc', hg] at hn
      have he : m = n := h'.number_unique (getElem?_append_of_some hm' t) hn
      subst he
      have hl := hgone m k (List.getElem?_eq_some_iff.mp hm').1 hm
      obtain ⟨i', hi', hn'⟩ := h.mem_lists.mp hl
      rw [hm', Option.some.injEq, Registration.mk.injEq] at hn'
      obtain ⟨-, -, rfl⟩ := hn'
      rw [Registry.slotsOf_of_some hc] at hi'
      exact ⟨(m, k), rfl, hm, hi'⟩
    · cases hs

end

end Represents

end Bindery
