import Bindery.Proofs.Bus.Operations

/-!
# What a place is good for

A place given out is a handle to one slot.  Two places differ in the generation or in the index, so a
place finds its own slot or none, whatever came and went in between.  Giving up a place whose listener
is gone changes nothing at all.

Generations are numbers without a bound here.  Kept in words of 64 bits they are told apart in the same
way, as long as there were fewer channels than words.

* `WellKept`                        what holds of a registry and the places it gave out
* `Later`                           what holds of it some operations later
* `Sound.wellKept`, `Sound.later`   every sound registry is well kept, and stays so
-/

namespace Bindery.Registry

variable {L : Type} {r : Registry L} {issued : List (Registration × L)}

/-- What is told by generations is told by the words of 64 bits that they are kept in. -/
structure WordsApart (r : Registry L) (issued : List (Registration × L)) : Prop where
  channels : (r.channels.map fun c => UInt64.ofNat c.generation).Nodup
  below : ∀ c ∈ r.channels, UInt64.ofNat c.generation < UInt64.ofNat r.nextGeneration
  places : (issued.map fun x => (UInt64.ofNat x.1.generation, x.1.index)).Nodup
  /-- whether a channel is that of a place -/
  found : ∀ c ∈ r.channels, ∀ x ∈ issued,
    UInt64.ofNat c.generation = UInt64.ofNat x.1.generation ↔ c.generation = x.1.generation
  /-- whether somebody comes into a new channel -/
  opened : ∀ event,
    UInt64.ofNat (r.generationFor event) = UInt64.ofNat r.nextGeneration ↔ r.channel? event = none

/-- A registry and the places that it gave out, each with the listener that came into it. -/
structure WellKept (r : Registry L) (issued : List (Registration × L)) : Prop where
  /-- no two channels have the same event, or the same generation -/
  events : (r.channels.map Channel.event).Nodup
  generations : (r.channels.map Channel.generation).Nodup
  below : ∀ c ∈ r.channels, c.generation < r.nextGeneration
  /-- the next generation is the number of channels so far, each of which gave out a first place -/
  created : r.nextGeneration = issued.countP (·.1.index = 0)
  live : ∀ c ∈ r.channels, ∃ l, some l ∈ c.slots
  /-- a place is told by its generation and its index -/
  places : (issued.map fun x => (x.1.generation, x.1.index)).Nodup
  /-- a slot has its own place and holds the listener that came into it, or none -/
  slots : ∀ c ∈ r.channels, ∀ i (hi : i < c.slots.length), ∃ x ∈ issued,
    x.1 = ⟨c.event, c.generation, i⟩ ∧ (c.slots[i] = some x.2 ∨ c.slots[i] = none)
  /-- a place finds its own slot, or none -/
  own : ∀ x ∈ issued, Wanes (some (some x.2)) (r.slotAt? x.1)
  /-- giving up a place where nobody is, or giving it up once more -/
  vacant : ∀ place, (∀ l, r.slotAt? place ≠ some (some l)) → r.remove place = r
  again : ∀ place, (r.remove place).remove place = r.remove place
  /-- words of 64 bits are enough for so many channels -/
  words : r.nextGeneration < UInt64.size → r.WordsApart issued

/-- A registry `s`, some operations after the registry `r` that gave out some places. -/
structure Later (r : Registry L) (issued : List (Registration × L)) (s : Registry L) : Prop where
  /-- slots stay where they are, and at most lose their listeners -/
  slots : ∀ c ∈ r.channels, ∀ d ∈ s.channels, d.generation = c.generation →
    d.event = c.event ∧ c.slots.length ≤ d.slots.length ∧
      ∀ i < c.slots.length, d.slots[i]? = c.slots[i]? ∨ d.slots[i]? = some none
  places : ∀ x ∈ issued, Wanes (r.slotAt? x.1) (s.slotAt? x.1)
  /-- a place where nobody was any more -/
  stale : ∀ x ∈ issued, (∀ l, r.slotAt? x.1 ≠ some (some l)) → s.remove x.1 = s

/-! ## Removing nobody -/

theorem replace_eq_self (h : (r.channels.map Channel.event).Nodup) {event : String} {c : Channel L}
    (hc : r.channel? event = some c) : r.replace c = r := by
  have hsame : ∀ d ∈ r.channels, (if d.event = c.event then c else d) = id d := by
    intro d hd
    split
    · rename_i he
      have hfound := channel?_of_mem h hd
      rw [he, event_of_channel? hc, hc] at hfound
      exact Option.some.inj hfound
    · rfl
  show { r with channels := r.channels.map fun d => if d.event = c.event then c else d } = r
  rw [List.map_congr_left hsame, List.map_id]

theorem set_none_of_vacant {slots : List (Option L)} {i : Nat} (h : ∀ l, slots[i]? ≠ some (some l)) :
    slots.set i none = slots := by
  refine List.ext_getElem? fun j => ?_
  rw [List.getElem?_set]
  split
  · rename_i hij
    subst hij
    split
    · rename_i hi
      rw [List.getElem?_eq_getElem hi] at h ⊢
      cases hs : slots[i] with
      | none => rfl
      | some l => exact absurd (congrArg some hs) (h l)
    · rename_i hi
      exact (List.getElem?_eq_none (Nat.le_of_not_lt hi)).symm
  · rfl

theorem vacant_set_none (slots : List (Option L)) (i : Nat) (l : L) :
    (slots.set i none)[i]? ≠ some (some l) := by
  rw [List.getElem?_set, if_pos rfl]
  split
  · simp
  · simp

theorem slotAt?_remove_self (r : Registry L) (place : Registration) (l : L) :
    (r.remove place).slotAt? place ≠ some (some l) := by
  rw [slotAt?, channel?_remove, if_pos rfl]
  cases hc : r.channel? place.event with
  | none => exact (Option.some_ne_none _).symm
  | some c =>
    rw [Option.bind_some]
    by_cases hg : c.generation = place.generation
    · rw [Channel.without, if_pos hg]
      split
      · exact (Option.some_ne_none _).symm
      · rw [Option.bind_some, if_pos (show (c.empty place.index).generation = place.generation from hg)]
        exact vacant_set_none c.slots place.index l
    · rw [Channel.without_of_ne hg, Option.bind_some, if_neg hg]
      exact (Option.some_ne_none _).symm

namespace Sound

/-- Where nobody is, nobody is taken away, and no channel goes: it has a listener somewhere else. -/
theorem remove_vacant (h : r.Sound issued) {place : Registration}
    (hp : ∀ l, r.slotAt? place ≠ some (some l)) : r.remove place = r := by
  unfold Registry.remove
  cases hc : r.channel? place.event with
  | none => rfl
  | some c =>
    dsimp only
    split
    · rename_i hg
      rw [slotAt?_of_channel? hc hg] at hp
      have hempty : c.empty place.index = c := by rw [Channel.empty, set_none_of_vacant hp]
      rw [hempty, h.toIssued.live hc, if_neg Bool.false_ne_true]
      exact replace_eq_self h.events hc
    · rfl

/-! ## Generations and places -/

theorem eq_of_generation (h : r.Sound issued) {c d : Channel L} (hc : c ∈ r.channels)
    (hd : d ∈ r.channels) (hg : c.generation = d.generation) : c = d := by
  have hc' := channel?_of_mem h.events hc
  have hd' := channel?_of_mem h.events hd
  obtain ⟨x, hx, hcx⟩ := h.exists_first hc'
  obtain ⟨y, hy, hdy⟩ := h.exists_first hd'
  have hevent := h.oneEvent x hx y hy (by rw [hcx, hdy, hg])
  rw [hcx, hdy] at hevent
  have hsame : c.event = d.event := hevent
  rw [hsame, hd'] at hc'
  exact (Option.some.inj hc').symm

theorem nodup_channels (h : r.Sound issued) : r.channels.Nodup := h.events.of_map _

theorem nodup_generations (h : r.Sound issued) : (r.channels.map Channel.generation).Nodup :=
  h.nodup_channels.map_on fun _ hc _ hd => h.eq_of_generation hc hd

theorem eq_of_place (h : r.Sound issued) {x y : Registration × L} (hx : x ∈ issued) (hy : y ∈ issued)
    (hg : x.1.generation = y.1.generation) (hi : x.1.index = y.1.index) : x = y := by
  have hevent := h.oneEvent x hx y hy hg
  have hplace : x.1 = y.1 := by
    rw [show x.1 = ⟨x.1.event, x.1.generation, x.1.index⟩ from rfl, hevent, hg, hi]
  exact List.inj_on_of_nodup_map h.nodup hx hy hplace

theorem nodup_places (h : r.Sound issued) :
    (issued.map fun x => (x.1.generation, x.1.index)).Nodup :=
  (h.nodup.of_map _).map_on fun _ hx _ hy he =>
    h.eq_of_place hx hy (Prod.mk.inj he).1 (Prod.mk.inj he).2

theorem below (h : r.Sound issued) {c : Channel L} (hc : c ∈ r.channels) :
    c.generation < r.nextGeneration := h.generation_lt (channel?_of_mem h.events hc)

theorem slotAt?_of_mem (h : r.Sound issued) {c : Channel L} (hc : c ∈ r.channels) (i : Nat) :
    r.slotAt? ⟨c.event, c.generation, i⟩ = c.slots[i]? := by
  have hfound : r.channel? (⟨c.event, c.generation, i⟩ : Registration).event = some c :=
    channel?_of_mem h.events hc
  exact slotAt?_of_channel? hfound rfl

theorem exists_place (h : r.Sound issued) {c : Channel L} (hc : c ∈ r.channels) {i : Nat}
    (hi : i < c.slots.length) : ∃ x ∈ issued, x.1 = ⟨c.event, c.generation, i⟩ :=
  List.mem_map.mp (h.covered (channel?_of_mem h.events hc) hi)

theorem slot_eq (h : r.Sound issued) {x : Registration × L} (hx : x ∈ issued) {s : Option L}
    (hs : r.slotAt? x.1 = some s) : s = some x.2 ∨ s = none := by
  have hown := h.own x hx
  rw [hs] at hown
  exact hown.eq_or_none.imp_left Option.some.inj

/-- The place of somebody who has just come in is one of those given out. -/
theorem mem_of_subscribe {event : String} {listener : L}
    (h : (r.subscribe event listener).2.Sound issued) :
    ((r.subscribe event listener).1, listener) ∈ issued := by
  have hc := (r.channel?_subscribe event listener event).trans (if_pos rfl)
  have hslot := slotAt?_subscribe_self r event listener
  have hmem : (r.subscribe event listener).1 ∈ issued.map Prod.fst := by
    rw [place_subscribe]
    refine h.covered hc ?_
    rw [List.length_append]
    exact Nat.lt_succ_self _
  obtain ⟨x, hx, hplace⟩ := List.mem_map.mp hmem
  rw [← hplace] at hslot ⊢
  rcases h.slot_eq hx hslot with hl | hl
  · rw [Option.some.inj hl]
    exact hx
  · cases hl

/-! ## Words -/

theorem word_injective {g k : Nat} (hg : g < UInt64.size) (hk : k < UInt64.size)
    (h : UInt64.ofNat g = UInt64.ofNat k) : g = k := by
  have hnat := congrArg UInt64.toNat h
  rwa [UInt64.toNat_ofNat_of_lt' hg, UInt64.toNat_ofNat_of_lt' hk] at hnat

theorem wordsApart (h : r.Sound issued) (hw : r.nextGeneration < UInt64.size) : r.WordsApart issued := by
  have hchannel : ∀ c ∈ r.channels, c.generation < UInt64.size := fun c hc => Nat.lt_trans (h.below hc) hw
  have hplace : ∀ x ∈ issued, x.1.generation < UInt64.size := fun x hx =>
    Nat.lt_trans (h.old (List.mem_map_of_mem hx)) hw
  refine ⟨?channels, ?below, ?places, ?found, ?opened⟩
  case channels =>
    exact h.nodup_channels.map_on fun c hc d hd he =>
      h.eq_of_generation hc hd (word_injective (hchannel c hc) (hchannel d hd) he)
  case below =>
    intro c hc
    rw [UInt64.lt_iff_toNat_lt, UInt64.toNat_ofNat_of_lt' (hchannel c hc), UInt64.toNat_ofNat_of_lt' hw]
    exact h.below hc
  case places =>
    exact (h.nodup.of_map _).map_on fun x hx y hy he =>
      h.eq_of_place hx hy (word_injective (hplace x hx) (hplace y hy) (Prod.mk.inj he).1)
        (Prod.mk.inj he).2
  case found => exact fun c hc x hx => ⟨word_injective (hchannel c hc) (hplace x hx), congrArg _⟩
  case opened =>
    intro event
    cases hc : r.channel? event with
    | none =>
      rw [generationFor_of_none hc]
      exact ⟨fun _ => rfl, fun _ => rfl⟩
    | some c =>
      rw [generationFor_of_some hc]
      have hlt := h.generation_lt hc
      exact ⟨fun he => absurd (word_injective (Nat.lt_trans hlt hw) hw he) (Nat.ne_of_lt hlt),
        fun hnone => absurd hnone (Option.some_ne_none c)⟩

/-! ## At any time -/

theorem wellKept (h : r.Sound issued) : r.WellKept issued where
  events := h.events
  generations := h.nodup_generations
  below _ hc := h.below hc
  created := h.created
  live c hc := (c.isEmpty_eq_false_iff).mp (h.toIssued.live (channel?_of_mem h.events hc))
  places := h.nodup_places
  slots c hc i hi := by
    obtain ⟨x, hx, hplace⟩ := h.exists_place hc hi
    have hs : r.slotAt? x.1 = some c.slots[i] := by
      rw [hplace, h.slotAt?_of_mem hc, List.getElem?_eq_getElem hi]
    exact ⟨x, hx, hplace, h.slot_eq hx hs⟩
  own := h.own
  vacant _ hp := h.remove_vacant hp
  again place := (h.remove place).remove_vacant (slotAt?_remove_self r place)
  words := h.wordsApart

/-- Whatever operations come, slots stay where they are and nobody comes into one again. -/
theorem later (h : r.Sound issued) (ops : List (Operation L)) : r.Later issued (r.replay ops) := by
  have hlater := h.replay ops
  refine ⟨fun c hc d hd hg => ?_, fun x hx => h.wanes_replay hx ops, fun x hx hv => ?_⟩
  · have hd' := channel?_of_mem hlater.events hd
    have hevent : d.event = c.event := by
      obtain ⟨x, hx, hfirst⟩ := h.exists_first (channel?_of_mem h.events hc)
      obtain ⟨y, hy, hlast⟩ := hlater.exists_first hd'
      have hsame := hlater.oneEvent y hy x (List.mem_append_left _ hx) (by rw [hfirst, hlast, hg])
      rwa [hfirst, hlast] at hsame
    have hplace : ∀ i < c.slots.length, ∃ x ∈ issued, x.1 = ⟨d.event, d.generation, i⟩ := by
      rw [hevent, hg]
      exact fun i hi => h.exists_place hc hi
    have hlt : ∀ i < c.slots.length, i < d.slots.length := by
      intro i hi
      obtain ⟨x, hx, hxd⟩ := hplace i hi
      have hmem := List.mem_map_of_mem (f := Prod.fst) (List.mem_append_left (r.issued ops) hx)
      rw [hxd] at hmem
      exact hlater.within hmem hd' rfl
    have hlength : c.slots.length ≤ d.slots.length :=
      Nat.le_of_not_lt fun hshort => Nat.lt_irrefl _ (hlt _ hshort)
    refine ⟨hevent, hlength, fun i hi => ?_⟩
    obtain ⟨x, hx, hxd⟩ := hplace i hi
    have hwanes := h.wanes_replay hx ops
    rw [hxd, hlater.slotAt?_of_mem hd, hevent, hg, h.slotAt?_of_mem hc,
      List.getElem?_eq_getElem (hlt i hi)] at hwanes
    rw [List.getElem?_eq_getElem (hlt i hi)]
    exact hwanes.eq_or_none.imp_right (congrArg some)
  · exact hlater.remove_vacant ((h.wanes_replay hx ops).vacant hv)

end Sound

end Bindery.Registry
