import Bindery.Error

/-!
# The registry of a bus

A registry holds one channel for each event that has listeners.  A channel is a row of slots; taking
a listener away empties its slot, so the places of the others stay.  A channel whose slots are all
empty is dropped, and `generation` tells it from a later channel with the same event.

* `Registry.subscribe`, `Registry.remove`, `Registry.clear`   who listens
* `Registry.enter`, `Registry.leave`                           which events are being delivered
* `Registry.slot?`                                              the listener at a place, if its
                                                                channel is still the same

The registry does not call listeners; their type is a parameter.
-/

namespace Bindery

structure Channel (L : Type) where
  event : String
  generation : Nat
  slots : List (Option L)

structure Registration where
  event : String
  generation : Nat
  index : Nat
deriving DecidableEq

structure Registry (L : Type) where
  /-- how many events may be in flight -/
  maxDepth : Nat
  channels : List (Channel L) := []
  nextGeneration : Nat := 0
  /-- the events being delivered, outermost first -/
  inFlight : List String := []

/-- What a delivery goes through: the first `length` slots of one channel. -/
structure Delivery where
  generation : Nat
  length : Nat
deriving DecidableEq

namespace Channel

variable {L : Type}

def listeners (c : Channel L) : List L := c.slots.filterMap id

def isEmpty (c : Channel L) : Bool := c.slots.all Option.isNone

def add (c : Channel L) (listener : L) : Channel L := { c with slots := c.slots ++ [some listener] }

def empty (c : Channel L) (index : Nat) : Channel L := { c with slots := c.slots.set index none }

end Channel

namespace Registry

variable {L : Type}

def channel? (r : Registry L) (event : String) : Option (Channel L) :=
  r.channels.find? (·.event = event)

def listeners (r : Registry L) : List L := r.channels.flatMap Channel.listeners

def replace (r : Registry L) (c : Channel L) : Registry L :=
  { r with channels := r.channels.map fun d => if d.event = c.event then c else d }

def drop (r : Registry L) (event : String) : Registry L :=
  { r with channels := r.channels.filter (·.event ≠ event) }

/-- Adds a listener behind those of its event and gives its place. -/
def subscribe (r : Registry L) (event : String) (listener : L) : Registration × Registry L :=
  match r.channel? event with
  | some c => (⟨event, c.generation, c.slots.length⟩, r.replace (c.add listener))
  | none =>
    (⟨event, r.nextGeneration, 0⟩,
      { r with
        channels := r.channels ++ [⟨event, r.nextGeneration, [some listener]⟩]
        nextGeneration := r.nextGeneration + 1 })

/-- Empties a place.  A place of an earlier channel is none of this one. -/
def remove (r : Registry L) (place : Registration) : Registry L :=
  match r.channel? place.event with
  | none => r
  | some c =>
    if c.generation = place.generation then
      let c := c.empty place.index
      if c.isEmpty then r.drop place.event else r.replace c
    else r

def clear (r : Registry L) : Registry L := { r with channels := [] }

def isRegistered (r : Registry L) (event : String) : Bool := (r.channel? event).isSome

def listenerCount (r : Registry L) (event : String) : Nat :=
  match r.channel? event with
  | some c => c.listeners.length
  | none => 0

/-- Begins a delivery and marks its event in flight; without a channel there is nothing to deliver.
An event in flight must not be published again, nor may the depth limit be passed. -/
def enter (r : Registry L) (event : String) : Except BusError (Option (Delivery × Registry L)) :=
  match r.channel? event with
  | none => .ok none
  | some c =>
    if event ∈ r.inFlight then .error (.cycle event r.inFlight)
    else if r.maxDepth ≤ r.inFlight.length then .error (.depthExceeded event r.maxDepth)
    else .ok (some (⟨c.generation, c.slots.length⟩, { r with inFlight := r.inFlight ++ [event] }))

/-- Ends the innermost delivery. -/
def leave (r : Registry L) : Registry L := { r with inFlight := r.inFlight.dropLast }

/-- The slot at a place: `none` if the channel is gone or another one, `some none` if the slot is
empty. -/
def slot? (r : Registry L) (event : String) (generation index : Nat) : Option (Option L) :=
  match r.channel? event with
  | some c => if c.generation = generation then some (c.slots[index]?.join) else none
  | none => none

end Registry

end Bindery
