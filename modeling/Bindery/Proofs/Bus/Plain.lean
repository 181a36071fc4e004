import Bindery.Engine.Basic

/-!
# The plain bus

A bus as its users see it: an ordered list of registrations for each event, and the events in flight.
Registrations have numbers, a new one for each.  There are no slots and no generations, and nothing is
ever left empty.

* `BusScript`           a program that uses one bus, the numbers being its handles
* `PlainBus.publish`    calls those of the list at entry that are still there when their turn comes;
                        `publish_rule` says when it fails
* `BusScript.eval`      what a script does to a plain bus
* `PlainBus.Later`      what is so of a plain bus for good
-/

namespace Bindery

/-- A program that uses one bus.  `κ` is the code of listeners and `σ` the state that all of them
share; a registration is named by its number. -/
inductive BusScript (κ σ α : Type) where
  | done (a : α)
  | inspect (next : σ → BusScript κ σ α)
  | amend (f : σ → σ) (next : BusScript κ σ α)
  | subscribe (event : String) (code : κ) (next : Nat → BusScript κ σ α)
  | remove (number : Nat) (next : BusScript κ σ α)
  | clear (next : BusScript κ σ α)
  | publish (event : String) (value : Value) (next : Outcome → BusScript κ σ α)
  | isRegistered (event : String) (next : Bool → BusScript κ σ α)
  | listenerCount (event : String) (next : Nat → BusScript κ σ α)

structure PlainBus (κ σ : Type) where
  /-- how many events may be in flight -/
  limit : Nat
  /-- the registrations of an event, first one first -/
  lists : String → List (Nat × κ) := fun _ => []
  /-- how many numbers were given out -/
  issued : Nat := 0
  /-- the events in flight, outermost first -/
  stack : List String := []
  /-- which registration was called with what, first call first -/
  calls : List (Nat × Value) := []
  host : σ

namespace PlainBus

variable {κ σ : Type}

def subscribe (event : String) (code : κ) (s : PlainBus κ σ) : Nat × PlainBus κ σ :=
  (s.issued,
    { s with
      lists := fun e => if event = e then s.lists e ++ [(s.issued, code)] else s.lists e
      issued := s.issued + 1 })

def remove (number : Nat) (s : PlainBus κ σ) : PlainBus κ σ :=
  { s with lists := fun e => (s.lists e).filter (·.1 ≠ number) }

def clear (s : PlainBus κ σ) : PlainBus κ σ := { s with lists := fun _ => [] }

def isRegistered (s : PlainBus κ σ) (event : String) : Bool := !(s.lists event).isEmpty

def listenerCount (s : PlainBus κ σ) (event : String) : Nat := (s.lists event).length

def push (event : String) (s : PlainBus κ σ) : PlainBus κ σ := { s with stack := s.stack ++ [event] }

def pop (s : PlainBus κ σ) : PlainBus κ σ := { s with stack := s.stack.dropLast }

def note (number : Nat) (value : Value) (s : PlainBus κ σ) : PlainBus κ σ :=
  { s with calls := s.calls ++ [(number, value)] }

/-- The code of a registration of the event, if it is still there. -/
def code? (s : PlainBus κ σ) (event : String) (number : Nat) : Option κ :=
  ((s.lists event).find? (·.1 = number)).map Prod.snd

theorem code?_eq_none {s : PlainBus κ σ} {event : String} {number : Nat}
    (h : ∀ k, (number, k) ∉ s.lists event) : s.code? event number = none := by
  unfold code?
  rw [Option.map_eq_none_iff, List.find?_eq_none]
  rintro ⟨n, k⟩ hx hn
  rw [decide_eq_true_eq] at hn
  exact h k (hn ▸ hx)

theorem code?_eq_some {s : PlainBus κ σ} {event : String} {number : Nat} {k : κ}
    (h : (number, k) ∈ s.lists event) (hu : ∀ j, (number, j) ∈ s.lists event → j = k) :
    s.code? event number = some k := by
  unfold code?
  cases hf : (s.lists event).find? (·.1 = number) with
  | none =>
    rw [List.find?_eq_none] at hf
    exact absurd (decide_eq_true rfl) (hf _ h)
  | some x =>
    have hn : x.1 = number := by simpa using List.find?_some hf
    have hx : (number, x.2) ∈ s.lists event := hn ▸ List.mem_of_find?_eq_some hf
    rw [Option.map_some, hu x.2 hx]

/-- How publishing goes. -/
abbrev Publisher (κ σ : Type) := String → Value → PlainBus κ σ → Outcome × PlainBus κ σ

end PlainBus

/-- What a script does to a plain bus. -/
def BusScript.eval {κ σ α : Type} (publish : PlainBus.Publisher κ σ) :
    BusScript κ σ α → PlainBus κ σ → α × PlainBus κ σ
  | done a, s => (a, s)
  | inspect next, s => (next s.host).eval publish s
  | amend f next, s => next.eval publish { s with host := f s.host }
  | subscribe event code next, s =>
    (next (s.subscribe event code).1).eval publish (s.subscribe event code).2
  | remove number next, s => next.eval publish (s.remove number)
  | clear next, s => next.eval publish s.clear
  | .publish event value next, s =>
    (next (publish event value s).1).eval publish (publish event value s).2
  | isRegistered event next, s => (next (s.isRegistered event)).eval publish s
  | listenerCount event next, s => (next (s.listenerCount event)).eval publish s

namespace PlainBus

variable {κ σ : Type} (code : κ → Value → BusScript κ σ Outcome)

/-- Calls registrations by their numbers, in order.  One that is gone when its turn comes is passed
over, and the first failure ends it. -/
def callAll (publish : Publisher κ σ) (event : String) (value : Value) :
    List Nat → PlainBus κ σ → Outcome × PlainBus κ σ
  | [], s => (.ok (), s)
  | number :: r, s =>
    match s.code? event number with
    | none => callAll publish event value r s
    | some k =>
      match (code k value).eval publish (s.note number value) with
      | (.ok (), s) => callAll publish event value r s
      | (.error failure, s) => (.error failure, s)

section

variable {publish : Publisher κ σ} {event : String} {value : Value} {number : Nat} {k : κ}
  {s t : PlainBus κ σ}

theorem callAll_cons_of_gone (h : s.code? event number = none) (r : List Nat) :
    callAll code publish event value (number :: r) s = callAll code publish event value r s := by
  rw [callAll, h]

theorem callAll_cons_of_ok (h : s.code? event number = some k)
    (he : (code k value).eval publish (s.note number value) = (.ok (), t)) (r : List Nat) :
    callAll code publish event value (number :: r) s = callAll code publish event value r t := by
  rw [callAll, h]
  simp only [he]

theorem callAll_cons_of_failed {failure : BusError} (h : s.code? event number = some k)
    (he : (code k value).eval publish (s.note number value) = (.error failure, t)) (r : List Nat) :
    callAll code publish event value (number :: r) s = (.error failure, t) := by
  rw [callAll, h]
  simp only [he]

/-- Registrations that are gone are not called. -/
theorem callAll_of_gone {numbers : List Nat} (h : ∀ n ∈ numbers, s.code? event n = none) :
    callAll code publish event value numbers s = (.ok (), s) := by
  induction numbers with
  | nil => rfl
  | cons n r ih =>
    rw [callAll_cons_of_gone code (h n List.mem_cons_self)]
    exact ih fun m hm => h m (List.mem_cons_of_mem _ hm)

end

/-- Publishes an event when `room` more events may be in flight. -/
def publish : Nat → Publisher κ σ
  | room, event, value, s =>
    if (s.lists event).isEmpty then (.ok (), s)
    else if event ∈ s.stack then (.error (.cycle event s.stack), s)
    else
      match room with
      | 0 => (.error (.depthExceeded event s.limit), s)
      | room + 1 =>
        let (outcome, s) := callAll code (publish room) event value
          ((s.lists event).map Prod.fst) (s.push event)
        (outcome, s.pop)

/-- What publishing does, as long as the events in flight and the room that is left make up the
limit. -/
theorem publish_rule {room : Nat} {s : PlainBus κ σ} (h : s.stack.length + room = s.limit)
    (event : String) (value : Value) :
    publish code room event value s
      = if (s.lists event).isEmpty then (.ok (), s)
        else if event ∈ s.stack then (.error (.cycle event s.stack), s)
        else if s.limit ≤ s.stack.length then (.error (.depthExceeded event s.limit), s)
        else
          let (outcome, t) := callAll code (publish code (room - 1)) event value
            ((s.lists event).map Prod.fst) (s.push event)
          (outcome, t.pop) := by
  cases room with
  | zero =>
    have hl : s.limit ≤ s.stack.length := by omega
    rw [if_pos hl]
    rfl
  | succ room =>
    have hl : ¬ s.limit ≤ s.stack.length := by omega
    rw [if_neg hl]
    rfl

/-! ## What lasts -/

/-- `t` comes after `s`, between publishes of the same depth: what is in flight is the same, numbers
are not given out again, and a registration that was gone stays so. -/
structure Later (s t : PlainBus κ σ) : Prop where
  limit : t.limit = s.limit
  stack : t.stack = s.stack
  issued : s.issued ≤ t.issued
  gone : ∀ event number k, number < s.issued → (number, k) ∈ t.lists event →
    (number, k) ∈ s.lists event

namespace Later

theorem refl (s : PlainBus κ σ) : Later s s := ⟨rfl, rfl, Nat.le_refl _, fun _ _ _ _ h => h⟩

theorem trans {s t u : PlainBus κ σ} (h : Later s t) (k : Later t u) : Later s u where
  limit := k.limit.trans h.limit
  stack := k.stack.trans h.stack
  issued := Nat.le_trans h.issued k.issued
  gone e n x hn hx := h.gone e n x hn (k.gone e n x (Nat.lt_of_lt_of_le hn h.issued) hx)

theorem note (number : Nat) (value : Value) (s : PlainBus κ σ) : Later s (s.note number value) :=
  ⟨rfl, rfl, Nat.le_refl _, fun _ _ _ _ h => h⟩

theorem subscribe (event : String) (k : κ) (s : PlainBus κ σ) :
    Later s (s.subscribe event k).2 where
  limit := rfl
  stack := rfl
  issued := Nat.le_succ _
  gone e n x hn hx := by
    have hx' : (n, x) ∈ if event = e then s.lists e ++ [(s.issued, k)] else s.lists e := hx
    split at hx'
    · rcases List.mem_append.mp hx' with h | h
      · exact h
      · rw [List.mem_singleton, Prod.mk.injEq] at h
        omega
    · exact hx'

theorem remove (number : Nat) (s : PlainBus κ σ) : Later s (s.remove number) where
  limit := rfl
  stack := rfl
  issued := Nat.le_refl _
  gone _ _ _ _ hx := (List.mem_filter.mp hx).1

theorem clear (s : PlainBus κ σ) : Later s s.clear where
  limit := rfl
  stack := rfl
  issued := Nat.le_refl _
  gone _ _ _ _ hx := absurd hx List.not_mem_nil

end Later

theorem later_eval {α : Type} {publish : Publisher κ σ}
    (hp : ∀ event value s, Later s (publish event value s).2) (script : BusScript κ σ α)
    (s : PlainBus κ σ) : Later s (script.eval publish s).2 := by
  induction script generalizing s with
  | done a => exact Later.refl s
  | inspect next ih => exact ih s.host s
  | amend f next ih =>
    have h : Later s { s with host := f s.host } := ⟨rfl, rfl, Nat.le_refl _, fun _ _ _ _ h => h⟩
    exact h.trans (ih _)
  | subscribe event k next ih => exact (Later.subscribe event k s).trans (ih _ _)
  | remove number next ih => exact (Later.remove number s).trans (ih _)
  | clear next ih => exact (Later.clear s).trans (ih _)
  | publish event value next ih => exact (hp event value s).trans (ih _ _)
  | isRegistered event next ih => exact ih _ s
  | listenerCount event next ih => exact ih _ s

theorem later_callAll {publish : Publisher κ σ}
    (hp : ∀ event value s, Later s (publish event value s).2) (event : String) (value : Value)
    (numbers : List Nat) (s : PlainBus κ σ) :
    Later s (callAll code publish event value numbers s).2 := by
  induction numbers generalizing s with
  | nil => exact Later.refl s
  | cons number r ih =>
    cases hk : s.code? event number with
    | none =>
      rw [callAll_cons_of_gone code hk]
      exact ih s
    | some k =>
      have he := (Later.note number value s).trans (later_eval hp (code k value) _)
      generalize hres : (code k value).eval publish (s.note number value) = res at he
      obtain ⟨outcome, t⟩ := res
      cases outcome with
      | ok u =>
        rw [callAll_cons_of_ok code hk hres]
        exact he.trans (ih t)
      | error failure =>
        rw [callAll_cons_of_failed code hk hres]
        exact he

theorem later_publish (room : Nat) (event : String) (value : Value) (s : PlainBus κ σ) :
    Later s (publish code room event value s).2 := by
  induction room generalizing event value s with
  | zero =>
    unfold publish
    split
    · exact Later.refl s
    · split <;> exact Later.refl s
  | succ room ih =>
    unfold publish
    split
    · exact Later.refl s
    · split
      · exact Later.refl s
      · have h := later_callAll code ih event value ((s.lists event).map Prod.fst) (s.push event)
        refine ⟨h.limit, ?_, h.issued, h.gone⟩
        show List.dropLast _ = _
        rw [h.stack]
        show (s.stack ++ [event]).dropLast = s.stack
        rw [List.dropLast_append_of_ne_nil (by simp)]
        simp

end PlainBus

end Bindery
