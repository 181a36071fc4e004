import Bindery.Proofs.Bus.Handles
import Bindery.Proofs.Engine.Moments
import Bindery.Proofs.Page.Flights

/-!
# The registries of a run

At each moment of a run the registry of a bus is what some operations have made of a new one, and from
one moment to the next there are at most some more of them.  It does not matter who calls the bus: the
program, a listener in the middle of a delivery, a binding, or a delivery that begins or ends.

* `Registry.Came`             what operations make of a registry
* `Page.Operated`             a page on which a bus changed by operations only
* `Call.operated_plan`        no call does anything else to a bus
* `Moment.operated_step`      nor does any step of a run
* `registries_kept`           the registries of a run, moment by moment
-/

namespace Bindery

namespace Registry

variable {L : Type} {r s t : Option (Registry L)} {ops more : List (Operation L)}

/-- What operations make of a registry, or of one that is new. -/
inductive Came : List (Operation L) → Option (Registry L) → Option (Registry L) → Prop
  | absent : Came [] none none
  | opened (maxDepth : Nat) (ops : List (Operation L)) : Came ops none (some (replay { maxDepth } ops))
  | operated (r : Registry L) (ops : List (Operation L)) : Came ops (some r) (some (r.replay ops))

namespace Came

theorem refl (r : Option (Registry L)) : Came [] r r := by
  cases r with
  | none => exact .absent
  | some r => exact .operated r []

theorem trans (h : Came ops r s) (k : Came more s t) : Came (ops ++ more) r t := by
  cases h with
  | absent => exact k
  | opened maxDepth ops =>
    cases k with
    | operated _ more =>
      rw [← replay_append]
      exact .opened maxDepth _
  | operated r ops =>
    cases k with
    | operated _ more =>
      rw [← replay_append]
      exact .operated r _

theorem eq_of_new {made : Registry L} (hnew : ∀ x, r = some x → x = { maxDepth := x.maxDepth })
    (h : Came ops r (some made)) : made = replay { maxDepth := made.maxDepth } ops := by
  cases h with
  | opened maxDepth => rw [maxDepth_replay]
  | operated x => rw [maxDepth_replay, ← hnew x rfl]

/-- A row of registries, each made from the one before. -/
theorem history {row : Nat → Option (Registry L)} {steps : Nat → List (Operation L)}
    (h : ∀ k, Came (steps k) (row k) (row (k + 1))) (j d : Nat) :
    ∃ ops, (List.range (j + d)).flatMap steps = (List.range j).flatMap steps ++ ops ∧
      Came ops (row j) (row (j + d)) := by
  induction d with
  | zero => exact ⟨[], (List.append_nil _).symm, .refl _⟩
  | succ d ih =>
    obtain ⟨ops, hops, hcame⟩ := ih
    refine ⟨ops ++ steps (j + d), ?_, hcame.trans (h (j + d))⟩
    rw [← Nat.add_assoc, List.range_succ, List.flatMap_append, List.flatMap_singleton, hops,
      List.append_assoc]

end Came

/-- What operations have made of a new registry is sound. -/
theorem sound_of_eq {r : Registry L} (h : r = replay { maxDepth := r.maxDepth } ops) :
    r.Sound (issued { maxDepth := r.maxDepth } ops) := by
  have hsound := (Sound.init (L := L) r.maxDepth).replay ops
  rwa [← h, List.nil_append] at hsound

end Registry

open Registry (Operation Came replay issued WellKept Later)

variable {κ σ : Type}

/-! ## Pages -/

/-- The bus changed by operations only. -/
def Page.Operated (bus : BusId) (p q : Page κ σ) : Prop := ∃ ops, Came ops (p.bus? bus) (q.bus? bus)

namespace Page.Operated

variable {bus : BusId} {p q s : Page κ σ}

theorem refl (p : Page κ σ) : p.Operated bus p := ⟨[], .refl _⟩

theorem trans (h : p.Operated bus q) (k : q.Operated bus s) : p.Operated bus s := by
  obtain ⟨ops, hops⟩ := h
  obtain ⟨more, hmore⟩ := k
  exact ⟨ops ++ more, hops.trans hmore⟩

theorem of_buses (h : q.buses = p.buses) : p.Operated bus q := by
  rw [Operated, bus?_of_buses h]
  exact refl p

theorem modifyBus {b : BusId} {f : Registry (Listener κ) → Registry (Listener κ)}
    (h : ∀ r, p.bus? b = some r → ∃ ops, f r = r.replay ops) : p.Operated bus (p.modifyBus b f) := by
  rw [Operated, bus?_modifyBus]
  split
  · rename_i hb
    subst hb
    cases hr : p.bus? b with
    | none => exact ⟨[], .absent⟩
    | some r =>
      obtain ⟨ops, hops⟩ := h r hr
      rw [Option.map_some, hops]
      exact ⟨ops, .operated r ops⟩
  · exact refl p

theorem subscribe (p : Page κ σ) (b : BusId) (event : String) (l : Listener κ) :
    p.Operated bus (p.subscribe b event l).2 := by
  cases hb : p.bus? b with
  | none =>
    rw [subscribe_of_none hb]
    exact refl p
  | some r =>
    rw [subscribe_of_some hb]
    refine modifyBus fun s hs => ⟨[.subscribe event l], ?_⟩
    rw [hb] at hs
    cases hs
    rfl

theorem unsubscribe (p : Page κ σ) (place : Subscription) : p.Operated bus (p.unsubscribe place) :=
  modifyBus fun _ _ => ⟨[.remove place.place], rfl⟩

theorem clear (p : Page κ σ) (b : BusId) : p.Operated bus (p.modifyBus b Registry.clear) :=
  modifyBus fun _ _ => ⟨[.clear], rfl⟩

theorem enter {b : BusId} {event : String} {r entered : Registry (Listener κ)} {d : Delivery}
    (hb : p.bus? b = some r) (he : r.enter event = .ok (some (d, entered))) :
    p.Operated bus (p.modifyBus b fun _ => entered) := by
  refine modifyBus fun s hs => ⟨[.enter event], ?_⟩
  rw [hb] at hs
  cases hs
  simp only [replay, Operation.apply, he]

theorem leave (p : Page κ σ) (b : BusId) : p.Operated bus (p.modifyBus b Registry.leave) :=
  modifyBus fun _ _ => ⟨[.leave], rfl⟩

theorem addBus (p : Page κ σ) (limit : Nat) : p.Operated bus (p.addBus limit).2 := by
  have hpush : (p.addBus limit).2.bus? bus = (p.buses.push { maxDepth := limit })[bus.index]? := rfl
  rw [Operated, hpush, Array.getElem?_push]
  split
  · rename_i hlast
    have hnone : p.bus? bus = none := Array.getElem?_eq_none (Nat.le_of_eq hlast.symm)
    rw [hnone]
    exact ⟨[], .opened limit []⟩
  · exact refl p

theorem receive (p : Page κ σ) (value : Value) (l : Listener κ) : p.Operated bus (p.receive value l) := by
  rw [receive_eq]
  exact of_buses rfl

theorem setMarkup (p : Page κ σ) (e : ElementId) (markup : String) :
    p.Operated bus (p.setMarkup e markup) := by
  rw [setMarkup_eq]
  exact of_buses rfl

theorem request (p : Page κ σ) (shelf : ShelfId) (path : String) :
    p.Operated bus (p.request shelf path).2 := by
  rw [request_eq]
  exact of_buses rfl

theorem openView (p : Page κ σ) (b : BusId) (request : ViewRequest) :
    p.Operated bus (p.openView b request).2 := of_buses (buses_openView p b request)

theorem bindAttributes (p : Page κ σ) (b : BusId) (m : ModelId) (e : ElementId)
    (entries : List (String × String)) : p.Operated bus (p.bindAttributes b m e entries).2 :=
  bindAttributes_keeps (fun _ _ _ _ _ h => h.trans (of_buses rfl)) (fun _ _ _ h => h.trans (of_buses rfl))
    (fun q event _ h => h.trans (subscribe q b event _)) (refl p) entries

end Page.Operated

/-! ## Calls -/

open Page

section Calls

variable (bus : BusId)

theorem Page.ordinary_operated : Ordinary (Operated (κ := κ) (σ := σ) bus) where
  refl := .refl
  hold _ _ := .of_buses rfl
  release _ _ := .of_buses rfl
  store _ _ _ _ := .of_buses rfl
  subscribe := .subscribe
  bindAttributes := .bindAttributes

theorem Call.operated_routine (c : Call κ) :
    (c.routine : Routine κ σ _).Within (Operated bus) True := by
  have hview : ∀ v (p : Page κ σ) f, p.Operated bus (p.modifyView v f) := fun _ _ _ => .of_buses rfl
  cases c with
  | openBus limit => exact .amendGet fun p => .addBus p limit
  | subscribe b event code => exact .amendGet fun p => .subscribe p b event _
  | unsubscribe s => exact .amend fun p => .unsubscribe p s
  | clear b => exact .amend fun p => .clear p b
  | publish b event value => exact .announce b event value
  | observe b name values => exact .amendGet fun _ => .of_buses rfl
  | write m key value => exact (ordinary_operated bus).write m key value
  | create tag => exact .amendGet fun _ => .of_buses rfl
  | setMarkup e markup => exact .amend fun p => .setMarkup p e markup
  | dispatch e kind => exact .fire trivial e kind
  | bind b m e => exact (ordinary_operated bus).bindElement b m e
  | stock entries => exact .amendGet fun _ => .of_buses rfl
  | openView b request => exact .amendGet fun p => .openView p b request
  | load v shelf =>
    exact (ordinary_operated bus).load (hview v) .setMarkup fun s _ p path => .request p s path
  | populate v markup => exact (ordinary_operated bus).populate (hview v) .setMarkup markup
  | _ => exact .amend fun _ => .of_buses rfl

theorem Call.operated_plan (c : Call κ) : (c.plan : Plan κ σ _).Within (Operated bus) := by
  cases c with
  | write m key value => exact fun _ => trivial
  | _ => exact (Call.operated_routine bus _).plan

theorem Program.operated_plan {α : Type} (program : Program κ σ α) :
    program.plan.Within (Operated bus) :=
  Program.within_plan (fun _ _ => .of_buses rfl) (Call.operated_plan bus) program

theorem Callbacks.operated (callbacks : Callbacks κ σ) : callbacks.Within (Operated bus) where
  listener l value := by
    cases l with
    | callback code => exact Program.operated_plan bus _
    | _ => exact ⟨fun p => .receive p value _, trivial⟩
  handler h e := by
    cases h with
    | callback code => exact Program.operated_plan bus _
    | writeBack m property key control =>
      intro p
      dsimp only
      split
      · exact fun _ => trivial
      · trivial

end Calls

/-! ## Moments -/

namespace Moment

variable {bus : BusId} {callbacks : Callbacks κ σ} {S : Moment κ σ}

theorem operated_answer (p : Page κ σ) (outcome : Outcome) (stack : List (Frame κ σ)) :
    p.Operated bus (answer p outcome stack).page := by
  cases stack with
  | nil => exact .refl p
  | cons frame rest =>
    cases frame with
    | publish b next => exact .leave p b
    | dispatch e next => exact .of_buses rfl
    | turns b event generation value places => cases outcome <;> exact .refl p
    | handlers e handlers => cases outcome <;> exact .refl p

theorem operated_publish (p : Page κ σ) (b : BusId) (event : String) (value : Value)
    (next : Outcome → Plan κ σ Outcome) (stack : List (Frame κ σ)) :
    p.Operated bus (publish p b event value next stack).page := by
  unfold publish
  split
  · exact .refl p
  · rename_i hb
    split
    · exact .refl p
    · exact .refl p
    · rename_i he
      exact .enter hb he

/-- A step changes a bus by operations only. -/
theorem operated_step (hS : S.Within (Operated bus)) :
    S.page.Operated bus (S.step callbacks).2.page := by
  obtain ⟨p, focus, stack⟩ := S
  cases focus with
  | plan plan =>
    cases plan with
    | done outcome => exact operated_answer p outcome stack
    | look next => exact .refl p
    | change f next => exact hS.focus.1 p
    | publish b event value next => exact operated_publish p b event value next stack
    | dispatch e kind next => exact .of_buses rfl
    | write m key value next =>
      unfold step
      dsimp only
      split
      · exact .refl p
      · unfold write
        split
        · exact .of_buses rfl
        · exact .of_buses rfl
  | announce m b event value next => exact operated_publish p b event value next stack
  | turns b event generation value places =>
    cases places with
    | nil => exact .refl p
    | cons i rest =>
      unfold step
      dsimp only
      split
      · exact .refl p
      · exact .refl p
      · exact .refl p
  | handlers e handlers =>
    cases handlers with
    | nil => exact .refl p
    | cons handler rest => exact .refl p

theorem within_of_start (bus : BusId) (program : Program κ σ Outcome) (p : Page κ σ) :
    (start program p).Within (Operated bus) :=
  ⟨Program.operated_plan bus program, nofun⟩

/-- The steps of a run, and what each does to a bus. -/
theorem exists_steps (callbacks : Callbacks κ σ) (hS : S.Within (Operated bus)) :
    ∃ steps : Nat → List (Operation (Listener κ)), ∀ k,
      Came (steps k) ((S.after callbacks k).page.bus? bus) ((S.after callbacks (k + 1)).page.bus? bus) := by
  have hstep : ∀ k, ∃ ops, Came ops ((S.after callbacks k).page.bus? bus)
      ((S.after callbacks (k + 1)).page.bus? bus) := by
    intro k
    have hk := hS.after (Callbacks.operated bus callbacks) (fun p h => .of_buses rfl) k
    have hnext : S.after callbacks (k + 1) = ((S.after callbacks k).step callbacks).2 := after_add k 1 S
    rw [hnext]
    exact operated_step hk
  exact Classical.skolem.mp hstep

/-- A call to subscribe takes two steps: it looks up the page, and then changes it. -/
theorem after_subscribe (callbacks : Callbacks κ σ) {event : String} {code : κ}
    {next : Option Subscription → Plan κ σ Outcome} {r : Registry (Listener κ)}
    (hr : S.page.bus? bus = some r)
    (hfocus : S.focus = .plan ((Call.plan (.subscribe bus event code)).bind next)) :
    S.after callbacks 2
      = ⟨S.page.modifyBus bus fun _ => (r.subscribe event (.callback code)).2,
        .plan (next (some ⟨bus, (r.subscribe event (.callback code)).1⟩)), S.stack⟩ := by
  obtain ⟨p, focus, stack⟩ := S
  have hsubscribe := Page.subscribe_of_some hr event (.callback code)
  dsimp only at hfocus hsubscribe ⊢
  subst hfocus
  show (⟨(p.subscribe bus event (.callback code)).2,
    .plan (next (p.subscribe bus event (.callback code)).1), stack⟩ : Moment κ σ) = _
  rw [hsubscribe]

end Moment

open Moment

/-- At each moment of a run the registry of a bus that was new, or was not there, is what operations
have made of a new one, with more operations at later moments.  A registry and the places it gave out
are well kept at every moment, also in the middle of a delivery, and they stay so at all later moments.  The
places given out are those that calls to subscribe are answered with, and those of bindings. -/
theorem registries_kept (callbacks : Callbacks κ σ) (program : Program κ σ Outcome) {p : Page κ σ}
    {bus : BusId} (hnew : ∀ r, p.bus? bus = some r → r = { maxDepth := r.maxDepth }) :
    (∀ frames outcome q, program.run (Engine.ofFrames callbacks frames) p = some (outcome, q) →
      ∃ k, (start program p).after callbacks k = ⟨q, .plan (.done outcome), []⟩) ∧
    ∃ history : Nat → List (Operation (Listener κ)),
      (∀ k r, ((start program p).after callbacks k).page.bus? bus = some r →
        r = replay { maxDepth := r.maxDepth } (history k) ∧
        WellKept r (issued { maxDepth := r.maxDepth } (history k)) ∧
        ∀ j ≤ k, history j <+: history k ∧
          ∀ q, ((start program p).after callbacks j).page.bus? bus = some q →
            Later q (issued { maxDepth := q.maxDepth } (history j)) r) ∧
      ∀ k r event code next, ((start program p).after callbacks k).page.bus? bus = some r →
        ((start program p).after callbacks k).focus
          = .plan ((Call.plan (.subscribe bus event code)).bind next) →
        ((start program p).after callbacks (k + 2)).focus
            = .plan (next (some ⟨bus, (r.subscribe event (.callback code)).1⟩)) ∧
          ((r.subscribe event (.callback code)).1, .callback code)
            ∈ issued { maxDepth := r.maxDepth } (history (k + 2)) := by
  obtain ⟨steps, hsteps⟩ := exists_steps callbacks (within_of_start bus program p)
  have hmade : ∀ k r, ((start program p).after callbacks k).page.bus? bus = some r →
      r = replay { maxDepth := r.maxDepth } ((List.range k).flatMap steps) := by
    intro k r hr
    obtain ⟨ops, hops, hcame⟩ := Came.history hsteps 0 k
    rw [Nat.zero_add] at hops hcame
    rw [hr] at hcame
    rw [hops]
    exact hcame.eq_of_new hnew
  refine ⟨fun _ _ _ h => after_of_run h, fun k => (List.range k).flatMap steps, ?kept, ?answered⟩
  case kept =>
    intro k r hr
    have hsound := Registry.sound_of_eq (hmade k r hr)
    refine ⟨hmade k r hr, hsound.wellKept, fun j hj => ?_⟩
    obtain ⟨d, rfl⟩ := Nat.exists_eq_add_of_le hj
    obtain ⟨ops, hops, hcame⟩ := Came.history hsteps j d
    refine ⟨⟨ops, hops.symm⟩, fun q hq => ?_⟩
    rw [hq, hr] at hcame
    cases hcame
    exact (Registry.sound_of_eq (hmade j q hq)).later ops
  case answered =>
    intro k r event code next hr hfocus
    have hafter := after_subscribe callbacks hr hfocus
    rw [← after_add] at hafter
    have hbus : ((start program p).after callbacks (k + 2)).page.bus? bus
        = some (r.subscribe event (.callback code)).2 := by
      rw [hafter]
      exact bus?_modifyBus_self hr _
    have hsound := Registry.sound_of_eq (hmade (k + 2) _ hbus)
    rw [Registry.maxDepth_subscribe] at hsound
    rw [hafter]
    exact ⟨rfl, hsound.mem_of_subscribe⟩

/-- A listener that gives up its place, comes back, and gives up the old place once more. -/
def renewing : Callbacks Unit (Option Subscription) where
  onPublish _ _ := .inspect fun p =>
    match p.host with
    | some s =>
      .call (.unsubscribe s) fun _ =>
        .call (.subscribe s.bus s.place.event ()) fun _ =>
          .call (.unsubscribe s) fun _ => .done (.ok ())
    | none => .done (.ok ())
  onEvent _ _ := .done (.ok ())

def renewed : Program Unit (Option Subscription) Outcome :=
  .call (.subscribe ⟨0⟩ "e" ()) fun s => .amend (fun _ => s) (.call (.publish ⟨0⟩ "e" .null) .done)

def renewedPage : Page Unit (Option Subscription) := (Page.addBus 8 { host := none }).2

/-- The listener is in a channel of the next generation, and its event is still being delivered. -/
def renewedRegistry : Registry (Listener Unit) where
  maxDepth := 8
  channels := [⟨"e", 1, [some (.callback ())]⟩]
  nextGeneration := 2
  inFlight := ["e"]

theorem renewed_listener_kept :
    (∀ r, renewedPage.bus? ⟨0⟩ = some r → r = { maxDepth := r.maxDepth }) ∧
    ((start renewed renewedPage).after renewing 11).page.bus? ⟨0⟩ = some renewedRegistry ∧
    ∃ places, (⟨"e", 0, 0⟩, .callback ()) ∈ places ∧ WellKept renewedRegistry places ∧
      renewedRegistry.remove ⟨"e", 0, 0⟩ = renewedRegistry := by
  have hnew : ∀ r, renewedPage.bus? ⟨0⟩ = some r → r = { maxDepth := r.maxDepth } := by
    intro r hr
    cases hr
    rfl
  have hbus : ((start renewed renewedPage).after renewing 11).page.bus? ⟨0⟩ = some renewedRegistry := rfl
  obtain ⟨-, history, hhistory, hanswered⟩ := registries_kept renewing renewed hnew
  obtain ⟨-, hkept, hbefore⟩ := hhistory 11 _ hbus
  obtain ⟨more, hmore⟩ := (hbefore 2 (by decide)).1
  have hplace := (hanswered 0 _ "e" () _ rfl rfl).2
  refine ⟨hnew, hbus, _, ?_, hkept, hkept.vacant ⟨"e", 0, 0⟩ fun l => ?_⟩
  · rw [← hmore, Registry.issued_append]
    exact List.mem_append_left _ hplace
  · have hslot : renewedRegistry.slotAt? ⟨"e", 0, 0⟩ = none := rfl
    rw [hslot]
    exact nofun

end Bindery
