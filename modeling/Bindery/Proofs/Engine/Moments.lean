import Bindery.Proofs.Engine.Plan
import Bindery.Proofs.Engine.Publishing

/-!
# Moment by moment

The runs of an engine, step by step and without engines.  At each moment there is a page, one thing
under way, and below it everything that waits for it to return, innermost first.  A call is always
stepped into.  Some steps are acts: a value is stored, or an event is published.

* `Moment`, `Moment.step`    a moment, and the acts and the moment that come next
* `Moment.after`             the moment so many steps later
* `Moment.acts`              the acts on the way there
* `Moment.Within`            all changes that are left to be made are of a kind
* `Moment.step_cases`        what a step does
* `after_of_run`             what an engine carries out is gone through moment by moment
-/

namespace Bindery

/-- What can be seen of a run from outside. -/
inductive Act where
  | stored (m : ModelId) (key : String) (value : Value)
  /-- an event is published, by a model that was written or by anybody else -/
  | published (origin : Option ModelId) (bus : BusId) (event : String) (value : Value)

/-- The model that the act is one of. -/
def Act.origin? : Act → Option ModelId
  | stored m _ _ => some m
  | published origin _ _ _ => origin

inductive Focus (κ σ : Type) where
  | plan (plan : Plan κ σ Outcome)
  /-- a model that was written publishes its event next -/
  | announce (m : ModelId) (bus : BusId) (event : String) (value : Value)
      (next : Outcome → Plan κ σ Outcome)
  /-- the turns of a delivery, each the place of a listener -/
  | turns (bus : BusId) (event : String) (generation : Nat) (value : Value) (places : List Nat)
  /-- the handlers that are called one after the other -/
  | handlers (e : ElementId) (handlers : List (Handler κ))

inductive Frame (κ σ : Type) where
  | publish (bus : BusId) (next : Outcome → Plan κ σ Outcome)
  | turns (bus : BusId) (event : String) (generation : Nat) (value : Value) (places : List Nat)
  | dispatch (e : ElementId) (next : Outcome → Plan κ σ Outcome)
  | handlers (e : ElementId) (handlers : List (Handler κ))

structure Moment (κ σ : Type) where
  page : Page κ σ
  focus : Focus κ σ
  /-- what waits, innermost first -/
  stack : List (Frame κ σ)

variable {κ σ α : Type}

namespace Moment

def answer (p : Page κ σ) (outcome : Outcome) : List (Frame κ σ) → Moment κ σ
  | [] => ⟨p, .plan (.done outcome), []⟩
  | .publish bus next :: rest => ⟨p.modifyBus bus Registry.leave, .plan (next outcome), rest⟩
  | .dispatch e next :: rest => ⟨p.release (.element e), .plan (next outcome), rest⟩
  | .turns bus event generation value places :: rest =>
    match outcome with
    | .ok () => ⟨p, .turns bus event generation value places, rest⟩
    | .error failure => ⟨p, .plan (.done (.error failure)), rest⟩
  | .handlers e handlers :: rest =>
    match outcome with
    | .ok () => ⟨p, .handlers e handlers, rest⟩
    | .error failure => ⟨p, .plan (.done (.error failure)), rest⟩

/-- A publish is refused, or has nobody to deliver to, or begins to deliver. -/
def publish (p : Page κ σ) (bus : BusId) (event : String) (value : Value)
    (next : Outcome → Plan κ σ Outcome) (stack : List (Frame κ σ)) : Moment κ σ :=
  match p.bus? bus with
  | none => ⟨p, .plan (next (.ok ())), stack⟩
  | some registry =>
    match registry.enter event with
    | .error failure => ⟨p, .plan (next (.error failure)), stack⟩
    | .ok none => ⟨p, .plan (next (.ok ())), stack⟩
    | .ok (some (delivery, registry)) =>
      ⟨p.modifyBus bus fun _ => registry,
        .turns bus event delivery.generation value (List.range delivery.length),
        .publish bus next :: stack⟩

/-- A value is stored, and then announced if the key announces its writes. -/
def write (p : Page κ σ) (d : Model) (m : ModelId) (key : String) (value : Value)
    (next : Outcome → Plan κ σ Outcome) (stack : List (Frame κ σ)) : Moment κ σ :=
  if key ∈ d.observed then
    ⟨(p.store m key value).hold (.model m),
      .announce m d.bus (d.event key) value fun outcome =>
        .change (Page.release (.model m)) (next outcome), stack⟩
  else ⟨p.store m key value, .plan (next (.ok ())), stack⟩

/-- The acts of a moment, and the moment that comes next. -/
def step (callbacks : Callbacks κ σ) : Moment κ σ → List Act × Moment κ σ
  | ⟨p, .plan (.done outcome), stack⟩ => ([], answer p outcome stack)
  | ⟨p, .plan (.look next), stack⟩ => ([], ⟨p, .plan (next p), stack⟩)
  | ⟨p, .plan (.change f next), stack⟩ => ([], ⟨f p, .plan next, stack⟩)
  | ⟨p, .plan (.publish bus event value next), stack⟩ =>
    ([.published none bus event value], publish p bus event value next stack)
  | ⟨p, .plan (.dispatch e kind next), stack⟩ =>
    let p := p.hold (.element e)
    ([], ⟨p, .handlers e (p.handlers e kind), .dispatch e next :: stack⟩)
  | ⟨p, .plan (.write m key value next), stack⟩ =>
    match p.model? m with
    | none => ([], ⟨p, .plan (next (.ok ())), stack⟩)
    | some d => ([.stored m key value], write p d m key value next stack)
  | ⟨p, .announce m bus event value next, stack⟩ =>
    ([.published (some m) bus event value], publish p bus event value next stack)
  | ⟨p, .turns _ _ _ _ [], stack⟩ => ([], ⟨p, .plan (.done (.ok ())), stack⟩)
  | ⟨p, .turns bus event generation value (i :: rest), stack⟩ =>
    match (p.bus? bus).bind (·.slot? event generation i) with
    | none => ([], ⟨p, .plan (.done (.ok ())), stack⟩)
    | some none => ([], ⟨p, .turns bus event generation value rest, stack⟩)
    | some (some listener) =>
      ([], ⟨p, .plan (listener.plan callbacks value),
        .turns bus event generation value rest :: stack⟩)
  | ⟨p, .handlers _ [], stack⟩ => ([], ⟨p, .plan (.done (.ok ())), stack⟩)
  | ⟨p, .handlers e (handler :: rest), stack⟩ =>
    ([], ⟨p, .plan (handler.plan callbacks e), .handlers e rest :: stack⟩)

def after (callbacks : Callbacks κ σ) (S : Moment κ σ) : Nat → Moment κ σ
  | 0 => S
  | k + 1 => after callbacks (S.step callbacks).2 k

def acts (callbacks : Callbacks κ σ) (S : Moment κ σ) : Nat → List Act
  | 0 => []
  | k + 1 => (S.step callbacks).1 ++ acts callbacks (S.step callbacks).2 k

def start (program : Program κ σ Outcome) (p : Page κ σ) : Moment κ σ := ⟨p, .plan program.plan, []⟩

variable {callbacks : Callbacks κ σ} {S T U : Moment κ σ}

theorem after_add (j k : Nat) (S : Moment κ σ) :
    S.after callbacks (j + k) = (S.after callbacks j).after callbacks k := by
  induction j generalizing S with
  | zero => rw [Nat.zero_add, after]
  | succ j ih =>
    rw [Nat.add_right_comm]
    exact ih _

/-! ## Coming to a later moment -/

def Leads (callbacks : Callbacks κ σ) (S T : Moment κ σ) : Prop := ∃ k, S.after callbacks k = T

namespace Leads

theorem refl (S : Moment κ σ) : Leads callbacks S S := ⟨0, rfl⟩

theorem trans (h : Leads callbacks S T) (k : Leads callbacks T U) : Leads callbacks S U := by
  obtain ⟨i, rfl⟩ := h
  obtain ⟨j, rfl⟩ := k
  exact ⟨i + j, after_add i j S⟩

theorem step (S : Moment κ σ) : Leads callbacks S (S.step callbacks).2 := ⟨1, rfl⟩

theorem head (h : (S.step callbacks).2 = T) (k : Leads callbacks T U) : Leads callbacks S U :=
  (step S).trans (h ▸ k)

end Leads

end Moment

/-! ## What moments keep to -/

section
variable {R : Page κ σ → Page κ σ → Prop} {callbacks : Callbacks κ σ} {S : Moment κ σ}

def Focus.Within (R : Page κ σ → Page κ σ → Prop) : Focus κ σ → Prop
  | .plan left => left.Within R
  | .announce _ _ _ _ next => ∀ outcome, (next outcome).Within R
  | _ => True

def Frame.Within (R : Page κ σ → Page κ σ → Prop) : Frame κ σ → Prop
  | .publish _ next => ∀ outcome, (next outcome).Within R
  | .dispatch _ next => ∀ outcome, (next outcome).Within R
  | _ => True

/-- All changes that are left to be made, apart from writes, are related by `R`. -/
structure Moment.Within (R : Page κ σ → Page κ σ → Prop) (S : Moment κ σ) : Prop where
  focus : S.focus.Within R
  stack : ∀ frame ∈ S.stack, frame.Within R

/-- All changes of listeners and handlers, apart from writes, are related by `R`. -/
structure Callbacks.Within (callbacks : Callbacks κ σ) (R : Page κ σ → Page κ σ → Prop) : Prop where
  listener : ∀ l value, (Listener.plan callbacks value l).Within R
  handler : ∀ h e, (Handler.plan callbacks e h).Within R

namespace Moment.Within

theorem push {focus : Focus κ σ} {frame : Frame κ σ} {p : Page κ σ} {stack : List (Frame κ σ)}
    (hfocus : focus.Within R) (hframe : frame.Within R) (h : ∀ f ∈ stack, f.Within R) :
    Moment.Within R ⟨p, focus, frame :: stack⟩ := by
  refine ⟨hfocus, fun f hf => ?_⟩
  rcases List.mem_cons.mp hf with rfl | hf
  · exact hframe
  · exact h f hf

theorem answer {p : Page κ σ} {outcome : Outcome} {stack : List (Frame κ σ)}
    (h : ∀ frame ∈ stack, frame.Within R) : (Moment.answer p outcome stack).Within R := by
  cases stack with
  | nil => exact ⟨trivial, h⟩
  | cons frame rest =>
    have hframe := h frame List.mem_cons_self
    have hrest : ∀ f ∈ rest, f.Within R := fun f hf => h f (List.mem_cons_of_mem _ hf)
    cases frame with
    | publish bus next => exact ⟨hframe outcome, hrest⟩
    | dispatch e next => exact ⟨hframe outcome, hrest⟩
    | turns bus event generation value places =>
      cases outcome with
      | ok u => exact ⟨trivial, hrest⟩
      | error failure => exact ⟨trivial, hrest⟩
    | handlers e handlers =>
      cases outcome with
      | ok u => exact ⟨trivial, hrest⟩
      | error failure => exact ⟨trivial, hrest⟩

theorem publish {p : Page κ σ} {bus : BusId} {event : String} {value : Value}
    {next : Outcome → Plan κ σ Outcome} {stack : List (Frame κ σ)}
    (hnext : ∀ outcome, (next outcome).Within R) (h : ∀ frame ∈ stack, frame.Within R) :
    (Moment.publish p bus event value next stack).Within R := by
  unfold Moment.publish
  split
  · exact ⟨hnext _, h⟩
  · split
    · exact ⟨hnext _, h⟩
    · exact ⟨hnext _, h⟩
    · exact push trivial hnext h

theorem step (hc : callbacks.Within R) (hrelease : ∀ p h, R p (p.release h)) (hS : S.Within R) :
    (S.step callbacks).2.Within R := by
  obtain ⟨p, focus, stack⟩ := S
  obtain ⟨hfocus, hstack⟩ := hS
  cases focus with
  | plan plan =>
    cases plan with
    | done outcome => exact answer hstack
    | look next => exact ⟨hfocus p, hstack⟩
    | change f next => exact ⟨hfocus.2, hstack⟩
    | publish bus event value next => exact publish hfocus hstack
    | dispatch e kind next => exact push trivial hfocus hstack
    | write m key value next =>
      unfold Moment.step
      dsimp only
      split
      · exact ⟨hfocus _, hstack⟩
      · unfold write
        split
        · exact ⟨fun outcome => ⟨fun q => hrelease q _, hfocus outcome⟩, hstack⟩
        · exact ⟨hfocus _, hstack⟩
  | announce m bus event value next => exact publish hfocus hstack
  | turns bus event generation value places =>
    cases places with
    | nil => exact ⟨trivial, hstack⟩
    | cons i rest =>
      unfold Moment.step
      dsimp only
      split
      · exact ⟨trivial, hstack⟩
      · exact ⟨trivial, hstack⟩
      · exact push (hc.listener _ value) trivial hstack
  | handlers e handlers =>
    cases handlers with
    | nil => exact ⟨trivial, hstack⟩
    | cons handler rest => exact push (hc.handler handler e) trivial hstack

theorem after (hc : callbacks.Within R) (hrelease : ∀ p h, R p (p.release h)) (hS : S.Within R)
    (k : Nat) : (S.after callbacks k).Within R := by
  induction k generalizing S with
  | zero => exact hS
  | succ k ih => exact ih (step hc hrelease hS)

end Moment.Within

/-! ## What a step does -/

/-- A model publishes next. -/
def Focus.Announces : Focus κ σ → Prop
  | .announce .. => True
  | _ => False

/-- A relation that holds of what calling and returning change. -/
structure Page.CallsWithin (R : Page κ σ → Page κ σ → Prop) : Prop where
  refl : ∀ p, R p p
  hold : ∀ p h, R p (p.hold h)
  release : ∀ p h, R p (p.release h)
  modifyBus : ∀ p b f, R p (p.modifyBus b f)

namespace Page.CallsWithin

variable {p : Page κ σ} {stack : List (Frame κ σ)}

theorem publish (hR : CallsWithin R) (p : Page κ σ) (bus : BusId) (event : String) (value : Value)
    (next : Outcome → Plan κ σ Outcome) (stack : List (Frame κ σ)) :
    R p (Moment.publish p bus event value next stack).page ∧
      ¬ (Moment.publish p bus event value next stack).focus.Announces := by
  unfold Moment.publish
  split
  · exact ⟨hR.refl p, id⟩
  · split
    · exact ⟨hR.refl p, id⟩
    · exact ⟨hR.refl p, id⟩
    · exact ⟨hR.modifyBus p bus _, id⟩

theorem answer (hR : CallsWithin R) (p : Page κ σ) (outcome : Outcome) (stack : List (Frame κ σ)) :
    R p (Moment.answer p outcome stack).page ∧ ¬ (Moment.answer p outcome stack).focus.Announces := by
  cases stack with
  | nil => exact ⟨hR.refl p, id⟩
  | cons frame rest =>
    cases frame with
    | publish bus next => exact ⟨hR.modifyBus p bus _, id⟩
    | dispatch e next => exact ⟨hR.release p _, id⟩
    | turns bus event generation value places =>
      cases outcome with
      | ok u => exact ⟨hR.refl p, id⟩
      | error failure => exact ⟨hR.refl p, id⟩
    | handlers e handlers =>
      cases outcome with
      | ok u => exact ⟨hR.refl p, id⟩
      | error failure => exact ⟨hR.refl p, id⟩

end Page.CallsWithin

/-- A step writes to a model, or publishes for a model that was written, or it is no act of a model and
changes the page in the way the moment keeps to. -/
theorem Moment.step_cases (callbacks : Callbacks κ σ) (hR : Page.CallsWithin R) (hS : S.Within R) :
    (∃ m key value next d, S.focus = .plan (.write m key value next) ∧ S.page.model? m = some d ∧
      S.step callbacks = ([.stored m key value], write S.page d m key value next S.stack)) ∨
    (∃ m bus event value next, S.focus = .announce m bus event value next ∧
      S.step callbacks = ([.published (some m) bus event value],
        publish S.page bus event value next S.stack)) ∨
    ¬ S.focus.Announces ∧ ¬ (S.step callbacks).2.focus.Announces ∧
      (∀ a ∈ (S.step callbacks).1, a.origin? = none) ∧ R S.page (S.step callbacks).2.page := by
  obtain ⟨p, focus, stack⟩ := S
  have hnone : ∀ a ∈ ([] : List Act), a.origin? = none := fun a ha => nomatch ha
  cases focus with
  | plan plan =>
    cases plan with
    | done outcome =>
      obtain ⟨hpage, hfocus⟩ := hR.answer p outcome stack
      exact Or.inr (Or.inr ⟨id, hfocus, hnone, hpage⟩)
    | look next => exact Or.inr (Or.inr ⟨id, id, hnone, hR.refl p⟩)
    | change f next => exact Or.inr (Or.inr ⟨id, id, hnone, hS.focus.1 p⟩)
    | publish bus event value next =>
      obtain ⟨hpage, hfocus⟩ := hR.publish p bus event value next stack
      refine Or.inr (Or.inr ⟨id, hfocus, fun a ha => ?_, hpage⟩)
      rw [List.mem_singleton.mp ha]
      rfl
    | dispatch e kind next => exact Or.inr (Or.inr ⟨id, id, hnone, hR.hold p _⟩)
    | write m key value next =>
      cases hm : p.model? m with
      | none =>
        have hstep : Moment.step callbacks ⟨p, .plan (.write m key value next), stack⟩
            = ([], ⟨p, .plan (next (.ok ())), stack⟩) := by simp only [Moment.step, hm]
        rw [hstep]
        exact Or.inr (Or.inr ⟨id, id, hnone, hR.refl p⟩)
      | some d =>
        refine Or.inl ⟨m, key, value, next, d, rfl, hm, ?_⟩
        simp only [Moment.step, hm]
  | announce m bus event value next => exact Or.inr (Or.inl ⟨m, bus, event, value, next, rfl, rfl⟩)
  | turns bus event generation value places =>
    refine Or.inr (Or.inr ?_)
    cases places with
    | nil => exact ⟨id, id, hnone, hR.refl p⟩
    | cons i rest =>
      unfold Moment.step
      dsimp only
      split
      · exact ⟨id, id, hnone, hR.refl p⟩
      · exact ⟨id, id, hnone, hR.refl p⟩
      · exact ⟨id, id, hnone, hR.refl p⟩
  | handlers e handlers =>
    refine Or.inr (Or.inr ?_)
    cases handlers with
    | nil => exact ⟨id, id, hnone, hR.refl p⟩
    | cons handler rest => exact ⟨id, id, hnone, hR.refl p⟩

end

/-! ## Engines go through the moments -/

open Moment

/-- Whatever the engine carries out is gone through moment by moment. -/
structure Engine.Stepped (callbacks : Callbacks κ σ) (engine : Engine κ σ) : Prop where
  publish : ∀ {bus event value p outcome q}, engine.publish bus event value p = some (outcome, q) →
    ∀ next stack, Leads callbacks (Moment.publish p bus event value next stack)
      ⟨q, .plan (next outcome), stack⟩
  dispatch : ∀ {e kind p outcome q}, engine.dispatch e kind p = some (outcome, q) →
    ∀ next stack, Leads callbacks ⟨p, .plan (.dispatch e kind next), stack⟩
      ⟨q, .plan (next outcome), stack⟩

namespace Engine

variable {callbacks : Callbacks κ σ} {engine : Engine κ σ} {p q : Page κ σ} {outcome : Outcome}

namespace Stepped

theorem write (he : engine.Stepped callbacks) {m : ModelId} {key : String} {value : Value}
    (h : engine.write m key value p = some (outcome, q)) (next : Outcome → Plan κ σ Outcome)
    (stack : List (Frame κ σ)) :
    Leads callbacks ⟨p, .plan (.write m key value next), stack⟩ ⟨q, .plan (next outcome), stack⟩ := by
  unfold Engine.write at h
  rw [Run.get_bind] at h
  cases hm : p.model? m with
  | none =>
    rw [hm] at h
    cases h
    refine .head ?_ (.refl _)
    simp [Moment.step, hm]
  | some d =>
    rw [hm] at h
    have hstep : (Moment.step callbacks ⟨p, .plan (.write m key value next), stack⟩).2
        = Moment.write p d m key value next stack := by simp [Moment.step, hm]
    refine .head hstep ?_
    unfold Moment.write
    dsimp only at h
    rw [Run.modify_bind] at h
    split
    · rename_i hk
      rw [if_pos hk] at h
      obtain ⟨r, hr, rfl⟩ := Run.holding_eq_some.mp h
      have hrelease : Leads callbacks
          ⟨r, .plan (.change (Page.release (.model m)) (next outcome)), stack⟩
          ⟨r.release (.model m), .plan (next outcome), stack⟩ := .step _
      have hannounce := he.publish hr
        (fun outcome => .change (Page.release (.model m)) (next outcome)) stack
      exact .head rfl (hannounce.trans hrelease)
    · rename_i hk
      rw [if_neg hk] at h
      cases h
      exact .refl _

theorem plan (he : engine.Stepped callbacks) {plan : Plan κ σ α} {a : α}
    (h : plan.run engine p = some (a, q)) (f : α → Plan κ σ Outcome) (stack : List (Frame κ σ)) :
    Leads callbacks ⟨p, .plan (plan.bind f), stack⟩ ⟨q, .plan (f a), stack⟩ := by
  induction plan generalizing p with
  | done b =>
    cases h
    exact .refl _
  | look next ih => exact .head rfl (ih p h)
  | change g next ih => exact .head rfl (ih h)
  | publish bus event value next ih =>
    obtain ⟨b, r, hr, hq⟩ := Run.bind_eq_some.mp h
    exact .head rfl ((he.publish hr (fun b => (next b).bind f) stack).trans (ih b hq))
  | dispatch e kind next ih =>
    obtain ⟨b, r, hr, hq⟩ := Run.bind_eq_some.mp h
    exact (he.dispatch hr (fun b => (next b).bind f) stack).trans (ih b hq)
  | write m key value next ih =>
    obtain ⟨b, r, hr, hq⟩ := Run.bind_eq_some.mp h
    exact (he.write hr (fun b => (next b).bind f) stack).trans (ih b hq)

theorem call (he : engine.Stepped callbacks) {plan : Plan κ σ Outcome}
    (h : plan.run engine p = some (outcome, q)) (stack : List (Frame κ σ)) :
    Leads callbacks ⟨p, .plan plan, stack⟩ (answer q outcome stack) := by
  have hbind : plan.bind .done = plan := by
    clear h
    induction plan <;> simp_all [Plan.bind]
  have hlead := he.plan h .done stack
  rw [hbind] at hlead
  exact hlead.trans (.head rfl (.refl _))

theorem deliver (he : engine.Stepped callbacks) {bus : BusId} {event : String} {generation : Nat}
    {value : Value} {places : List Nat}
    (h : deliver callbacks engine bus event generation value places p = some (outcome, q))
    (stack : List (Frame κ σ)) :
    Leads callbacks ⟨p, .turns bus event generation value places, stack⟩
      ⟨q, .plan (.done outcome), stack⟩ := by
  induction places generalizing p with
  | nil =>
    cases h
    exact .head rfl (.refl _)
  | cons i rest ih =>
    rw [Engine.deliver, Run.get_bind] at h
    cases hs : (p.bus? bus).bind (·.slot? event generation i) with
    | none =>
      rw [hs] at h
      cases h
      refine .head ?_ (.refl _)
      simp only [Moment.step, hs]
    | some slot =>
      rw [hs] at h
      cases slot with
      | none =>
        refine .head ?_ (ih h)
        simp only [Moment.step, hs]
      | some l =>
        obtain ⟨o, r, hn, hrest⟩ := Run.bind_eq_some.mp h
        rw [← Listener.run_plan] at hn
        have hstep : (Moment.step callbacks
            ⟨p, .turns bus event generation value (i :: rest), stack⟩).2
            = ⟨p, .plan (l.plan callbacks value), .turns bus event generation value rest :: stack⟩ := by
          simp only [Moment.step, hs]
        refine .head hstep ((he.call hn _).trans ?_)
        cases o with
        | ok u => exact ih hrest
        | error failure =>
          cases hrest
          exact .refl _

theorem handleAll (he : engine.Stepped callbacks) {e : ElementId} {handlers : List (Handler κ)}
    (h : handleAll callbacks engine e handlers p = some (outcome, q)) (stack : List (Frame κ σ)) :
    Leads callbacks ⟨p, .handlers e handlers, stack⟩ ⟨q, .plan (.done outcome), stack⟩ := by
  induction handlers generalizing p with
  | nil =>
    cases h
    exact .head rfl (.refl _)
  | cons handler rest ih =>
    obtain ⟨o, r, hn, hrest⟩ := Run.bind_eq_some.mp h
    rw [← Handler.run_plan] at hn
    refine .head rfl ((he.call hn (.handlers e rest :: stack)).trans ?_)
    cases o with
    | ok u => exact ih hrest
    | error failure =>
      cases hrest
      exact .refl _

theorem publishWith (he : engine.Stepped callbacks) {bus : BusId} {event : String} {value : Value}
    (h : publishWith callbacks engine bus event value p = some (outcome, q))
    (next : Outcome → Plan κ σ Outcome) (stack : List (Frame κ σ)) :
    Leads callbacks (Moment.publish p bus event value next stack) ⟨q, .plan (next outcome), stack⟩ := by
  unfold Moment.publish
  cases hb : p.bus? bus with
  | none =>
    rw [publishWith_of_absent hb] at h
    cases h
    exact .refl _
  | some registry =>
    cases hr : registry.enter event with
    | error failure =>
      rw [publishWith_of_refused hb hr] at h
      cases h
      simp only [hr]
      exact .refl _
    | ok entered =>
      cases entered with
      | none =>
        rw [publishWith_of_silent hb hr] at h
        cases h
        simp only [hr]
        exact .refl _
      | some x =>
        obtain ⟨r, hd, rfl⟩ := publishWith_eq_some_of_entered hb hr h
        simp only [hr]
        exact (he.deliver hd _).trans (.head rfl (.refl _))

end Stepped

/-- By induction on the frames: an engine calls listeners and handlers with a smaller one. -/
theorem stepped_ofFrames (callbacks : Callbacks κ σ) (frames : Nat) :
    (ofFrames callbacks frames).Stepped callbacks := by
  induction frames with
  | zero => exact ⟨fun h => (nomatch h), fun h => (nomatch h)⟩
  | succ frames ih =>
    refine ⟨fun h => ih.publishWith h, fun h next stack => ?_⟩
    obtain ⟨r, hr, rfl⟩ := Run.holding_eq_some.mp h
    exact .head rfl ((ih.handleAll hr _).trans (.head rfl (.refl _)))

end Engine

/-- A program that returns comes to the moment at which it has returned. -/
theorem after_of_run {callbacks : Callbacks κ σ} {frames : Nat} {program : Program κ σ Outcome}
    {p q : Page κ σ} {outcome : Outcome}
    (h : program.run (Engine.ofFrames callbacks frames) p = some (outcome, q)) :
    ∃ k, (start program p).after callbacks k = ⟨q, .plan (.done outcome), []⟩ := by
  rw [← Program.run_plan] at h
  exact (Engine.stepped_ofFrames callbacks frames).call h []

end Bindery
