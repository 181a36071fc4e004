import Bindery.Proofs.Engine.Quiet
import Bindery.Proofs.Page.Growth
import Bindery.Proofs.Template.Filling

/-!
# Runs without a failure

The strict engine does what the engine does as long as no publish fails, and gives no result as soon as
one does, whether or not the code that asked for it would have gone on.  It also gives none if a value
that announces its writes shows a `$` when something is published.

So a run that the strict engine has a result for is a run in which neither happens.

* `Program.Tame`    the program makes only calls of a certain kind
* `Engine.strict`   the strict engine
* `Run.Below`       one run gives what another gives, or nothing, and models only grow
* `strict_below`    so it is with the strict engine and the engine
-/

namespace Bindery

/-- No value that announces its writes shows a `$`. -/
def Model.isPlain (d : Model) : Bool :=
  d.observed.all fun k => decide ((d.get? k).getD .null).Plain

def Page.isPlain {κ σ : Type} (p : Page κ σ) : Bool := p.models.all Model.isPlain

theorem Page.plain_of_isPlain {κ σ : Type} {p : Page κ σ} (h : p.isPlain = true) {m : ModelId}
    {d : Model} (hm : p.model? m = some d) {k : String} (hk : k ∈ d.observed) {v : Value}
    (hv : d.get? k = some v) : v.Plain := by
  have hd : d.isPlain = true := by
    unfold Page.isPlain at h
    rw [Array.all_eq_true'] at h
    exact h d (Array.mem_of_getElem? hm)
  have hkv := List.all_eq_true.mp hd k hk
  rw [hv] at hkv
  exact of_decide_eq_true hkv

/-! ## Programs that keep to some calls -/

def Program.Tame {κ σ α : Type} (allowed : Call κ → Prop) : Program κ σ α → Prop
  | .done _ => True
  | .inspect next => ∀ p, (next p).Tame allowed
  | .amend _ next => next.Tame allowed
  | .call c next => allowed c ∧ ∀ a, (next a).Tame allowed

structure Callbacks.Tame {κ σ : Type} (allowed : Call κ → Prop) (callbacks : Callbacks κ σ) : Prop where
  onPublish : ∀ code value, (callbacks.onPublish code value).Tame allowed
  onEvent : ∀ code e, (callbacks.onEvent code e).Tame allowed

/-- The calls that neither take listeners away nor change what there is or what it contains, and that
leave some events of one bus alone. -/
def Call.Mild {κ : Type} (bus : BusId) (barred : String → Prop) : Call κ → Prop
  | subscribe .. => True
  | publish b event _ => b = bus → ¬ barred event
  | write .. => True
  | setAttribute .. => True
  | removeAttribute .. => True
  | setProperty .. => True
  | listen .. => True
  | dispatch .. => True
  | _ => False

/-! ## The strict engine -/

variable {κ σ α β : Type}

/-- The outcome, unless it is a failure. -/
def Run.faultless (run : Run κ σ Outcome) : Run κ σ Outcome := fun p =>
  match run p with
  | some (.ok (), q) => some (.ok (), q)
  | _ => none

namespace Engine

/-- The engine that gives up when a publish fails, or when one begins on a page that is not plain. -/
def strict (callbacks : Callbacks κ σ) : Nat → Engine κ σ
  | 0 => empty
  | frames + 1 =>
    { publish := fun bus event value p =>
        if p.isPlain then (publishWith callbacks (strict callbacks frames) bus event value).faultless p
        else none
      dispatch := fun e kind => dispatchWith callbacks (strict callbacks frames) e kind }

end Engine

namespace Run

theorem faultless_eq_some {run : Run κ σ Outcome} {a : Outcome} {p q : Page κ σ} :
    run.faultless p = some (a, q) ↔ a = .ok () ∧ run p = some (.ok (), q) := by
  unfold faultless
  constructor
  · intro h
    split at h
    · rename_i s hs
      cases h
      exact ⟨rfl, hs⟩
    · cases h
  · rintro ⟨rfl, h⟩
    rw [h]

/-- What `run` gives, `other` gives too, and on the way models have only grown. -/
def Below (run other : Run κ σ α) : Prop :=
  ∀ p a q, run p = some (a, q) → other p = some (a, q) ∧ p.Grown q

namespace Below

theorem pure (a : α) : Below (Pure.pure a : Run κ σ α) (Pure.pure a) := by
  intro p b q h
  cases h
  exact ⟨rfl, Page.Grown.refl p⟩

theorem inspect {f g : Page κ σ → Run κ σ α} (h : ∀ p, Below (f p) (g p)) :
    Below (get >>= f) (get >>= g) := by
  intro p a q hf
  exact h p p a q hf

theorem modifyGet {f : Page κ σ → α × Page κ σ} (h : ∀ p, Page.Grown p (f p).2) :
    Below (modifyGet f : Run κ σ α) (modifyGet f) := by
  intro p a q hq
  have he : q = (f p).2 := (congrArg Prod.snd (Option.some.inj hq)).symm
  refine ⟨hq, ?_⟩
  rw [he]
  exact h p

theorem modify {f : Page κ σ → Page κ σ} (h : ∀ p, Page.Grown p (f p)) :
    Below (modify f : Run κ σ PUnit) (modify f) := modifyGet h

theorem bind {run other : Run κ σ α} {f g : α → Run κ σ β} (h : Below run other)
    (hf : ∀ a, Below (f a) (g a)) : Below (run >>= f) (other >>= g) := by
  intro p b q hb
  obtain ⟨a, s, ha, hs⟩ := bind_eq_some.mp hb
  obtain ⟨ha', hg⟩ := h p a s ha
  obtain ⟨hs', hg'⟩ := hf a s b q hs
  exact ⟨bind_eq_some.mpr ⟨a, s, ha', hs'⟩, hg.trans hg'⟩

theorem holding {run other : Run κ σ α} (h : Below run other) (x : Handle) :
    Below (Bindery.holding x run) (Bindery.holding x other) := by
  intro p a q ha
  obtain ⟨s, hs, rfl⟩ := holding_eq_some.mp ha
  obtain ⟨hs', hg⟩ := h _ a s hs
  exact ⟨holding_eq_some.mpr ⟨s, hs', rfl⟩, hg⟩

/-- A run that has a result below has the same result. -/
theorem eq_of_isSome {run other : Run κ σ α} (h : Below run other) {p q : Page κ σ} {a : α}
    (hs : (run p).isSome = true) (ho : other p = some (a, q)) : run p = some (a, q) := by
  obtain ⟨⟨b, s⟩, hb⟩ := Option.isSome_iff_exists.mp hs
  have hob := (h p b s hb).1
  rw [ho] at hob
  rw [hb, ← hob]

end Below

end Run

namespace Engine

/-- One engine gives what the other gives, or nothing, and models only grow. -/
structure Below (engine other : Engine κ σ) : Prop where
  publish : ∀ bus event value, (engine.publish bus event value).Below (other.publish bus event value)
  dispatch : ∀ e kind, (engine.dispatch e kind).Below (other.dispatch e kind)

variable {callbacks : Callbacks κ σ} {engine other : Engine κ σ} {bus : BusId} {barred : String → Prop}

theorem below_write (h : Below engine other) (m : ModelId) (key : String) (value : Value) :
    (engine.write m key value).Below (other.write m key value) := by
  unfold write
  apply Run.Below.inspect
  intro p
  cases p.model? m with
  | none => exact Run.Below.pure _
  | some d =>
    apply Run.Below.bind (Run.Below.modify fun p => Page.Grown.store p m key value)
    intro u
    split
    · exact (h.publish _ _ _).holding _
    · exact Run.Below.pure _

theorem below_call (h : Below engine other) {c : Call κ} (hc : c.Mild bus barred) :
    (c.run engine).Below (c.run other) := by
  cases c with
  | publish b event value => exact h.publish b event value
  | write m key value => exact below_write h m key value
  | dispatch e kind => exact h.dispatch e kind
  | subscribe b event code =>
    exact Run.Below.modifyGet fun p => Page.Grown.subscribe p b event (.callback code)
  | setAttribute e name value => exact Run.Below.modify fun _ => Page.Grown.of_models rfl
  | removeAttribute e name => exact Run.Below.modify fun _ => Page.Grown.of_models rfl
  | setProperty e name value => exact Run.Below.modify fun _ => Page.Grown.of_models rfl
  | listen e kind code => exact Run.Below.modify fun _ => Page.Grown.of_models rfl
  | _ => exact absurd hc id

theorem below_program (h : Below engine other) {program : Program κ σ α}
    (hp : program.Tame (Call.Mild bus barred)) : (program.run engine).Below (program.run other) := by
  induction program with
  | done a => exact Run.Below.pure a
  | inspect next ih => exact Run.Below.inspect fun p => ih p (hp p)
  | amend f next ih =>
    have hf : Run.Below (modify fun p => { p with host := f p.host } : Run κ σ PUnit)
        (modify fun p => { p with host := f p.host }) :=
      Run.Below.modify fun _ => Page.Grown.of_models rfl
    exact hf.bind fun _ => ih hp
  | call c next ih => exact (below_call h hp.1).bind fun a => ih a (hp.2 a)

theorem below_notify (h : Below engine other) (hc : callbacks.Tame (Call.Mild bus barred))
    (l : Listener κ) (value : Value) :
    (notify callbacks engine l value).Below (notify callbacks other l value) := by
  -- a listener of a binding writes at most an element
  have hbinding : l.isBinding = true →
      (notify callbacks engine l value).Below (notify callbacks other l value) := by
    intro hl p a q hn
    rw [notify_of_isBinding callbacks _ value hl] at hn ⊢
    cases hn
    rw [Page.receive_eq]
    exact ⟨rfl, Page.Grown.of_models rfl⟩
  cases l with
  | text e m template names changed => exact hbinding rfl
  | property e name => exact hbinding rfl
  | callback code => exact below_program h (hc.onPublish code value)

theorem below_deliver (h : Below engine other) (hc : callbacks.Tame (Call.Mild bus barred))
    (b : BusId) (event : String) (generation : Nat) (value : Value) (turns : List Nat) :
    (deliver callbacks engine b event generation value turns).Below
      (deliver callbacks other b event generation value turns) := by
  induction turns with
  | nil => exact Run.Below.pure _
  | cons i rest ih =>
    unfold deliver
    apply Run.Below.inspect
    intro p
    cases (p.bus? b).bind (·.slot? event generation i) with
    | none => exact Run.Below.pure _
    | some slot =>
      cases slot with
      | none => exact ih
      | some l =>
        apply (below_notify h hc l value).bind
        intro outcome
        cases outcome with
        | ok u => exact ih
        | error failure => exact Run.Below.pure _

theorem below_publishWith (h : Below engine other) (hc : callbacks.Tame (Call.Mild bus barred))
    (b : BusId) (event : String) (value : Value) :
    (publishWith callbacks engine b event value).Below
      (publishWith callbacks other b event value) := by
  have hmodify : ∀ f, Run.Below (modify (Page.modifyBus b f) : Run κ σ PUnit)
      (modify (Page.modifyBus b f)) :=
    fun f => Run.Below.modify fun _ => Page.Grown.of_models rfl
  unfold publishWith
  apply Run.Below.inspect
  intro p
  cases p.bus? b with
  | none => exact Run.Below.pure _
  | some r =>
    dsimp only
    cases r.enter event with
    | error failure => exact Run.Below.pure _
    | ok entered =>
      cases entered with
      | none => exact Run.Below.pure _
      | some x =>
        apply (hmodify _).bind
        intro u
        apply (below_deliver h hc b event _ value _).bind
        intro outcome
        exact (hmodify _).bind fun _ => Run.Below.pure _

theorem below_handleAll (h : Below engine other) (hc : callbacks.Tame (Call.Mild bus barred))
    (e : ElementId) (handlers : List (Handler κ)) :
    (handleAll callbacks engine e handlers).Below (handleAll callbacks other e handlers) := by
  have hone : ∀ handler, (handle callbacks engine e handler).Below
      (handle callbacks other e handler) := by
    intro handler
    cases handler with
    | writeBack m property key control =>
      refine Run.Below.inspect fun p => ?_
      split
      · exact below_write h m.target key _
      · exact Run.Below.pure _
    | callback code => exact below_program h (hc.onEvent code e)
  induction handlers with
  | nil => exact Run.Below.pure _
  | cons handler rest ih =>
    unfold handleAll
    apply (hone handler).bind
    intro outcome
    cases outcome with
    | ok u => exact ih
    | error failure => exact Run.Below.pure _

/-- The strict engine publishes on a plain page, and without a failure. -/
theorem strict_publish_eq_some {frames : Nat} {event : String} {value : Value} {p q : Page κ σ}
    {a : Outcome} (h : (strict callbacks (frames + 1)).publish bus event value p = some (a, q)) :
    a = .ok () ∧ p.isPlain = true ∧
      publishWith callbacks (strict callbacks frames) bus event value p = some (.ok (), q) := by
  change (if p.isPlain then (publishWith callbacks (strict callbacks frames) bus event
    value).faultless p else none) = _ at h
  split at h
  · rename_i hplain
    obtain ⟨hok, hrun⟩ := Run.faultless_eq_some.mp h
    exact ⟨hok, hplain, hrun⟩
  · cases h

/-- The strict engine gives what the engine gives, or nothing. -/
theorem strict_below (hc : callbacks.Tame (Call.Mild bus barred)) (frames : Nat) :
    Below (strict callbacks frames) (ofFrames callbacks frames) := by
  induction frames with
  | zero => exact ⟨fun _ _ _ _ _ _ h => (nomatch h), fun _ _ _ _ _ h => (nomatch h)⟩
  | succ frames ih =>
    refine ⟨fun b event value p a q h => ?_, fun e kind => ?_⟩
    · obtain ⟨rfl, -, hrun⟩ := strict_publish_eq_some h
      exact below_publishWith ih hc b event value p _ q hrun
    · apply Run.Below.holding
      exact Run.Below.inspect fun p => below_handleAll ih hc e _

/-! ## Binding -/

theorem below_bindSlots (h : Below engine other) (b : BusId) (m : ModelId) (e : ElementId)
    (template : String) (all names : List String) :
    (engine.bindSlots b m e template all names).Below (other.bindSlots b m e template all names) := by
  induction names with
  | nil => exact Run.Below.pure _
  | cons name rest ih =>
    unfold bindSlots
    apply Run.Below.inspect
    intro p
    split
    · apply (Run.Below.modify fun p => Page.Grown.subscribe p b _ _).bind
      intro u
      apply (h.publish _ _ _).bind
      intro outcome
      cases outcome with
      | ok u => exact ih.bind fun _ => Run.Below.pure _
      | error failure => exact Run.Below.pure _
    · exact ih

theorem below_bindText (h : Below engine other) (b : BusId) (m : ModelId) (e : ElementId) :
    (engine.bindText b m e).Below (other.bindText b m e) := by
  unfold bindText
  apply Run.Below.inspect
  intro p
  cases p.textOf? e with
  | none => exact Run.Below.pure _
  | some template =>
    dsimp only
    cases Template.names? template with
    | none => exact Run.Below.pure _
    | some names =>
      apply (below_bindSlots h b m e template names names).bind
      intro bound
      exact Run.Below.pure _

end Engine

end Bindery
