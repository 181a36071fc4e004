import Mathlib.Logic.Relation
import Bindery.Proofs.Engine.Careful
import Bindery.Proofs.View.Life

/-!
# Discarded elements

A program writes, binds, fires events and populates views, and in between it takes hold of things and
lets go of them.  At each moment of such a run, also in the middle of a call, an element is alive if it
can be reached from what is held then, by the program or by the calls under way.  A listener would keep
alive what it captured strongly, but binding makes none that does.  An element that is dead stays dead,
and those of its listeners that are left do nothing.

* `Page.Moves`              what a program does between its calls
* `Moment.Follows`          the next moment of a run
* `Moment.sound_of_follows` each moment is careful, on a neat page, and revives nothing
* `listeners_keep_nothing_alive`   what is alive, and what becomes of the rest
-/

namespace Bindery

variable {κ σ : Type}

namespace Page

variable {p q : Page κ σ}

/-- Between its calls a program takes hold of what is alive, and makes new things that it holds from the
start. -/
inductive Moves : Page κ σ → Page κ σ → Prop where
  | hold {p : Page κ σ} {x : Handle} : p.isAlive x = true → Moves p (p.hold x)
  | openBus (p : Page κ σ) (maxDepth : Nat) : Moves p (p.addBus maxDepth).2
  | create (p : Page κ σ) (tag : String) :
      Moves p ((p.createElement tag).2.hold (.element (p.createElement tag).1))
  | observe (p : Page κ σ) (bus : BusId) (name : String) (values : Record) :
      Moves p ((p.addModel bus name values).2.hold (.model (p.addModel bus name values).1))
  | openView {p : Page κ σ} {request : ViewRequest} {plan : ViewPlan} (bus : BusId) :
      request.settle p = .ok plan → p.elementAlive plan.container = true →
      (∃ d, p.element? plan.container = some d) →
      Moves p ((p.openPlan bus plan).2.hold (.view (p.openPlan bus plan).1))

theorem Moves.harmless (h : p.Moves q) : p.Harmless q := by
  cases h with
  | @hold x ha =>
    refine .hold p (fun e he => ?_) fun v hv => ?_
    · subst he
      exact ha
    · subst hv
      exact isHeld_iff.mp ha
  | openBus maxDepth => exact .addBus p maxDepth
  | create tag => exact .create p tag
  | observe bus name values => exact .observe p bus name values
  | @openView request plan bus _ ha hd =>
    have hsame : SameLives p (p.addModel bus plan.model plan.values).2 := ⟨rfl, rfl, rfl, fun _ => rfl⟩
    have hadd : p.Harmless (p.addModel bus plan.model plan.values).2 :=
      .of_shrinks hsame.shrinks fun hp => hp.of_sameBuses rfl rfl rfl
    exact hadd.trans (.addView _ ((hsame.elementAlive _).trans ha) hd ⟨rfl, rfl⟩)

end Page

open Page

/-! ## Runs -/

def Call.alone (c : Call κ) : Program κ σ Outcome := .call c fun _ => .done (.ok ())

namespace Moment

variable {callbacks : Callbacks κ σ} {S T : Moment κ σ}

/-- A run goes on: a step of what is under way, or, when nothing is, a call or a move of the program. -/
inductive Follows (callbacks : Callbacks κ σ) : Moment κ σ → Moment κ σ → Prop where
  | step (S : Moment κ σ) : Follows callbacks S (S.step callbacks).2
  | call {p : Page κ σ} {outcome : Outcome} {c : Call κ} : c.Living p →
      Follows callbacks ⟨p, .plan (.done outcome), []⟩ (start c.alone p)
  | move {p q : Page κ σ} {outcome : Outcome} : p.Moves q →
      Follows callbacks ⟨p, .plan (.done outcome), []⟩ ⟨q, .plan (.done outcome), []⟩

def Comes (callbacks : Callbacks κ σ) : Moment κ σ → Moment κ σ → Prop :=
  Relation.ReflTransGen (Follows callbacks)

theorem comes_after (S : Moment κ σ) (k : Nat) : Comes callbacks S (S.after callbacks k) := by
  induction k generalizing S with
  | zero => exact .refl
  | succ k ih => exact .head (.step S) (ih (S.step callbacks).2)

theorem comes_of_run {p q : Page κ σ} {outcome : Outcome} {c : Call κ} {answer : c.Answer} {frames : Nat}
    (hc : c.Living p) (h : c.run (Engine.ofFrames callbacks frames) p = some (answer, q)) :
    Comes callbacks ⟨p, .plan (.done outcome), []⟩ ⟨q, .plan (.done (.ok ())), []⟩ := by
  have hrun : c.alone.run (Engine.ofFrames callbacks frames) p = some (.ok (), q) := Run.bind_of_eq h _
  obtain ⟨k, hk⟩ := after_of_run hrun
  have hsteps : Comes callbacks (start c.alone p) _ := comes_after (start c.alone p) k
  rw [hk] at hsteps
  exact .head (.call hc) hsteps

/-- All that is left to be done does no harm, on a page that is neat. -/
structure Sound (S : Moment κ σ) : Prop where
  neat : S.page.Neat
  careful : S.Careful

theorem sound_idle {p : Page κ σ} (hp : p.Neat) (outcome : Outcome) :
    (⟨p, .plan (.done outcome), []⟩ : Moment κ σ).Sound :=
  ⟨hp, fun _ => True, trivial, .nil⟩

theorem sound_of_follows (hS : S.Sound) (h : Follows callbacks S T) :
    S.page.Ended T.page ∧ T.Sound := by
  cases h with
  | step =>
    obtain ⟨hpage, hcareful⟩ := careful_step callbacks hS.neat hS.careful
    obtain ⟨hended, hneat⟩ := hpage hS.neat
    exact ⟨hended, hneat, hcareful⟩
  | @call p outcome c hc =>
    have hplan : (c.alone : Program κ σ Outcome).plan.Careful (fun _ _ => True) p :=
      (Call.careful hc).bind fun _ _ _ => trivial
    exact ⟨.refl p, hS.neat, fun _ => True, hplan, .nil⟩
  | @move p q outcome hmove =>
    obtain ⟨hended, hneat⟩ := hmove.harmless hS.neat
    exact ⟨hended, sound_idle hneat outcome⟩

/-- What is alive later was alive before, if it was there. -/
theorem sound_of_comes (hS : S.Sound) (h : Comes callbacks S T) : S.page.Ended T.page ∧ T.Sound := by
  induction h with
  | refl => exact ⟨.refl _, hS⟩
  | tail _ hnext ih =>
    obtain ⟨hended, hT⟩ := ih
    obtain ⟨hended', hU⟩ := sound_of_follows hT hnext
    exact ⟨hended.trans hended', hU⟩

end Moment

/-! ## What is alive -/

theorem Engine.notify_of_dead (callbacks : Callbacks κ σ) (engine : Engine κ σ) {l : Listener κ}
    {e : ElementId} (hl : l.element? = some e) {p : Page κ σ} (hdead : p.elementAlive e = false)
    (value : Value) : notify callbacks engine l value p = some (.ok (), p) := by
  have hsame : p.receive value l = p := by
    cases l with
    | callback code => cases hl
    | text c m template names changed =>
      cases hl
      rw [receive_text, hdead, Bool.false_and, if_neg Bool.false_ne_true]
    | property c name =>
      cases hl
      rw [receive_property, hdead, if_neg Bool.false_ne_true]
  rw [notify_of_isBinding callbacks engine value (Listener.isBinding_of_element? hl), hsame]

/-- At each moment of a run no listener holds anything.  An element or a model is alive if it can be
reached from what is held, and the listeners, or some of them, might as well be missing.  An element that
was there and is dead stays dead, and its listeners return at once and change nothing. -/
theorem listeners_keep_nothing_alive {callbacks : Callbacks κ σ} {p : Page κ σ} {outcome : Outcome}
    {S T : Moment κ σ} (hp : p.Neat) (hS : Moment.Comes callbacks ⟨p, .plan (.done outcome), []⟩ S)
    (hT : Moment.Comes callbacks S T) :
    (∀ l ∈ T.page.listeners, l.keeps = []) ∧
      (∀ e, T.page.elementAlive e = true ↔ T.page.Reachable e) ∧
      (∀ m, T.page.modelAlive m = true ↔ T.page.ModelReachable m) ∧
      (∀ buses : Array (Registry (Listener κ)),
        (∀ l ∈ { T.page with buses }.listeners, l ∈ T.page.listeners) →
        (∀ e, { T.page with buses }.elementAlive e = T.page.elementAlive e) ∧
        ∀ m, { T.page with buses }.modelAlive m = T.page.modelAlive m) ∧
      ∀ e d, S.page.element? e = some d → S.page.elementAlive e = false →
        T.page.elementAlive e = false ∧ ∀ l : Listener κ, l.element? = some e → ∀ engine value,
          Engine.notify callbacks engine l value T.page = some (.ok (), T.page) := by
  obtain ⟨-, hsound⟩ := Moment.sound_of_comes (Moment.sound_idle hp outcome) hS
  obtain ⟨hended, hneat, -⟩ := Moment.sound_of_comes hsound hT
  refine ⟨hneat.uncaptured, fun e => elementAlive_iff_reachable hneat.acyclic hneat.uncaptured,
    fun m => modelAlive_iff_reachable hneat.acyclic hneat.uncaptured hneat.handlers,
    fun buses hfewer => ?_, fun e d hd hdead => ?_⟩
  · have hnone : { T.page with buses }.Uncaptured := fun l hl => hneat.uncaptured l (hfewer l hl)
    have hsame : SameLives T.page { T.page with buses } :=
      ⟨rfl, rfl, rfl, fun h => (hnone.captures h).trans (hneat.uncaptured.captures h).symm⟩
    exact ⟨hsame.elementAlive, hsame.modelAlive⟩
  · have hstill : T.page.elementAlive e = false := by
      rw [Bool.eq_false_iff]
      intro halive
      rw [hended.alive hd halive] at hdead
      cases hdead
    exact ⟨hstill, fun l hl engine value => Engine.notify_of_dead callbacks engine hl hstill value⟩

/-! ## A child that is replaced -/

def leafPage : Page Unit Unit where
  buses := #[{ maxDepth := 1 }]
  models := #[letterModel]
  elements := #[{ tag := "div" }]
  held := [.element ⟨0⟩, .model ⟨0⟩]
  host := ()

theorem neat_leafPage : leafPage.Neat := by
  have hdiv : ∀ {e d}, leafPage.element? e = some d → d.children = [] ∧ d.handlers = [] := by
    intro e d hd
    obtain ⟨i⟩ := e
    match i with
    | 0 =>
      cases hd
      exact ⟨rfl, rfl⟩
    | i + 1 => cases hd
  refine ⟨fun e hi => ?_, fun hview => (nomatch hview), fun l hl => absurd hl List.not_mem_nil,
    fun hd x hx => ?_⟩
  · have hnone : ∀ {d c}, leafPage.element? e = some d → Child.element c ∉ d.children := by
      intro d c hd hc
      rw [(hdiv hd).1] at hc
      cases hc
    cases hi with
    | child hd hc => exact hnone hd hc
    | deeper hd hc _ => exact hnone hd hc
  · rw [(hdiv hd).2] at hx
    cases hx

def afterCall (c : Call Unit) (p : Page Unit Unit) : Option (Page Unit Unit) :=
  (c.run (Engine.ofFrames idleCode 2) p).map Prod.snd

theorem comes_of_afterCall {c : Call Unit} {p q : Page Unit Unit} (h : afterCall c p = some q)
    (hc : c.Living p) :
    Moment.Comes idleCode ⟨p, .plan (.done (.ok ())), []⟩ ⟨q, .plan (.done (.ok ())), []⟩ := by
  obtain ⟨⟨answer, q'⟩, hrun, rfl⟩ := Option.map_eq_some_iff.mp h
  exact Moment.comes_of_run hc hrun

def leafListeners (p : Page Unit Unit) : Option (List (Option ElementId)) :=
  (p.bus? ⟨0⟩).map fun r => (r.heard "m.k:change").map Listener.element?

/-- The child is bound, and then the container: its text is shown in one piece, and the child is gone.
It stays dead when the model is written later, although its listener is still there. -/
theorem replaced_child_stays_dead :
    ∃ S T : Moment Unit Unit, leafPage.Neat ∧
      Moment.Comes idleCode ⟨leafPage, .plan (.done (.ok ())), []⟩ S ∧ Moment.Comes idleCode S T ∧
      (∃ d, S.page.element? ⟨1⟩ = some d) ∧ S.page.elementAlive ⟨1⟩ = false ∧
      leafListeners T.page = some [some ⟨1⟩, some ⟨0⟩] ∧ (∀ l ∈ T.page.listeners, l.keeps = []) ∧
      T.page.elementAlive ⟨1⟩ = false ∧ T.page.Reachable ⟨0⟩ ∧ T.page.ModelReachable ⟨0⟩ ∧
      ∀ l : Listener Unit, l.element? = some ⟨1⟩ → ∀ engine value,
        Engine.notify idleCode engine l value T.page = some (.ok (), T.page) := by
  have hrun : ((afterCall (.setMarkup ⟨0⟩ "${k}<p>${k}</p>") leafPage).bind fun p =>
      (afterCall (.bind ⟨0⟩ ⟨0⟩ ⟨1⟩) p).bind fun q => (afterCall (.bind ⟨0⟩ ⟨0⟩ ⟨0⟩) q).bind fun s =>
        (afterCall (.write ⟨0⟩ "k" (.text "b")) s).map fun t =>
          ((p.elementAlive ⟨1⟩, q.elementAlive ⟨0⟩, (s.element? ⟨1⟩).isSome, s.elementAlive ⟨1⟩),
            leafListeners t, t.elementAlive ⟨0⟩, t.modelAlive ⟨0⟩))
      = some ((true, true, true, false), some [some ⟨1⟩, some ⟨0⟩], true, true) := by
    decide +kernel
  obtain ⟨p, hp, hrun⟩ := Option.bind_eq_some_iff.mp hrun
  obtain ⟨q, hq, hrun⟩ := Option.bind_eq_some_iff.mp hrun
  obtain ⟨s, hs, hrun⟩ := Option.bind_eq_some_iff.mp hrun
  obtain ⟨t, ht, hrun⟩ := Option.map_eq_some_iff.mp hrun
  obtain ⟨⟨hchild, hbox, hthere, hdead⟩, hlisteners, hdiv, hmodel⟩ :
      (_ ∧ _ ∧ _ ∧ _) ∧ _ ∧ _ ∧ _ := by simpa only [Prod.mk.injEq] using hrun
  have hS : Moment.Comes idleCode ⟨leafPage, .plan (.done (.ok ())), []⟩ ⟨s, .plan (.done (.ok ())), []⟩ :=
    ((comes_of_afterCall hp trivial).trans (comes_of_afterCall hq hchild)).trans
      (comes_of_afterCall hs hbox)
  have hT := comes_of_afterCall ht trivial
  obtain ⟨d, hd⟩ := Option.isSome_iff_exists.mp hthere
  obtain ⟨hloose, hreach, hmodels, -, hstays⟩ := listeners_keep_nothing_alive neat_leafPage hS hT
  obtain ⟨hstill, hlisten⟩ := hstays ⟨1⟩ d hd hdead
  exact ⟨_, _, neat_leafPage, hS, hT, ⟨d, hd⟩, hdead, hlisteners, hloose, hstill, (hreach ⟨0⟩).mp hdiv,
    (hmodels ⟨0⟩).mp hmodel, hlisten⟩

end Bindery
