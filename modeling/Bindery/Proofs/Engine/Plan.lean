import Bindery.Proofs.Engine.Within

/-!
# Plans

A plan is a routine in which a write is one part.  The routine of a write stores a value and
publishes it like anybody else; in a plan it can still be told which values were written to a model,
and which events were published because of it.

* `Plan`                                 what is left to do, part by part
* `Routine.plan`, `Program.plan`         a routine as a plan, and a program with its writes left whole
* `Program.run_plan`, `Listener.run_plan`, `Handler.run_plan`
                                         plans do what programs, listeners and handlers do
* `Plan.Within`                          all changes that a plan makes itself are of a kind
-/

namespace Bindery

inductive Plan (κ σ α : Type) where
  | done (a : α)
  | look (next : Page κ σ → Plan κ σ α)
  | change (f : Page κ σ → Page κ σ) (next : Plan κ σ α)
  | publish (bus : BusId) (event : String) (value : Value) (next : Outcome → Plan κ σ α)
  | dispatch (e : ElementId) (kind : EventKind) (next : Outcome → Plan κ σ α)
  | write (m : ModelId) (key : String) (value : Value) (next : Outcome → Plan κ σ α)

variable {κ σ α β : Type}

namespace Plan

def bind : Plan κ σ α → (α → Plan κ σ β) → Plan κ σ β
  | done a, f => f a
  | look next, f => look fun p => (next p).bind f
  | change g next, f => change g (next.bind f)
  | publish bus event value next, f => publish bus event value fun a => (next a).bind f
  | dispatch e kind next, f => dispatch e kind fun a => (next a).bind f
  | write m key value next, f => write m key value fun a => (next a).bind f

def run (engine : Engine κ σ) : Plan κ σ α → Run κ σ α
  | done a => return a
  | look next => do (next (← get)).run engine
  | change f next => do
    modify f
    next.run engine
  | publish bus event value next => do (next (← engine.publish bus event value)).run engine
  | dispatch e kind next => do (next (← engine.dispatch e kind)).run engine
  | write m key value next => do (next (← engine.write m key value)).run engine

theorem run_bind (engine : Engine κ σ) (plan : Plan κ σ α) (f : α → Plan κ σ β) :
    (plan.bind f).run engine = plan.run engine >>= fun a => (f a).run engine := by
  induction plan with
  | done a => simp [bind, run]
  | look next ih => simp [bind, run, ih]
  | change g next ih => simp [bind, run, ih]
  | publish bus event value next ih => simp [bind, run, ih]
  | dispatch e kind next ih => simp [bind, run, ih]
  | write m key value next ih => simp [bind, run, ih]

end Plan

/-! ## Plans of routines, programs and of what is called -/

def Routine.plan : Routine κ σ α → Plan κ σ α
  | done a => .done a
  | look next => .look fun p => (next p).plan
  | change f next => .change f next.plan
  | publish bus event value next => .publish bus event value fun a => (next a).plan
  | dispatch e kind next => .dispatch e kind fun a => (next a).plan

def Call.plan : (c : Call κ) → Plan κ σ c.Answer
  | write m key value => .write m key value .done
  | c => c.routine.plan

def Program.plan : Program κ σ α → Plan κ σ α
  | done a => .done a
  | inspect next => .look fun p => (next p).plan
  | amend f next => .change (fun p => { p with host := f p.host }) next.plan
  | call c next => c.plan.bind fun a => (next a).plan

def Listener.plan (callbacks : Callbacks κ σ) (value : Value) : Listener κ → Plan κ σ Outcome
  | callback code => (callbacks.onPublish code value).plan
  | l => (l.routine callbacks value).plan

def Handler.plan (callbacks : Callbacks κ σ) (e : ElementId) : Handler κ → Plan κ σ Outcome
  | writeBack m property key control =>
    .look fun p =>
      if p.finds m then .write m.target key (control.coerce (p.property e property)) .done
      else .done (.ok ())
  | callback code => (callbacks.onEvent code e).plan

section
variable (engine : Engine κ σ) (callbacks : Callbacks κ σ)

theorem Routine.run_plan (routine : Routine κ σ α) : routine.plan.run engine = routine.run engine := by
  induction routine with
  | done a => rfl
  | look next ih => simp [plan, Plan.run, run, ih]
  | change f next ih => simp [plan, Plan.run, run, ih]
  | publish bus event value next ih => simp [plan, Plan.run, run, ih]
  | dispatch e kind next ih => simp [plan, Plan.run, run, ih]

theorem Call.run_plan (c : Call κ) : (c.plan : Plan κ σ _).run engine = c.run engine := by
  cases c with
  | write m key value =>
    show (engine.write m key value >>= fun a => pure a) = engine.write m key value
    rw [bind_pure]
  | _ => exact (Routine.run_plan engine _).trans (Call.run_routine engine _)

theorem Program.run_plan (program : Program κ σ α) : program.plan.run engine = program.run engine := by
  induction program with
  | done a => rfl
  | inspect next ih => simp [plan, Plan.run, run, ih]
  | amend f next ih => simp [plan, Plan.run, run, ih]
  | call c next ih =>
    have h := Plan.run_bind engine (c.plan (σ := σ)) fun a => (next a).plan
    simp only [ih, c.run_plan] at h
    exact h

theorem Listener.run_plan (value : Value) (l : Listener κ) :
    (l.plan callbacks value).run engine = Engine.notify callbacks engine l value := by
  cases l with
  | callback code => exact Program.run_plan engine _
  | _ => exact (Routine.run_plan engine _).trans (Engine.notify_eq callbacks engine _ value).symm

theorem Handler.run_plan (e : ElementId) (handler : Handler κ) :
    (handler.plan callbacks e).run engine = Engine.handle callbacks engine e handler := by
  cases handler with
  | callback code => exact Program.run_plan engine _
  | writeBack m property key control =>
    unfold Engine.handle
    refine congrArg (get >>= ·) (funext fun p => ?_)
    dsimp only
    split
    · exact bind_pure _
    · rfl

end

/-! ## What a plan keeps to -/

/-- All changes that the plan makes itself, apart from its writes, are related by `R`. -/
def Plan.Within (R : Page κ σ → Page κ σ → Prop) : Plan κ σ α → Prop
  | .done _ => True
  | .look next => ∀ p, (next p).Within R
  | .change f next => (∀ p, R p (f p)) ∧ next.Within R
  | .publish _ _ _ next => ∀ a, (next a).Within R
  | .dispatch _ _ next => ∀ a, (next a).Within R
  | .write _ _ _ next => ∀ a, (next a).Within R

section
variable {R : Page κ σ → Page κ σ → Prop}

theorem Plan.Within.bind {plan : Plan κ σ α} {f : α → Plan κ σ β} (h : plan.Within R)
    (hf : ∀ a, (f a).Within R) : (plan.bind f).Within R := by
  induction plan with
  | done a => exact hf a
  | look next ih => exact fun p => ih p (h p)
  | change g next ih => exact ⟨h.1, ih h.2⟩
  | publish bus event value next ih => exact fun a => ih a (h a)
  | dispatch e kind next ih => exact fun a => ih a (h a)
  | write m key value next ih => exact fun a => ih a (h a)

theorem Routine.Within.plan {fires : Prop} {routine : Routine κ σ α} (h : routine.Within R fires) :
    routine.plan.Within R := by
  induction routine with
  | done a => trivial
  | look next ih => exact fun p => ih p (h p)
  | change f next ih => exact ⟨h.1, ih h.2⟩
  | publish bus event value next ih => exact fun a => ih a (h a)
  | dispatch e kind next ih => exact fun a => ih a (h.2 a)

theorem Program.within_plan (hhost : ∀ p (f : σ → σ), R p { p with host := f p.host })
    (hcall : ∀ c : Call κ, (c.plan : Plan κ σ _).Within R) (program : Program κ σ α) :
    program.plan.Within R := by
  induction program with
  | done a => trivial
  | inspect next ih => exact ih
  | amend f next ih => exact ⟨fun p => hhost p f, ih⟩
  | call c next ih => exact (hcall c).bind ih

end

end Bindery
