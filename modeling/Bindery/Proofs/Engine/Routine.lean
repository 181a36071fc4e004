import Bindery.Proofs.Engine.Quiet

/-!
# Routines

What an operation does with an engine, part by part: it looks at the page, changes it, publishes an
event or fires one.  Every operation that is given an engine has a routine, and carrying out the
routine with an engine is what the operation does with it.

* `Routine`                                       one operation as data
* `Program.routine`, `Listener.routine`, `Handler.routine`
                                                  the routines of programs and of what is called
* `Program.run_routine`, `notify_eq`, `handle_eq` they do what is done
-/

namespace Bindery

inductive Routine (κ σ α : Type) where
  | done (a : α)
  | look (next : Page κ σ → Routine κ σ α)
  | change (f : Page κ σ → Page κ σ) (next : Routine κ σ α)
  | publish (bus : BusId) (event : String) (value : Value) (next : Outcome → Routine κ σ α)
  | dispatch (e : ElementId) (kind : EventKind) (next : Outcome → Routine κ σ α)

variable {κ σ α β : Type}

namespace Routine

def bind : Routine κ σ α → (α → Routine κ σ β) → Routine κ σ β
  | done a, f => f a
  | look next, f => look fun p => (next p).bind f
  | change g next, f => change g (next.bind f)
  | publish bus event value next, f => publish bus event value fun a => (next a).bind f
  | dispatch e kind next, f => dispatch e kind fun a => (next a).bind f

instance : Monad (Routine κ σ) where
  pure := done
  bind := bind

def run (engine : Engine κ σ) : Routine κ σ α → Run κ σ α
  | done a => return a
  | look next => do (next (← get)).run engine
  | change f next => do
    modify f
    next.run engine
  | publish bus event value next => do (next (← engine.publish bus event value)).run engine
  | dispatch e kind next => do (next (← engine.dispatch e kind)).run engine

/-! ## Parts -/

def page : Routine κ σ (Page κ σ) := look done

def amend (f : Page κ σ → Page κ σ) : Routine κ σ Unit := change f (done ())

/-- Changes the page and answers something about it. -/
def amendGet (f : Page κ σ → α × Page κ σ) : Routine κ σ α :=
  look fun p => change (fun q => (f q).2) (done (f p).1)

def announce (bus : BusId) (event : String) (value : Value) : Routine κ σ Outcome :=
  publish bus event value done

def fire (e : ElementId) (kind : EventKind) : Routine κ σ Outcome := dispatch e kind done

def holding (h : Handle) (routine : Routine κ σ α) : Routine κ σ α := do
  amend (Page.hold h)
  let a ← routine
  amend (Page.release h)
  return a

variable (engine : Engine κ σ)

@[simp] theorem run_bind (routine : Routine κ σ α) (f : α → Routine κ σ β) :
    (routine >>= f).run engine = routine.run engine >>= fun a => (f a).run engine := by
  show (routine.bind f).run engine = _
  induction routine with
  | done a => simp [bind, run]
  | look next ih => simp [bind, run, ih]
  | change g next ih => simp [bind, run, ih]
  | publish bus event value next ih => simp [bind, run, ih]
  | dispatch e kind next ih => simp [bind, run, ih]

@[simp] theorem run_pure (a : α) : (pure a : Routine κ σ α).run engine = pure a := rfl

@[simp] theorem run_page : (page : Routine κ σ (Page κ σ)).run engine = get := rfl

@[simp] theorem run_amend (f : Page κ σ → Page κ σ) : (amend f).run engine = modify f := rfl

@[simp] theorem run_amendGet (f : Page κ σ → α × Page κ σ) :
    (amendGet f).run engine = modifyGet f := rfl

@[simp] theorem run_announce (bus : BusId) (event : String) (value : Value) :
    (announce bus event value).run engine = engine.publish bus event value := by
  simp [announce, run]

@[simp] theorem run_fire (e : ElementId) (kind : EventKind) :
    (fire e kind).run engine = engine.dispatch e kind := by
  simp [fire, run]

@[simp] theorem run_holding (h : Handle) (routine : Routine κ σ α) :
    (holding h routine).run engine = Bindery.holding h (routine.run engine) := by
  simp [holding, Bindery.holding]

/-! ## Writing and binding -/

def write (m : ModelId) (key : String) (value : Value) : Routine κ σ Outcome := do
  match (← page).model? m with
  | none => return .ok ()
  | some model =>
    amend (Page.store m key value)
    if key ∈ model.observed then holding (.model m) (announce model.bus (model.event key) value)
    else return .ok ()

def bindSlots (bus : BusId) (m : ModelId) (e : ElementId) (template : String)
    (names : List String) : List String → Routine κ σ (Except BusError Bool)
  | [] => return .ok false
  | name :: r => do
    let p ← page
    if p.hasKey m name then
      let event := p.eventOf m name
      amend fun p => (p.subscribe bus event (.text (.weak e) (.weak m) template names name)).2
      match ← announce bus event (p.valueOf m name) with
      | .error failure => return .error failure
      | .ok () =>
        let rest ← bindSlots bus m e template names r
        return rest.map fun _ => true
    else bindSlots bus m e template names r

def bindText (bus : BusId) (m : ModelId) (e : ElementId) :
    Routine κ σ (Except BusError (Option Target)) := do
  match (← page).textOf? e with
  | none => return .ok none
  | some template =>
    match Template.names? template with
    | none => return .ok none
    | some names =>
      let isBound ← bindSlots bus m e template names names
      return isBound.map fun b => if b then some ⟨e, .text, template, names⟩ else none

def bindElement (bus : BusId) (m : ModelId) (e : ElementId) :
    Routine κ σ (Except BusError (List Target)) :=
  holding (.element e) <| holding (.model m) do
    match ← bindText bus m e with
    | .error failure => return .error failure
    | .ok text =>
      let targets ← amendGet fun p => p.bindAttributes bus m e (p.attributesOf e).entries
      return .ok (text.toList ++ targets)

theorem run_write (m : ModelId) (key : String) (value : Value) :
    (write m key value).run engine = engine.write m key value := by
  unfold write Engine.write
  simp only [run_bind, run_page]
  congr 1
  funext p
  cases p.model? m with
  | none => rfl
  | some model =>
    simp only [run_bind, run_amend]
    split
    · simp
    · rfl

theorem run_bindSlots (bus : BusId) (m : ModelId) (e : ElementId) (template : String)
    (all names : List String) :
    (bindSlots bus m e template all names).run engine
      = engine.bindSlots bus m e template all names := by
  induction names with
  | nil => rfl
  | cons name rest ih =>
    unfold bindSlots Engine.bindSlots
    simp only [run_bind, run_page]
    congr 1
    funext p
    split
    · simp only [run_bind, run_amend, run_announce]
      congr 1
      funext u
      congr 1
      funext outcome
      cases outcome with
      | error failure => rfl
      | ok u =>
        simp only [run_bind, ih]
        rfl
    · exact ih

theorem run_bindText (bus : BusId) (m : ModelId) (e : ElementId) :
    (bindText bus m e).run engine = engine.bindText bus m e := by
  unfold bindText Engine.bindText
  simp only [run_bind, run_page]
  congr 1
  funext p
  cases p.textOf? e with
  | none => rfl
  | some template =>
    dsimp only
    cases Template.names? template with
    | none => rfl
    | some names =>
      simp only [run_bind, run_bindSlots]
      rfl

theorem run_bindElement (bus : BusId) (m : ModelId) (e : ElementId) :
    (bindElement bus m e).run engine = engine.bindElement bus m e := by
  unfold bindElement Engine.bindElement
  simp only [run_holding, run_bind, run_bindText]
  congr 2
  congr 1
  funext text
  cases text with
  | error failure => rfl
  | ok text => rfl

/-! ## Views -/

def enterState (v : ViewId) (state : ViewState) : Routine κ σ Unit :=
  amend (Page.modifyView v fun view => { view with state })

def bindChildren (v : ViewId) (bus : BusId) (m : ModelId) : List ElementId → Routine κ σ Outcome
  | [] => return .ok ()
  | e :: r => do
    match ← bindElement bus m e with
    | .error failure => return .error failure
    | .ok targets =>
      amend (Page.modifyView v fun view => { view with targets := view.targets ++ targets })
      bindChildren v bus m r

def fillContainer (v : ViewId) (view : View) (markup : String) :
    Routine κ σ (Except ViewError Unit) := do
  amend (Page.setMarkup view.container markup)
  let children := (← page).childElements view.container
  amend (Page.modifyView v fun view => { view with children, state := .populated })
  match ← bindChildren v view.bus view.model children with
  | .ok () =>
    enterState v .bound
    return .ok ()
  | .error failure =>
    enterState v .errored
    return .error (.bus failure)

def populate (v : ViewId) (markup : String) : Routine κ σ (Except ViewError Unit) := do
  match (← page).view? v with
  | none => return .ok ()
  | some view =>
    match Engine.allowed "populate" [.uninitialized, .fetching] view with
    | .error failure => return .error failure
    | .ok () => holding (.view v) (fillContainer v view markup)

def load (v : ViewId) (shelf : Option ShelfId) : Routine κ σ (Except ViewError Loaded) := do
  match (← page).view? v with
  | none => return .ok .bound
  | some view =>
    match Engine.allowed "load" [.uninitialized] view with
    | .error failure => return .error failure
    | .ok () =>
      enterState v .fetching
      let answer ← amendGet fun p =>
        match shelf with
        | some s => p.request s view.path
        | none => (none, p)
      match answer with
      | none => return .ok .pending
      | some (.error failure) =>
        enterState v .errored
        return .error (.fetch failure)
      | some (.ok markup) => return (← populate v markup).map fun _ => .bound

theorem run_enterState (v : ViewId) (state : ViewState) :
    (enterState v state : Routine κ σ Unit).run engine = Engine.enterState v state := rfl

theorem run_bindChildren (v : ViewId) (bus : BusId) (m : ModelId) (es : List ElementId) :
    (bindChildren v bus m es).run engine = engine.bindChildren v bus m es := by
  induction es with
  | nil => rfl
  | cons e rest ih =>
    unfold bindChildren Engine.bindChildren
    simp only [run_bind, run_bindElement]
    congr 1
    funext outcome
    cases outcome with
    | error failure => rfl
    | ok targets =>
      simp only [run_bind, run_amend, ih]

theorem run_fillContainer (v : ViewId) (view : View) (markup : String) :
    (fillContainer v view markup).run engine = engine.fillContainer v view markup := by
  unfold fillContainer Engine.fillContainer
  simp only [run_bind, run_amend, run_page, run_bindChildren]
  congr 1
  funext u
  congr 1
  funext p
  congr 1
  funext u
  congr 1
  funext outcome
  cases outcome with
  | error failure => rfl
  | ok u => rfl

theorem run_populate (v : ViewId) (markup : String) :
    (populate v markup).run engine = engine.populate v markup := by
  unfold populate Engine.populate
  simp only [run_bind, run_page]
  congr 1
  funext p
  cases p.view? v with
  | none => rfl
  | some view =>
    dsimp only
    cases Engine.allowed "populate" [.uninitialized, .fetching] view with
    | error failure => rfl
    | ok u => simp only [run_holding, run_fillContainer]

theorem run_load (v : ViewId) (shelf : Option ShelfId) :
    (load v shelf).run engine = engine.load v shelf := by
  unfold load Engine.load
  simp only [run_bind, run_page]
  congr 1
  funext p
  cases p.view? v with
  | none => rfl
  | some view =>
    dsimp only
    cases Engine.allowed "load" [.uninitialized] view with
    | error failure => rfl
    | ok u =>
      simp only [run_bind, run_enterState, run_amendGet]
      congr 1
      funext u
      congr 1
      funext answer
      cases answer with
      | none => rfl
      | some fetched =>
        cases fetched with
        | error failure => rfl
        | ok markup => simp only [run_bind, run_populate, run_pure]

end Routine

/-! ## Calls and programs -/

def Call.routine : (c : Call κ) → Routine κ σ c.Answer
  | openBus maxDepth => .amendGet (Page.addBus maxDepth)
  | subscribe bus event code => .amendGet (Page.subscribe bus event (.callback code))
  | unsubscribe s => .amend (Page.unsubscribe s)
  | clear bus => .amend (Page.modifyBus bus Registry.clear)
  | publish bus event value => .announce bus event value
  | observe bus name values => .amendGet (Page.addModel bus name values)
  | write m key value => .write m key value
  | create tag => .amendGet (Page.createElement tag)
  | setAttribute e name value => .amend (Page.setAttribute e name value)
  | removeAttribute e name => .amend (Page.removeAttribute e name)
  | setProperty e name value => .amend (Page.setProperty e name value)
  | setText e text => .amend (Page.setText e text)
  | setMarkup e markup => .amend (Page.setMarkup e markup)
  | append e child => .amend (Page.appendChild e child)
  | listen e kind code => .amend (Page.listen e kind (.callback code))
  | dispatch e kind => .fire e kind
  | bind bus m e => .bindElement bus m e
  | stock entries => .amendGet (Page.addShelf entries)
  | openView bus request => .amendGet (Page.openView bus request)
  | load v shelf => .load v shelf
  | populate v markup => .populate v markup
  | hold h => .amend (Page.hold h)
  | release h => .amend (Page.release h)

def Program.routine : Program κ σ α → Routine κ σ α
  | done a => .done a
  | inspect next => .look fun p => (next p).routine
  | amend f next => .change (fun p => { p with host := f p.host }) next.routine
  | call c next => c.routine.bind fun a => (next a).routine

/-- What is done when a listener is called. -/
def Listener.routine (callbacks : Callbacks κ σ) (value : Value) : Listener κ → Routine κ σ Outcome
  | callback code => (callbacks.onPublish code value).routine
  | l => .change (·.receive value l) (.done (.ok ()))

/-- What is done when a handler is called. -/
def Handler.routine (callbacks : Callbacks κ σ) (e : ElementId) : Handler κ → Routine κ σ Outcome
  | writeBack m property key control =>
    .look fun p =>
      if p.finds m then .write m.target key (control.coerce (p.property e property))
      else .done (.ok ())
  | callback code => (callbacks.onEvent code e).routine

theorem Call.run_routine (engine : Engine κ σ) (c : Call κ) : c.routine.run engine = c.run engine := by
  cases c with
  | publish bus event value => exact Routine.run_announce engine bus event value
  | write m key value => exact Routine.run_write engine m key value
  | dispatch e kind => exact Routine.run_fire engine e kind
  | bind bus m e => exact Routine.run_bindElement engine bus m e
  | load v shelf => exact Routine.run_load engine v shelf
  | populate v markup => exact Routine.run_populate engine v markup
  | _ => rfl

theorem Program.run_routine (engine : Engine κ σ) (program : Program κ σ α) :
    program.routine.run engine = program.run engine := by
  induction program with
  | done a => rfl
  | inspect next ih =>
    show (get >>= fun p => (next p).routine.run engine) = get >>= fun p => (next p).run engine
    simp only [ih]
  | amend f next ih =>
    show (modify _ >>= fun _ => next.routine.run engine) = modify _ >>= fun _ => next.run engine
    rw [ih]
  | call c next ih =>
    have h := Routine.run_bind engine (c.routine (σ := σ)) fun a => (next a).routine
    simp only [ih, c.run_routine] at h
    exact h

namespace Engine

variable (callbacks : Callbacks κ σ) (engine : Engine κ σ)

theorem notify_eq (l : Listener κ) (value : Value) :
    notify callbacks engine l value = (l.routine callbacks value).run engine := by
  funext p
  cases l with
  | callback code => exact (congrFun (Program.run_routine engine _) p).symm
  | text e m template names changed => exact notify_of_isBinding callbacks engine value rfl p
  | property e name => exact notify_of_isBinding callbacks engine value rfl p

theorem handle_eq (e : ElementId) (handler : Handler κ) :
    handle callbacks engine e handler = (handler.routine callbacks e).run engine := by
  cases handler with
  | callback code => exact (Program.run_routine engine _).symm
  | writeBack m property key control =>
    unfold handle
    refine congrArg (get >>= ·) (funext fun p => ?_)
    dsimp only
    split
    · exact (Routine.run_write engine ..).symm
    · rfl

end Engine

end Bindery
