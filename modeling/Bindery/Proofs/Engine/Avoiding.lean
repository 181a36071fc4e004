import Bindery.Proofs.Engine.Stages
import Bindery.Proofs.Page.Untouched

/-!
# Code that keeps off some elements

A run calls code that was installed before it and knows nothing of it.  If that code keeps off some
elements, and so does the run itself, then the elements are left alone: the listeners of bindings write
only to what they were made for, and none was made for these.  The induction is on the frames, along the
moments that the run comes to.

* `Call.Avoids`, `Program.Avoids`   code that keeps off some elements while it runs
* `Stage.Avoids`                    code that is called from a moment on and keeps off them
* `Routine.Keeps`                   a routine that keeps a property whenever it calls something
* `Routine.keeps_bindChildren`, `Call.keeps`   binding other elements, and calls on them
* `Engine.heeds_ofFrames`           what is called leaves the elements alone
-/

namespace Bindery

variable {κ σ α β : Type} {own : ElementId → Prop}

/-! ## Code -/

/-- The call is none that writes to one of the elements, puts something into it or binds it. -/
def Call.Avoids (own : ElementId → Prop) (p : Page κ σ) : Call κ → Prop
  | setAttribute e _ _ => ¬ own e
  | removeAttribute e _ => ¬ own e
  | setProperty e _ _ => ¬ own e
  | setText e _ => ¬ own e
  | setMarkup e _ => ¬ own e
  | append e _ => ¬ own e
  | listen e _ _ => ¬ own e
  | bind _ _ e => ¬ own e
  | load v _ => ∀ w, p.view? v = some w → ¬ own w.container
  | populate v _ => ∀ w, p.view? v = some w → ¬ own w.container
  | _ => True

def Program.Avoids (engine : Engine κ σ) (own : ElementId → Prop) :
    Program κ σ α → Page κ σ → Prop
  | .done _, _ => True
  | .inspect next, p => (next p).Avoids engine own p
  | .amend f next, p => next.Avoids engine own { p with host := f p.host }
  | .call c next, p =>
    c.Avoids own p ∧ ∀ a q, c.run engine p = some (a, q) → (next a).Avoids engine own q

theorem Call.Avoids.mono {own' : ElementId → Prop} {p : Page κ σ} {c : Call κ} (h : c.Avoids own p)
    (hown : ∀ x, own' x → own x) : c.Avoids own' p := by
  cases c with
  | setAttribute e name value => exact fun he => h (hown e he)
  | removeAttribute e name => exact fun he => h (hown e he)
  | setProperty e name value => exact fun he => h (hown e he)
  | setText e text => exact fun he => h (hown e he)
  | setMarkup e markup => exact fun he => h (hown e he)
  | append e child => exact fun he => h (hown e he)
  | listen e kind code => exact fun he => h (hown e he)
  | bind b m e => exact fun he => h (hown e he)
  | load v shelf => exact fun w hw he => h w hw (hown _ he)
  | populate v markup => exact fun w hw he => h w hw (hown _ he)
  | _ => trivial

theorem Program.Avoids.mono {own' : ElementId → Prop} {engine : Engine κ σ} {program : Program κ σ α}
    {p : Page κ σ} (h : program.Avoids engine own p) (hown : ∀ x, own' x → own x) :
    program.Avoids engine own' p := by
  induction program generalizing p with
  | done a => trivial
  | inspect next ih => exact ih p h
  | amend f next ih => exact ih h
  | call c next ih => exact ⟨h.1.mono hown, fun a q hc => ih a (h.2 a q hc)⟩

theorem Program.avoids_of_tame {engine : Engine κ σ} {program : Program κ σ α}
    (h : program.Tame fun c => ∀ p : Page κ σ, c.Avoids own p) (p : Page κ σ) :
    program.Avoids engine own p := by
  induction program generalizing p with
  | done a => trivial
  | inspect next ih => exact ih p (h p) p
  | amend f next ih => exact ih h _
  | call c next ih => exact ⟨h.1 p, fun a q _ => ih a (h.2 a) q⟩

namespace Stage

/-- The code that is called from now on keeps off the elements. -/
structure Avoids (callbacks : Callbacks κ σ) (own : ElementId → Prop) (S : Stage κ σ) : Prop where
  onPublish : ∀ {T bus event generation value i rest r code}, Reach callbacks S T →
    T.todo = .turns bus event generation value (i :: rest) → T.page.bus? bus = some r →
    r.slot? event generation i = some (some (.callback code)) →
    (callbacks.onPublish code value).Avoids (Engine.ofFrames callbacks T.frames) own T.page
  onEvent : ∀ {T e code rest}, Reach callbacks S T → T.todo = .handlers e (.callback code :: rest) →
    (callbacks.onEvent code e).Avoids (Engine.ofFrames callbacks T.frames) own T.page

variable {callbacks : Callbacks κ σ} {S T : Stage κ σ}

theorem Avoids.of_reach (h : S.Avoids callbacks own) (hT : Reach callbacks S T) :
    T.Avoids callbacks own :=
  ⟨fun hU => h.onPublish (hT.trans hU), fun hU => h.onEvent (hT.trans hU)⟩

theorem Avoids.mono {own' : ElementId → Prop} (h : S.Avoids callbacks own)
    (hown : ∀ x, own' x → own x) : S.Avoids callbacks own' :=
  ⟨fun hT htodo hb hslot => (h.onPublish hT htodo hb hslot).mono hown,
    fun hT htodo => (h.onEvent hT htodo).mono hown⟩

theorem Avoids.next (h : S.Avoids callbacks own) (hT : Next callbacks S T) :
    T.Avoids callbacks own := h.of_reach (.single hT)

/-- Code that makes none of these calls at all. -/
theorem avoids_of_tame (h : callbacks.Tame fun c => ∀ p : Page κ σ, c.Avoids own p) (S : Stage κ σ) :
    S.Avoids callbacks own :=
  ⟨fun _ _ _ _ => Program.avoids_of_tame (h.onPublish _ _) _,
    fun _ _ => Program.avoids_of_tame (h.onEvent _ _) _⟩

end Stage

/-! ## Routines -/

/-- Whenever the routine gives the page out of its hands `I` holds of it, if `I` holds of it whenever
the routine gets it back. -/
def Routine.Keeps (I : Page κ σ → Prop) : Routine κ σ α → Page κ σ → Prop
  | .done _, p => I p
  | .look next, p => (next p).Keeps I p
  | .change f next, p => next.Keeps I (f p)
  | .publish _ _ _ next, p => I p ∧ ∀ a q, I q → (next a).Keeps I q
  | .dispatch _ _ next, p => I p ∧ ∀ a q, I q → (next a).Keeps I q

namespace Routine

section

variable {I : Page κ σ → Prop} {p : Page κ σ}

theorem Keeps.bind {routine : Routine κ σ α} {f : α → Routine κ σ β} (h : routine.Keeps I p)
    (hf : ∀ a q, I q → (f a).Keeps I q) : (routine >>= f).Keeps I p := by
  show (routine.bind f).Keeps I p
  induction routine generalizing p with
  | done a => exact hf a p h
  | look next ih => exact ih p h
  | change g next ih => exact ih h
  | publish bus event value next ih => exact ⟨h.1, fun a q hq => ih a (h.2 a q hq)⟩
  | dispatch e kind next ih => exact ⟨h.1, fun a q hq => ih a (h.2 a q hq)⟩

theorem keeps_pure {a : α} (h : I p) : (pure a : Routine κ σ α).Keeps I p := h

theorem keeps_page {f : Page κ σ → Routine κ σ β} (h : (f p).Keeps I p) : (page >>= f).Keeps I p := h

theorem keeps_amend {f : Page κ σ → Page κ σ} {next : Unit → Routine κ σ β}
    (h : (next ()).Keeps I (f p)) : (amend f >>= next).Keeps I p := h

theorem keeps_amendGet {f : Page κ σ → α × Page κ σ} {next : α → Routine κ σ β}
    (h : (next (f p).1).Keeps I (f p).2) : (amendGet f >>= next).Keeps I p := h

theorem keeps_announce {bus : BusId} {event : String} {value : Value}
    {next : Outcome → Routine κ σ β} (hp : I p) (h : ∀ a q, I q → (next a).Keeps I q) :
    (announce bus event value >>= next).Keeps I p := ⟨hp, h⟩

end

theorem bind_done (routine : Routine κ σ α) : routine.bind done = routine := by
  induction routine with
  | done a => rfl
  | look next ih => simp only [bind, ih]
  | change g next ih => simp only [bind, ih]
  | publish b event value next ih => simp only [bind, ih]
  | dispatch e kind next ih => simp only [bind, ih]

/-! ### Binding other elements -/

variable {start p : Page κ σ} {bus : BusId} {m : ModelId} {e : ElementId} {v : ViewId}

theorem keeps_holding {routine : Routine κ σ α} {x : Handle}
    (h : routine.Keeps (start.Untouched own) (p.hold x)) :
    (holding x routine).Keeps (start.Untouched own) p := by
  refine keeps_amend (h.bind fun a q hq => keeps_amend (keeps_pure ?_))
  exact hq.of_same rfl rfl

theorem keeps_write (hp : start.Untouched own p) (m : ModelId) (key : String) (value : Value) :
    (write m key value).Keeps (start.Untouched own) p := by
  refine keeps_page ?_
  cases p.model? m with
  | none => exact keeps_pure hp
  | some model =>
    have hstore : start.Untouched own (p.store m key value) := hp.of_same rfl rfl
    refine keeps_amend ?_
    split
    · refine keeps_holding (keeps_announce (hstore.of_same rfl rfl) ?_)
      intro a q hq
      exact keeps_pure hq
    · exact keeps_pure hstore

theorem keeps_bindSlots (he : ¬ own e) (template : String) (all names : List String)
    (hp : start.Untouched own p) :
    (bindSlots bus m e template all names).Keeps (start.Untouched own) p := by
  induction names generalizing p with
  | nil => exact keeps_pure hp
  | cons name rest ih =>
    refine keeps_page ?_
    split
    · have hwait : start.Untouched own
          (p.subscribe bus (p.eventOf m name) (.text (.weak e) (.weak m) template all name)).2 := by
        refine hp.subscribe (fun x hx => ?_) bus _
        have hne : e ≠ x := fun hex => he (hex ▸ hx)
        exact ⟨decide_eq_false hne, rfl⟩
      refine keeps_amend (keeps_announce hwait ?_)
      intro outcome q hq
      cases outcome with
      | error failure => exact keeps_pure hq
      | ok u => exact (ih hq).bind fun _ s hs => keeps_pure hs
    · exact ih hp

theorem keeps_bindElement (he : ¬ own e) (hp : start.Untouched own p) :
    (bindElement bus m e).Keeps (start.Untouched own) p := by
  have htext : ∀ {q : Page κ σ}, start.Untouched own q →
      (bindText bus m e).Keeps (start.Untouched own) q := by
    intro q hq
    refine keeps_page ?_
    cases q.textOf? e with
    | none => exact keeps_pure hq
    | some template =>
      dsimp only
      cases Template.names? template with
      | none => exact keeps_pure hq
      | some names =>
        exact (keeps_bindSlots he template names names hq).bind fun _ s hs => keeps_pure hs
  have hheld : start.Untouched own ((p.hold (.element e)).hold (.model m)) := hp.of_same rfl rfl
  refine keeps_holding (keeps_holding ((htext hheld).bind fun outcome q hq => ?_))
  cases outcome with
  | error failure => exact keeps_pure hq
  | ok text => exact keeps_amendGet (keeps_pure (hq.bindAttributes he bus m _))

theorem keeps_bindChildren {es : List ElementId} (hes : ∀ e ∈ es, ¬ own e)
    (hp : start.Untouched own p) :
    (bindChildren v bus m es).Keeps (start.Untouched own) p := by
  induction es generalizing p with
  | nil => exact keeps_pure hp
  | cons e rest ih =>
    refine (keeps_bindElement (hes e List.mem_cons_self) hp).bind fun outcome q hq => ?_
    cases outcome with
    | error failure => exact keeps_pure hq
    | ok targets =>
      refine keeps_amend (ih (fun x hx => hes x (List.mem_cons_of_mem e hx)) ?_)
      exact hq.of_same rfl rfl

/-- The children that markup makes are new, and none of the elements is. -/
theorem not_own_of_childElements {c x : ElementId} (hp : start.Untouched own p) (markup : String)
    (hx : x ∈ (p.setMarkup c markup).childElements c) : ¬ own x := by
  intro hown
  obtain ⟨d, -, hd⟩ := hp.element hown
  have hlt : x.index < p.elements.size := (Array.getElem?_eq_some_iff.mp hd).1
  obtain ⟨box, hbox, hchild⟩ := Page.mem_childElements.mp hx
  rcases Page.child_of_setMarkup p c markup hbox hchild with ⟨hnew, -⟩ | ⟨hne, -⟩
  · omega
  · exact hne rfl

theorem keeps_populate (hv : ∀ w, p.view? v = some w → ¬ own w.container)
    (hp : start.Untouched own p) (markup : String) :
    (populate v markup).Keeps (start.Untouched own) p := by
  refine keeps_page ?_
  cases hw : p.view? v with
  | none => exact keeps_pure hp
  | some view =>
    dsimp only
    cases Engine.allowed "populate" [.uninitialized, .fetching] view with
    | error failure => exact keeps_pure hp
    | ok u =>
      have hheld : start.Untouched own (p.hold (.view v)) := hp.of_same rfl rfl
      have hset := hheld.setMarkup (hv view hw) markup
      refine keeps_holding (keeps_amend (keeps_page (keeps_amend ?_)))
      refine Keeps.bind (keeps_bindChildren (fun x hx => not_own_of_childElements hheld markup hx) ?_)
        fun outcome q hq => ?_
      · exact hset.of_same rfl rfl
      · have hend : ∀ state, start.Untouched own (q.modifyView v fun w => { w with state }) :=
          fun state => hq.of_same rfl rfl
        cases outcome with
        | ok u => exact keeps_amend (keeps_pure (hend .bound))
        | error failure => exact keeps_amend (keeps_pure (hend .errored))

theorem keeps_load (hv : ∀ w, p.view? v = some w → ¬ own w.container)
    (hp : start.Untouched own p) (shelf : Option ShelfId) :
    (load v shelf).Keeps (start.Untouched own) p := by
  refine keeps_page ?_
  cases hw : p.view? v with
  | none => exact keeps_pure hp
  | some view =>
    dsimp only
    cases Engine.allowed "load" [.uninitialized] view with
    | error failure => exact keeps_pure hp
    | ok u =>
      refine keeps_amend ?_
      have hfetching : start.Untouched own (p.modifyView v fun w => { w with state := .fetching }) :=
        hp.of_same rfl rfl
      have hview := Page.view?_modifyView_self hw fun w => { w with state := .fetching }
      generalize p.modifyView v (fun w => { w with state := .fetching }) = q at hfetching hview
      cases shelf with
      | none => exact keeps_amendGet (keeps_pure hfetching)
      | some s =>
        have hasked := hfetching.request s view.path
        have hsame := (Page.view?_request q s view.path v).trans hview
        refine keeps_amendGet ?_
        cases (q.request s view.path).1 with
        | none => exact keeps_pure hasked
        | some fetched =>
          cases fetched with
          | error failure => exact keeps_amend (keeps_pure (hasked.of_same rfl rfl))
          | ok markup =>
            refine (keeps_populate (fun w hw' => ?_) hasked markup).bind fun _ t ht => keeps_pure ht
            cases hsame.symm.trans hw'
            exact hv view hw

end Routine

open Routine in
/-- A call that keeps off the elements leaves them alone. -/
theorem Call.keeps {start p : Page κ σ} {c : Call κ} (hc : c.Avoids own p)
    (hp : start.Untouched own p) : c.routine.Keeps (start.Untouched own) p := by
  cases c with
  | openBus maxDepth => exact hp.addBus maxDepth
  | subscribe b event code => exact hp.subscribe (fun _ _ => ⟨rfl, rfl⟩) b event
  | unsubscribe s =>
    exact hp.modifyBus s.bus fun r x _ hr event l hl => hr event l (Registry.mem_heard_of_remove hl)
  | clear b => exact hp.modifyBus b fun r x _ _ event l hl => absurd hl List.not_mem_nil
  | publish b event value => exact ⟨hp, fun _ _ hq => hq⟩
  | observe b name values => exact hp.of_same rfl rfl
  | write m key value => exact keeps_write hp m key value
  | create tag => exact hp.grows (.addElement p _)
  | setAttribute e name value => exact hp.modifyElement hc _
  | removeAttribute e name => exact hp.modifyElement hc _
  | setProperty e name value => exact hp.modifyElement hc _
  | setText e text => exact hp.modifyElement hc _
  | setMarkup e markup => exact hp.setMarkup hc markup
  | append e child => exact hp.modifyElement hc _
  | listen e kind code => exact hp.modifyElement hc _
  | dispatch e kind => exact ⟨hp, fun _ _ hq => hq⟩
  | bind b m e => exact keeps_bindElement hc hp
  | stock entries => exact hp.of_same rfl rfl
  | openView b request => exact hp.openView b request
  | load v shelf => exact keeps_load hc hp shelf
  | populate v markup => exact keeps_populate hc hp markup
  | hold x => exact hp.of_same rfl rfl
  | release x => exact hp.of_same rfl rfl

/-! ## Engines -/

namespace Engine

open Page Stage

/-- With `n` frames whatever is published or fired leaves the elements alone, if the code that is called
keeps off them. -/
structure Heeds (callbacks : Callbacks κ σ) (own : ElementId → Prop) (start : Page κ σ) (n : Nat) :
    Prop where
  publish : ∀ {α s p q bus event value a} {next : Outcome → Routine κ σ α},
    Stage.Avoids callbacks own ⟨n, s, .routine (.publish bus event value next), p⟩ →
    start.Untouched own p → (ofFrames callbacks n).publish bus event value p = some (a, q) →
    start.Untouched own q
  dispatch : ∀ {α s p q e kind a} {next : Outcome → Routine κ σ α},
    Stage.Avoids callbacks own ⟨n, s, .routine (.dispatch e kind next), p⟩ →
    start.Untouched own p → (ofFrames callbacks n).dispatch e kind p = some (a, q) →
    start.Untouched own q

variable {callbacks : Callbacks κ σ} {start p q : Page κ σ} {n : Nat} {s : List (BusId × String)}
  {a : α}

namespace Heeds

theorem routine (he : Heeds callbacks own start n) {routine : Routine κ σ α} {f : α → Routine κ σ β}
    (hS : Stage.Avoids callbacks own ⟨n, s, .routine (routine.bind f), p⟩)
    (hr : routine.Keeps (start.Untouched own) p)
    (h : routine.run (ofFrames callbacks n) p = some (a, q)) : start.Untouched own q := by
  induction routine generalizing p with
  | done b =>
    cases h
    exact hr
  | look next ih => exact ih p (hS.next (.look _)) hr h
  | change g next ih => exact ih (hS.next (.change _ _)) hr h
  | publish bus event value next ih =>
    obtain ⟨b, t, ht, hq⟩ := Run.bind_eq_some.mp h
    have hstep := he.publish hS hr.1 ht
    exact ih b (hS.next (.published _ ht)) (hr.2 b t hstep) hq
  | dispatch e kind next ih =>
    obtain ⟨b, t, ht, hq⟩ := Run.bind_eq_some.mp h
    have hstep := he.dispatch hS hr.1 ht
    exact ih b (hS.next (.fired _ ht)) (hr.2 b t hstep) hq

theorem program (he : Heeds callbacks own start n) {program : Program κ σ α}
    (hS : Stage.Avoids callbacks own ⟨n, s, .routine program.routine, p⟩)
    (hprogram : program.Avoids (ofFrames callbacks n) own p) (hp : start.Untouched own p)
    (h : program.run (ofFrames callbacks n) p = some (a, q)) : start.Untouched own q := by
  induction program generalizing p with
  | done b =>
    cases h
    exact hp
  | inspect next ih => exact ih p (hS.next (.look _)) hprogram hp h
  | amend f next ih => exact ih (hS.next (.change _ _)) hprogram (hp.of_same rfl rfl) h
  | call c next ih =>
    obtain ⟨b, t, hc, hq⟩ := Run.bind_eq_some.mp h
    have hrun : (c.routine (σ := σ)).run (ofFrames callbacks n) p = some (b, t) := by
      rw [c.run_routine, hc]
    have ht := he.routine hS (Call.keeps hprogram.1 hp) hrun
    exact ih b (hS.of_reach (reach_of_run _ hrun)) (hprogram.2 b t hc) ht hq

variable {bus : BusId} {event : String} {generation : Nat} {value : Value}

theorem notify (he : Heeds callbacks own start n) {i : Nat} {rest : List Nat}
    {r : Registry (Listener κ)} {l : Listener κ} {outcome : Outcome}
    (hS : Stage.Avoids callbacks own ⟨n, s, .turns bus event generation value (i :: rest), p⟩)
    (hb : p.bus? bus = some r) (hslot : r.slot? event generation i = some (some l))
    (hp : start.Untouched own p)
    (h : notify callbacks (ofFrames callbacks n) l value p = some (outcome, q)) :
    start.Untouched own q := by
  by_cases hl : l.isBinding = true
  · rw [notify_of_isBinding callbacks _ value hl] at h
    cases h
    exact hp.receive hb (Registry.mem_heard_of_slot? hslot) value
  · cases l with
    | callback code =>
      exact he.program (hS.next (.call hb hslot)) (hS.onPublish .refl rfl hb hslot) hp h
    | text => exact absurd rfl hl
    | property => exact absurd rfl hl

theorem deliver (he : Heeds callbacks own start n) {turns : List Nat} {outcome : Outcome}
    (hS : Stage.Avoids callbacks own ⟨n, s, .turns bus event generation value turns, p⟩)
    (hp : start.Untouched own p)
    (h : deliver callbacks (ofFrames callbacks n) bus event generation value turns p
      = some (outcome, q)) : start.Untouched own q := by
  induction turns generalizing p with
  | nil =>
    cases h
    exact hp
  | cons i rest ih =>
    rw [Engine.deliver, Run.get_bind] at h
    cases hs : (p.bus? bus).bind (·.slot? event generation i) with
    | none =>
      rw [hs] at h
      cases h
      exact hp
    | some slot =>
      rw [hs] at h
      obtain ⟨r, hb, hslot⟩ := Option.bind_eq_some_iff.mp hs
      cases slot with
      | none => exact ih (hS.next (.skip hb hslot)) hp h
      | some l =>
        obtain ⟨outcome', t, hn, hrest⟩ := Run.bind_eq_some.mp h
        have ht := he.notify hS hb hslot hp hn
        cases outcome' with
        | ok u => exact ih (hS.next (.called hb hslot hn)) ht hrest
        | error failure =>
          cases hrest
          exact ht

theorem handle (he : Heeds callbacks own start n) {e : ElementId} {handler : Handler κ}
    {rest : List (Handler κ)} {outcome : Outcome}
    (hS : Stage.Avoids callbacks own ⟨n, s, .handlers e (handler :: rest), p⟩)
    (hp : start.Untouched own p)
    (h : handle callbacks (ofFrames callbacks n) e handler p = some (outcome, q)) :
    start.Untouched own q := by
  have hcalled := hS.next .handle
  cases handler with
  | callback code => exact he.program hcalled (hS.onEvent .refl rfl) hp h
  | writeBack m property key control =>
    rw [handle_eq] at h
    have hwrite : Routine.Keeps (start.Untouched own)
        ((Handler.writeBack m property key control).routine callbacks e) p := by
      have hone : Routine.Keeps (start.Untouched own) (if p.finds m then
          Routine.write m.target key (control.coerce (p.property e property)) else .done (.ok ())) p := by
        split
        · exact Routine.keeps_write hp m.target key _
        · exact Routine.keeps_pure hp
      exact Routine.keeps_page hone
    rw [← Routine.bind_done (Handler.routine ..)] at hcalled
    exact he.routine hcalled hwrite h

theorem handleAll (he : Heeds callbacks own start n) {e : ElementId} {handlers : List (Handler κ)}
    {outcome : Outcome} (hS : Stage.Avoids callbacks own ⟨n, s, .handlers e handlers, p⟩)
    (hp : start.Untouched own p)
    (h : handleAll callbacks (ofFrames callbacks n) e handlers p = some (outcome, q)) :
    start.Untouched own q := by
  induction handlers generalizing p with
  | nil =>
    cases h
    exact hp
  | cons handler rest ih =>
    obtain ⟨outcome', t, hn, hrest⟩ := Run.bind_eq_some.mp h
    have ht := he.handle hS hp hn
    cases outcome' with
    | ok u => exact ih (hS.next (.handled hn)) ht hrest
    | error failure =>
      cases hrest
      exact ht

theorem succ (he : Heeds callbacks own start n) : Heeds callbacks own start (n + 1) where
  publish {α s p q bus event value a next} hS hp h := by
    change publishWith callbacks (ofFrames callbacks n) bus event value p = _ at h
    cases hb : p.bus? bus with
    | none =>
      rw [publishWith_of_absent hb] at h
      cases h
      exact hp
    | some r =>
      cases hr : r.enter event with
      | error failure =>
        rw [publishWith_of_refused hb hr] at h
        cases h
        exact hp
      | ok entered =>
        cases entered with
        | none =>
          rw [publishWith_of_silent hb hr] at h
          cases h
          exact hp
        | some x =>
          obtain ⟨d, r'⟩ := x
          obtain ⟨t, ht, rfl⟩ := publishWith_eq_some_of_entered hb hr h
          obtain ⟨-, -, rfl⟩ := Registry.enter_eq_some hr
          have hspares : ∀ x, own x → r.Spares x := fun x hx => hp.spares hb hx
          have hin := hp.modifyBus bus (f := fun _ => { r with inFlight := r.inFlight ++ [event] })
            fun _ x hx _ => hspares x hx
          have hout := he.deliver (hS.next (.enter next hb hr)) hin ht
          exact hout.modifyBus bus fun r x _ hr => hr
  dispatch {α s p q e kind a next} hS hp h := by
    obtain ⟨t, ht, rfl⟩ := Run.holding_eq_some.mp h
    have hheld : start.Untouched own (p.hold (.element e)) := hp.of_same rfl rfl
    exact (he.handleAll (hS.next (.fire next)) hheld ht).of_same rfl rfl

end Heeds

theorem heeds_ofFrames (callbacks : Callbacks κ σ) (own : ElementId → Prop) (start : Page κ σ)
    (n : Nat) : Heeds callbacks own start n := by
  induction n with
  | zero => exact ⟨fun _ _ h => (nomatch h), fun _ _ h => (nomatch h)⟩
  | succ n ih => exact ih.succ

end Engine

end Bindery
