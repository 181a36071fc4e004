import Bindery.Proofs.Engine.Moments
import Bindery.Proofs.Page.Neat

/-!
# Operations that do no harm

What binding and views do brings nothing back to life: an element is alive when it is taken hold of.
The elements of a view are, because the view keeps them while they are bound.  That has to hold
whatever else is done while the operation waits for something to return; all it can rely on then is that
as much is held as before.

* `Page.Sustains`          as much is held, and views are what they were
* `Plan.Careful`           a plan that does no harm from a page on
* `Routine.careful_bindElement`, `Routine.careful_populate`   binding and populating are careful
* `Call.Living`, `Call.careful`   so are calls that are made on what is alive
* `Moment.careful_step`    a moment at which all that is left is careful stays such a moment
-/

namespace Bindery

variable {κ σ α β : Type}

/-! ## While something else goes on -/

namespace Page

/-- As much is held as before, and views are what they were. -/
structure Sustains (p q : Page κ σ) : Prop where
  held : p.held.Subperm q.held
  views : q.views = p.views

namespace Sustains

variable {p q s : Page κ σ}

theorem of_same (hh : q.held = p.held) (hv : q.views = p.views) : p.Sustains q :=
  ⟨hh ▸ .refl _, hv⟩

theorem refl (p : Page κ σ) : p.Sustains p := of_same rfl rfl

theorem trans (h : p.Sustains q) (k : q.Sustains s) : p.Sustains s :=
  ⟨h.held.trans k.held, k.views.trans h.views⟩

theorem release {x : Handle} (h : (p.hold x).Sustains q) : p.Sustains (q.release x) := by
  refine ⟨?_, h.views⟩
  have herase := h.held.erase x
  rw [Page.hold, List.erase_cons_head] at herase
  exact herase

theorem mem_held (h : p.Sustains q) {x : Handle} (hx : x ∈ p.held) : x ∈ q.held := h.held.subset hx

theorem view? (h : p.Sustains q) (v : ViewId) : q.view? v = p.view? v := view?_of_views h.views v

theorem subscribe (p : Page κ σ) (b : BusId) (event : String) (l : Listener κ) :
    p.Sustains (p.subscribe b event l).2 := by
  cases hb : p.bus? b with
  | none =>
    rw [subscribe_of_none hb]
    exact refl p
  | some r =>
    rw [subscribe_of_some hb]
    exact of_same rfl rfl

theorem receive (p : Page κ σ) (value : Value) (l : Listener κ) : p.Sustains (p.receive value l) := by
  rw [receive_eq]
  exact of_same rfl rfl

theorem bindAttributes (p : Page κ σ) (b : BusId) (m : ModelId) (e : ElementId)
    (entries : List (String × String)) : p.Sustains (p.bindAttributes b m e entries).2 := by
  have htied : Tied b m e p (p.bindAttributes b m e entries).2 := tied_bindAttributes entries
  rw [htied.rest]
  exact of_same rfl rfl

end Sustains

/-- What is true of a page stays true while as much is held. -/
def Stable (Q : Page κ σ → Prop) : Prop := ∀ p q, Q p → p.Sustains q → Q q

theorem stable_sustains (p : Page κ σ) : Stable p.Sustains := fun _ _ h k => h.trans k

end Page

open Page

/-! ## Careful plans -/

/-- From a page on the plan does no harm, whatever is done in the meantime by what it waits for.  It
answers only what `Q` says of the answer and the page. -/
def Plan.Careful (Q : α → Page κ σ → Prop) : Plan κ σ α → Page κ σ → Prop
  | .done a, p => Q a p
  | .look next, p => (next p).Careful Q p
  | .change f next, p => p.Harmless (f p) ∧ next.Careful Q (f p)
  | .publish _ _ _ next, p => ∀ a q, p.Sustains q → (next a).Careful Q q
  | .dispatch e _ next, p => p.elementAlive e = true ∧ ∀ a q, p.Sustains q → (next a).Careful Q q
  | .write _ _ _ next, p => ∀ a q, p.Sustains q → (next a).Careful Q q

namespace Plan.Careful

variable {Q : α → Page κ σ → Prop} {R : β → Page κ σ → Prop} {p : Page κ σ}

theorem bind {plan : Plan κ σ α} {f : α → Plan κ σ β} (h : plan.Careful Q p)
    (hf : ∀ a q, Q a q → (f a).Careful R q) : (plan.bind f).Careful R p := by
  induction plan generalizing p with
  | done a => exact hf a p h
  | look next ih => exact ih p h
  | change g next ih => exact ⟨h.1, ih h.2⟩
  | publish bus event value next ih => exact fun a q hq => ih a (h a q hq)
  | dispatch e kind next ih => exact ⟨h.1, fun a q hq => ih a (h.2 a q hq)⟩
  | write m key value next ih => exact fun a q hq => ih a (h a q hq)

theorem mono {Q' : α → Page κ σ → Prop} {plan : Plan κ σ α} (h : plan.Careful Q p)
    (hQ : ∀ a q, Q a q → Q' a q) : plan.Careful Q' p := by
  induction plan generalizing p with
  | done a => exact hQ a p h
  | look next ih => exact ih p h
  | change g next ih => exact ⟨h.1, ih h.2⟩
  | publish bus event value next ih => exact fun a q hq => ih a (h a q hq)
  | dispatch e kind next ih => exact ⟨h.1, fun a q hq => ih a (h.2 a q hq)⟩
  | write m key value next ih => exact fun a q hq => ih a (h a q hq)

end Plan.Careful

namespace Routine

theorem plan_bind (routine : Routine κ σ α) (f : α → Routine κ σ β) :
    (routine >>= f).plan = routine.plan.bind fun a => (f a).plan := by
  show (routine.bind f).plan = _
  induction routine with
  | done a => rfl
  | look next ih => simp only [bind, plan, Plan.bind, ih]
  | change g next ih => simp only [bind, plan, Plan.bind, ih]
  | publish bus event value next ih => simp only [bind, plan, Plan.bind, ih]
  | dispatch e kind next ih => simp only [bind, plan, Plan.bind, ih]

variable {Q : α → Page κ σ → Prop} {R : β → Page κ σ → Prop} {p : Page κ σ}

theorem careful_bind {routine : Routine κ σ α} {f : α → Routine κ σ β}
    (h : routine.plan.Careful Q p) (hf : ∀ a q, Q a q → (f a).plan.Careful R q) :
    (routine >>= f).plan.Careful R p := by
  rw [plan_bind]
  exact h.bind hf

theorem careful_pure {a : α} (h : Q a p) : (pure a : Routine κ σ α).plan.Careful Q p := h

theorem careful_page {f : Page κ σ → Routine κ σ β} (h : (f p).plan.Careful R p) :
    (page >>= f).plan.Careful R p := h

theorem careful_amend {f : Page κ σ → Page κ σ} {next : Unit → Routine κ σ β} (h : p.Harmless (f p))
    (hnext : (next ()).plan.Careful R (f p)) : (amend f >>= next).plan.Careful R p := ⟨h, hnext⟩

theorem careful_amendGet {f : Page κ σ → α × Page κ σ} {next : α → Routine κ σ β}
    (h : p.Harmless (f p).2) (hnext : (next (f p).1).plan.Careful R (f p).2) :
    (amendGet f >>= next).plan.Careful R p := ⟨h, hnext⟩

theorem careful_announce {bus : BusId} {event : String} {value : Value}
    {next : Outcome → Routine κ σ β} (h : ∀ a q, p.Sustains q → (next a).plan.Careful R q) :
    (announce bus event value >>= next).plan.Careful R p := h

theorem careful_holding {routine : Routine κ σ α} {P : α → Prop} {x : Handle}
    (hx : p.Harmless (p.hold x))
    (h : routine.plan.Careful (fun a q => P a ∧ (p.hold x).Sustains q) (p.hold x)) :
    (holding x routine).plan.Careful (fun a q => P a ∧ p.Sustains q) p := by
  refine careful_amend hx (careful_bind h fun a q hq => careful_amend (.release q x) ?_)
  exact careful_pure ⟨hq.1, hq.2.release⟩

variable {m : ModelId} {e : ElementId} {bus : BusId}

theorem careful_bindSlots (template : String) (all names : List String) :
    (bindSlots bus m e template all names).plan.Careful (fun _ q => p.Sustains q) p := by
  induction names generalizing p with
  | nil => exact careful_pure (.refl p)
  | cons name rest ih =>
    refine careful_page ?_
    split
    · have hsub := Sustains.subscribe p bus (p.eventOf m name) (.text (.weak e) (.weak m) template all name)
      refine careful_amend (.subscribe p bus _ ⟨rfl, rfl⟩) (careful_announce fun outcome q hq => ?_)
      cases outcome with
      | error failure => exact careful_pure (hsub.trans hq)
      | ok u => exact careful_bind ih fun _ s hs => careful_pure (hsub.trans (hq.trans hs))
    · exact ih

theorem careful_bindText :
    (bindText bus m e).plan.Careful
      (fun a q => (∀ t, a = .ok (some t) → t.element = e) ∧ p.Sustains q) p := by
  refine careful_page ?_
  cases p.textOf? e with
  | none => exact careful_pure ⟨fun _ ht => (nomatch ht), .refl p⟩
  | some template =>
    dsimp only
    cases Template.names? template with
    | none => exact careful_pure ⟨fun _ ht => (nomatch ht), .refl p⟩
    | some names =>
      refine careful_bind (careful_bindSlots template names names) fun bound q hq => ?_
      refine careful_pure ⟨fun t ht => ?_, hq⟩
      cases bound with
      | error failure => cases ht
      | ok any =>
        cases any with
        | false => cases ht
        | true =>
          cases ht
          rfl

/-- Binding an element that is alive.  What is bound belongs to it. -/
theorem careful_bindElement (ha : p.elementAlive e = true) :
    (bindElement bus m e).plan.Careful
      (fun a q => (∀ targets, a = .ok targets → ∀ t ∈ targets, t.element = e) ∧ p.Sustains q) p := by
  have helement : p.Harmless (p.hold (.element e)) :=
    .hold p (fun c hc => by cases hc; exact ha) fun v hv => nomatch hv
  have hmodel : (p.hold (.element e)).Harmless ((p.hold (.element e)).hold (.model m)) :=
    .hold _ (fun c hc => nomatch hc) fun v hv => nomatch hv
  refine careful_holding helement (careful_holding hmodel ?_)
  refine careful_bind careful_bindText fun text q hq => ?_
  obtain ⟨htext, hsus⟩ := hq
  cases text with
  | error failure => exact careful_pure ⟨fun _ ht => (nomatch ht), hsus⟩
  | ok text =>
    refine careful_amendGet (.bindAttributes q bus m e _) (careful_pure ⟨fun targets ht t hmem => ?_, ?_⟩)
    · cases ht
      rcases List.mem_append.mp hmem with hmem | hmem
      · exact htext t (congrArg Except.ok (Option.mem_toList.mp hmem))
      · exact element_of_bindAttributes hmem
    · exact hsus.trans (.bindAttributes q bus m e _)

/-! ### Views -/

variable {v : ViewId}

theorem elementAlive_of_kept {w : View} (hheld : .view v ∈ p.held) (hw : p.view? v = some w)
    (hk : w.keeps e = true) : p.elementAlive e = true :=
  elementAlive_of_isRooted (isRooted_singleton.mpr (Or.inr ⟨v, w, hheld, hw, hk⟩))

/-- Binding elements that a view keeps which is held. -/
theorem careful_bindChildren {es : List ElementId} {w : View} (hheld : .view v ∈ p.held)
    (hw : p.view? v = some w) (hk : ∀ x ∈ es, w.keeps x = true) :
    (bindChildren v bus m es).plan.Careful (fun _ _ => True) p := by
  induction es generalizing p w with
  | nil => trivial
  | cons x rest ih =>
    have hx := hk x List.mem_cons_self
    refine careful_bind (careful_bindElement (elementAlive_of_kept hheld hw hx)) fun outcome q hq => ?_
    obtain ⟨htargets, hsus⟩ := hq
    cases outcome with
    | error failure => trivial
    | ok targets =>
      have hw' : q.view? v = some w := (hsus.view? v).trans hw
      have hkeeps := keeps_bound hx (htargets targets rfl)
      refine careful_amend (.modifyView q v (fun _ => rfl) fun _ _ w' hw₁ y hy => ?_) ?_
      · cases hw'.symm.trans hw₁
        exact Or.inl ((hkeeps y).mp hy)
      · refine ih (hsus.mem_held hheld) (view?_modifyView_self hw' _) fun y hy => ?_
        exact (hkeeps y).mpr (hk y (List.mem_cons_of_mem x hy))

theorem careful_enterState {state : ViewState} {next : Unit → Routine κ σ β}
    (h : (next ()).plan.Careful R (p.modifyView v fun view => { view with state })) :
    (enterState v state >>= next).plan.Careful R p :=
  careful_amend (.modifyView p v (fun _ => rfl) fun _ _ _ _ _ hy =>
    Or.inl (keeps_iff.mpr (keeps_iff.mp hy))) h

/-- The children of the container of a view are alive if the view is held. -/
theorem elementAlive_of_childElements {w : View} (hp : p.Neat) (hheld : .view v ∈ p.held)
    (hw : p.view? v = some w) (h : e ∈ p.childElements w.container) : p.elementAlive e = true := by
  obtain ⟨box, hbox, hc⟩ := mem_childElements.mp h
  exact elementAlive_of_child hp (elementAlive_of_kept hheld hw (keeps_iff.mpr (Or.inl rfl))) hbox hc

theorem careful_fillContainer {view : View} (markup : String) (hheld : .view v ∈ p.held)
    (hv : p.view? v = some view) :
    (fillContainer v view markup).plan.Careful (fun _ _ => True) p := by
  obtain ⟨hheld', hv'⟩ : .view v ∈ (p.setMarkup view.container markup).held ∧
      (p.setMarkup view.container markup).view? v = some view := by
    rw [setMarkup_eq]
    exact ⟨hheld, hv⟩
  refine careful_amend (.setMarkup p view.container markup) (careful_page ?_)
  generalize p.setMarkup view.container markup = q at hheld' hv'
  -- the new children are alive in their container, and from then on the view keeps them
  have hfill : q.Harmless (q.modifyView v fun w =>
      { w with children := q.childElements view.container, state := .populated }) := by
    refine .modifyView q v (fun _ => rfl) fun hq hvq w hw x hx => ?_
    cases hv'.symm.trans hw
    rcases keeps_iff.mp hx with hx | hx | hx
    · exact Or.inl (keeps_iff.mpr (Or.inl hx))
    · exact Or.inr (elementAlive_of_childElements hq hvq hv' hx)
    · exact Or.inl (keeps_iff.mpr (Or.inr (Or.inr hx)))
  have hchildren : (bindChildren v view.bus view.model (q.childElements view.container)).plan.Careful
      (fun _ _ => True) (q.modifyView v fun w =>
        { w with children := q.childElements view.container, state := .populated }) :=
    careful_bindChildren hheld' (view?_modifyView_self hv' _)
      fun x hx => keeps_iff.mpr (Or.inr (Or.inl hx))
  refine careful_amend hfill (careful_bind hchildren fun outcome s _ => ?_)
  cases outcome with
  | ok u => exact careful_enterState trivial
  | error failure => exact careful_enterState trivial

theorem careful_populate (markup : String) (hheld : .view v ∈ p.held) :
    (populate v markup).plan.Careful (fun _ _ => True) p := by
  refine careful_page ?_
  cases hv : p.view? v with
  | none => trivial
  | some view =>
    dsimp only
    cases Engine.allowed "populate" [.uninitialized, .fetching] view with
    | error failure => trivial
    | ok u =>
      have hhold : p.Harmless (p.hold (.view v)) :=
        .hold p (fun e he => nomatch he) fun u hu => by cases hu; exact hheld
      have hfill : (fillContainer v view markup).plan.Careful (fun _ _ => True) (p.hold (.view v)) :=
        careful_fillContainer markup List.mem_cons_self hv
      exact careful_amend hhold (careful_bind hfill fun _ q _ => careful_amend (.release q _) trivial)

theorem careful_load (shelf : Option ShelfId) (hheld : .view v ∈ p.held) :
    (load v shelf).plan.Careful (fun _ _ => True) p := by
  refine careful_page ?_
  cases hv : p.view? v with
  | none => trivial
  | some view =>
    dsimp only
    cases Engine.allowed "load" [.uninitialized] view with
    | error failure => trivial
    | ok u =>
      refine careful_enterState ?_
      have hheld' : .view v ∈ (p.modifyView v fun view => { view with state := .fetching }).held := hheld
      generalize p.modifyView v (fun view => { view with state := .fetching }) = q at hheld'
      refine careful_bind (Q := fun _ s => .view v ∈ s.held) ?_ fun answer s hs => ?_
      · cases shelf with
        | none => exact ⟨.refl q, hheld'⟩
        | some s =>
          refine ⟨.request q s view.path, ?_⟩
          show _ ∈ (q.request s view.path).2.held
          rw [request_eq]
          exact hheld'
      · cases answer with
        | none => trivial
        | some fetched =>
          cases fetched with
          | error failure => exact careful_enterState trivial
          | ok markup => exact careful_bind (careful_populate markup hs) fun _ _ _ => trivial

end Routine

/-! ## Calls on what is alive -/

/-- The call is one of writing, binding, firing or populating, and it is made on what is alive. -/
def Call.Living (p : Page κ σ) : Call κ → Prop
  | unsubscribe _ => True
  | clear _ => True
  | publish .. => True
  | write .. => True
  | setAttribute .. => True
  | removeAttribute .. => True
  | setProperty .. => True
  | setText .. => True
  | setMarkup .. => True
  | dispatch e _ => p.elementAlive e = true
  | bind _ _ e => p.elementAlive e = true
  | load v _ => .view v ∈ p.held
  | populate v _ => .view v ∈ p.held
  | release _ => True
  | _ => False

theorem Call.careful {c : Call κ} {p : Page κ σ} (hc : c.Living p) :
    c.plan.Careful (fun _ _ => True) p := by
  have hattributes : ∀ (e : ElementId) (f : Attributes → Attributes),
      p.Harmless (p.modifyElement e fun d => { d with attributes := f d.attributes }) :=
    fun e f => .modifyElement p e (fun _ _ hc => hc) fun _ _ hx => Or.inl hx
  cases c with
  | unsubscribe s => exact ⟨.modifyBus p s.bus fun _ _ _ hl => Or.inl (Registry.mem_listeners_of_remove hl), trivial⟩
  | clear b => exact ⟨.modifyBus p b fun _ _ _ hl => absurd hl List.not_mem_nil, trivial⟩
  | publish bus event value => exact fun _ _ _ => trivial
  | write m key value => exact fun _ _ _ => trivial
  | setAttribute e name value => exact ⟨hattributes e fun a => a.set name value, trivial⟩
  | removeAttribute e name => exact ⟨hattributes e fun a => a.erase name, trivial⟩
  | setProperty e name value => exact ⟨.setProperty p e name value, trivial⟩
  | setText e text => exact ⟨.setText p e text, trivial⟩
  | setMarkup e markup => exact ⟨.setMarkup p e markup, trivial⟩
  | dispatch e kind => exact ⟨hc, fun _ _ _ => trivial⟩
  | bind bus m e => exact (Routine.careful_bindElement hc).mono fun _ _ _ => trivial
  | load v shelf => exact Routine.careful_load shelf hc
  | populate v markup => exact Routine.careful_populate markup hc
  | release x => exact ⟨.release p x, trivial⟩
  | _ => exact hc.elim

/-! ## Moments -/

/-- Whatever waits goes on with care once it is told that `Q`. -/
inductive Awaits : (Page κ σ → Prop) → List (Frame κ σ) → Prop where
  | nil {Q : Page κ σ → Prop} : Awaits Q []
  | publish {Q R : Page κ σ → Prop} {bus : BusId} {next : Outcome → Plan κ σ Outcome}
      {rest : List (Frame κ σ)} :
      (∀ a q, Q q → (next a).Careful (fun _ => R) (q.modifyBus bus Registry.leave)) → Awaits R rest →
      Awaits Q (.publish bus next :: rest)
  | dispatch {Q R : Page κ σ → Prop} {e : ElementId} {next : Outcome → Plan κ σ Outcome}
      {rest : List (Frame κ σ)} :
      (∀ a q, Q q → (next a).Careful (fun _ => R) (q.release (.element e))) → Awaits R rest →
      Awaits Q (.dispatch e next :: rest)
  | turns {Q : Page κ σ → Prop} {bus : BusId} {event : String} {generation : Nat} {value : Value}
      {places : List Nat} {rest : List (Frame κ σ)} :
      Stable Q → Awaits Q rest → Awaits Q (.turns bus event generation value places :: rest)
  | handlers {Q : Page κ σ → Prop} {e : ElementId} {handlers : List (Handler κ)}
      {rest : List (Frame κ σ)} :
      Stable Q → (∀ h ∈ handlers, h.writesBack = true) → Awaits Q rest →
      Awaits Q (.handlers e handlers :: rest)

/-- What is under way does no harm from the page on, and when it returns then `Q`. -/
def Focus.Careful (Q : Page κ σ → Prop) : Focus κ σ → Page κ σ → Prop
  | .plan left, p => left.Careful (fun _ => Q) p
  | .announce _ _ _ _ next, p => ∀ a q, p.Sustains q → (next a).Careful (fun _ => Q) q
  | .turns .., p => Q p ∧ Stable Q
  | .handlers _ left, p => Q p ∧ Stable Q ∧ ∀ h ∈ left, h.writesBack = true

def Moment.Careful (S : Moment κ σ) : Prop :=
  ∃ Q : Page κ σ → Prop, S.focus.Careful Q S.page ∧ Awaits Q S.stack

namespace Moment

variable {callbacks : Callbacks κ σ} {S : Moment κ σ} {p : Page κ σ} {stack : List (Frame κ σ)}
  {Q : Page κ σ → Prop}

theorem careful_answer {outcome : Outcome} (hQ : Q p) (h : Awaits Q stack) :
    p.Harmless (answer p outcome stack).page ∧ (answer p outcome stack).Careful := by
  cases h with
  | nil => exact ⟨.refl p, fun _ => True, trivial, .nil⟩
  | publish hnext hrest => exact ⟨.modifyBus p _ fun _ _ _ hl => Or.inl hl, _, hnext outcome p hQ, hrest⟩
  | dispatch hnext hrest => exact ⟨.release p _, _, hnext outcome p hQ, hrest⟩
  | turns hstable hrest =>
    cases outcome with
    | ok u => exact ⟨.refl p, Q, ⟨hQ, hstable⟩, hrest⟩
    | error failure => exact ⟨.refl p, Q, hQ, hrest⟩
  | handlers hstable hback hrest =>
    cases outcome with
    | ok u => exact ⟨.refl p, Q, ⟨hQ, hstable, hback⟩, hrest⟩
    | error failure => exact ⟨.refl p, Q, hQ, hrest⟩

theorem careful_publish {bus : BusId} {event : String} {value : Value}
    {next : Outcome → Plan κ σ Outcome}
    (hnext : ∀ a q, p.Sustains q → (next a).Careful (fun _ => Q) q) (h : Awaits Q stack) :
    p.Harmless (publish p bus event value next stack).page ∧
      (publish p bus event value next stack).Careful := by
  have hback : ∀ outcome, p.Harmless p ∧ (⟨p, .plan (next outcome), stack⟩ : Moment κ σ).Careful :=
    fun outcome => ⟨.refl p, Q, hnext outcome p (.refl p), h⟩
  unfold publish
  split
  · exact hback _
  · rename_i registry hb
    split
    · exact hback _
    · exact hback _
    · rename_i delivery entered he
      obtain ⟨-, -, rfl⟩ := Registry.enter_eq_some he
      have hquiet : p.Harmless (p.modifyBus bus fun _ =>
          { registry with inFlight := registry.inFlight ++ [event] }) := by
        refine .modifyBus p bus fun r hr l hl => ?_
        cases hb.symm.trans hr
        exact Or.inl hl
      refine ⟨hquiet, _, ⟨.refl _, stable_sustains _⟩, .publish (fun a q hq => ?_) h⟩
      have hsame : p.Sustains (q.modifyBus bus Registry.leave) := ⟨hq.held, hq.views⟩
      exact hnext a _ hsame

theorem careful_write {d : Model} {m : ModelId} {key : String} {value : Value}
    {next : Outcome → Plan κ σ Outcome}
    (hnext : ∀ a q, p.Sustains q → (next a).Careful (fun _ => Q) q) (h : Awaits Q stack) :
    p.Harmless (write p d m key value next stack).page ∧
      (write p d m key value next stack).Careful := by
  have hstore := Harmless.store p m key value
  unfold write
  split
  · have hhold : (p.store m key value).Harmless ((p.store m key value).hold (.model m)) :=
      .hold _ (fun e he => nomatch he) fun v hv => nomatch hv
    have hafter : ∀ a q, ((p.store m key value).hold (.model m)).Sustains q →
        (Plan.change (Page.release (.model m)) (next a)).Careful (fun _ => Q) q := by
      intro a q hq
      have hsus : (p.store m key value).Sustains (q.release (.model m)) := hq.release
      exact ⟨.release q _, hnext a _ ⟨hsus.held, hsus.views⟩⟩
    exact ⟨hstore.trans hhold, Q, hafter, h⟩
  · have hafter := hnext (.ok ()) (p.store m key value) (.of_same rfl rfl)
    exact ⟨hstore, Q, hafter, h⟩

theorem careful_listener {l : Listener κ} (hl : l.isBinding = true) (value : Value) (hQ : Q p)
    (hstable : Stable Q) : (l.plan callbacks value).Careful (fun _ => Q) p := by
  have hreceive : p.Harmless (p.receive value l) ∧ Q (p.receive value l) :=
    ⟨.receive p value l, hstable p _ hQ (.receive p value l)⟩
  cases l with
  | callback code => cases hl
  | text e m template names changed => exact hreceive
  | property e name => exact hreceive

theorem careful_handler {handler : Handler κ} (hh : handler.writesBack = true) (e : ElementId)
    (hQ : Q p) (hstable : Stable Q) : (handler.plan callbacks e).Careful (fun _ => Q) p := by
  cases handler with
  | callback code => cases hh
  | writeBack m property key control =>
    have hone : (if p.finds m then Plan.write m.target key (control.coerce (p.property e property)) .done
        else .done (.ok ())).Careful (fun _ => Q) p := by
      split
      · exact fun _ q hq => hstable p q hQ hq
      · exact hQ
    exact hone

theorem isBinding_of_slot? (hp : p.Neat) {bus : BusId} {event : String} {generation i : Nat}
    {l : Listener κ} (h : (p.bus? bus).bind (·.slot? event generation i) = some (some l)) :
    l.isBinding = true := by
  obtain ⟨r, hr, hslot⟩ := Option.bind_eq_some_iff.mp h
  exact hp.quietOn bus r hr event l (Registry.mem_heard_of_slot? hslot)

theorem writesBack_of_handlers (hp : p.Neat) {e : ElementId} {kind : EventKind} :
    ∀ h ∈ p.handlers e kind, h.writesBack = true := by
  intro h hh
  unfold Page.handlers at hh
  split at hh
  · rename_i d hd
    obtain ⟨x, hx, rfl⟩ := List.mem_map.mp hh
    exact Handler.writesBack_of_holdsModel (hp.handlers hd x (List.mem_filter.mp hx).1)
  · cases hh

/-- One step on a neat page. -/
theorem careful_step (callbacks : Callbacks κ σ) (hp : S.page.Neat) (hS : S.Careful) :
    S.page.Harmless (S.step callbacks).2.page ∧ (S.step callbacks).2.Careful := by
  obtain ⟨p, focus, stack⟩ := S
  obtain ⟨Q, hfocus, hstack⟩ := hS
  have hstay : ∀ {focus : Focus κ σ}, focus.Careful Q p →
      p.Harmless p ∧ (⟨p, focus, stack⟩ : Moment κ σ).Careful :=
    fun h => ⟨.refl p, Q, h, hstack⟩
  cases focus with
  | plan plan =>
    cases plan with
    | done outcome =>
      have hQ : Q p := hfocus
      exact careful_answer hQ hstack
    | look next => exact hstay hfocus
    | change f next => exact ⟨hfocus.1, Q, hfocus.2, hstack⟩
    | publish bus event value next =>
      have hnext : ∀ a q, p.Sustains q → (next a).Careful (fun _ => Q) q := hfocus
      exact careful_publish hnext hstack
    | dispatch e kind next =>
      obtain ⟨halive, hnext⟩ := hfocus
      have hhold : p.Harmless (p.hold (.element e)) :=
        .hold p (fun c hc => by cases hc; exact halive) fun v hv => nomatch hv
      have hback : ∀ h ∈ (p.hold (.element e)).handlers e kind, h.writesBack = true :=
        writesBack_of_handlers (hhold hp).2
      refine ⟨hhold, _, ⟨.refl _, stable_sustains _, hback⟩, .dispatch (fun a q hq => ?_) hstack⟩
      exact hnext a _ hq.release
    | write m key value next =>
      have hnext : ∀ a q, p.Sustains q → (next a).Careful (fun _ => Q) q := hfocus
      unfold Moment.step
      dsimp only
      split
      · exact hstay (hnext (.ok ()) p (.refl p))
      · exact careful_write hnext hstack
  | announce m bus event value next =>
    have hnext : ∀ a q, p.Sustains q → (next a).Careful (fun _ => Q) q := hfocus
    exact careful_publish hnext hstack
  | turns bus event generation value places =>
    obtain ⟨hQ, hstable⟩ := hfocus
    cases places with
    | nil => exact hstay hQ
    | cons i rest =>
      unfold Moment.step
      dsimp only
      split
      · exact hstay hQ
      · exact hstay ⟨hQ, hstable⟩
      · rename_i l hslot
        have hl : (l.plan callbacks value).Careful (fun _ => Q) p :=
          careful_listener (isBinding_of_slot? hp hslot) value hQ hstable
        exact ⟨.refl p, Q, hl, .turns hstable hstack⟩
  | handlers e handlers =>
    obtain ⟨hQ, hstable, hback⟩ := hfocus
    cases handlers with
    | nil => exact hstay hQ
    | cons handler rest =>
      have hh : (handler.plan callbacks e).Careful (fun _ => Q) p :=
        careful_handler (hback handler List.mem_cons_self) e hQ hstable
      have hrest : ∀ h ∈ rest, h.writesBack = true := fun h hh => hback h (List.mem_cons_of_mem _ hh)
      exact ⟨.refl p, Q, hh, .handlers hstable hrest hstack⟩

end Moment

end Bindery
