import Bindery.Proofs.Bus.Discipline
import Bindery.Proofs.Engine.Avoiding
import Bindery.Proofs.View.Life
import Bindery.Proofs.View.Tracing

/-!
# Populating that fails

The children of a view are bound one after the other, and the text of a child is rendered by publishing
the values of its keys.  Such a publish fails if the bus refuses it or if a listener fails, whoever that
is.  Then populating stops: the children in front are bound, those behind are as the markup has them,
and the view tells exactly this.

* `Engine.BindsEach`          elements that were bound, one after the other
* `Engine.FailsRendering`     a text that was rendered up to a publish that failed
* `bindChildren_eq_error`     where binding children stops
* `Page.Coming`               the elements that markup will make
* `Page.AsWritten`            an element as the markup has it, to which nothing was bound
* `StoppedAt`, `populate_stops`   where populating stops, and what it leaves
-/

namespace Bindery

variable {κ σ α β γ : Type}

/-! ## Where binding stops -/

namespace Engine

/-- From `p` to `q` the elements were bound one after the other, each to its end.  The lists are the
targets that binding them gave. -/
inductive BindsEach (engine : Engine κ σ) (v : ViewId) (bus : BusId) (m : ModelId) :
    List ElementId → List (List Target) → Page κ σ → Page κ σ → Prop where
  | nil {p : Page κ σ} : BindsEach engine v bus m [] [] p p
  | cons {e : ElementId} {rest : List ElementId} {targets : List Target} {more : List (List Target)}
      {p s q : Page κ σ} : engine.bindElement bus m e p = some (.ok targets, s) →
      BindsEach engine v bus m rest more
        (s.modifyView v fun view => { view with targets := view.targets ++ targets }) q →
      BindsEach engine v bus m (e :: rest) (targets :: more) p q

/-- From `p` to `q` the first keys of a text were rendered, and then the publish of the next one
failed. -/
inductive FailsRendering (engine : Engine κ σ) (bus : BusId) (m : ModelId) (e : ElementId)
    (template : String) (failure : BusError) (p q : Page κ σ) : Prop where
  | publish {front back : List String} {name : String} {any : Bool} {s : Page κ σ} :
      Template.names? template = some (front ++ name :: back) →
      engine.bindSlots bus m e template (front ++ name :: back) front p = some (.ok any, s) →
      s.hasKey m name = true →
      engine.publish bus (s.eventOf m name) (s.valueOf m name) (s.subscribe bus (s.eventOf m name)
        (.text (.weak e) (.weak m) template (front ++ name :: back) name)).2 = some (.error failure, q) →
      FailsRendering engine bus m e template failure p q

variable {engine : Engine κ σ} {v : ViewId} {bus : BusId} {m : ModelId} {e : ElementId}
  {p q : Page κ σ} {failure : BusError}

theorem bindSlots_eq_error {template : String} {all names : List String}
    (h : engine.bindSlots bus m e template all names p = some (.error failure, q)) :
    ∃ front name back any s, names = front ++ name :: back ∧
      engine.bindSlots bus m e template all front p = some (.ok any, s) ∧
      s.hasKey m name = true ∧
      engine.publish bus (s.eventOf m name) (s.valueOf m name) (s.subscribe bus (s.eventOf m name)
        (.text (.weak e) (.weak m) template all name)).2 = some (.error failure, q) := by
  -- along the names: those in front of the one that failed went well
  induction names generalizing p with
  | nil => cases h
  | cons name rest ih =>
    cases hk : p.hasKey m name with
    | false =>
      rw [bindSlots_cons_of_not_key hk] at h
      obtain ⟨front, last, back, any, s, rfl, hfront, hlast⟩ := ih h
      refine ⟨name :: front, last, back, any, s, rfl, ?_, hlast⟩
      rw [bindSlots_cons_of_not_key hk]
      exact hfront
    | true =>
      rw [bindSlots_cons_of_key hk] at h
      obtain ⟨outcome, t, ht, hrest⟩ := Run.bind_eq_some.mp h
      cases outcome with
      | error failure' =>
        cases hrest
        exact ⟨[], name, rest, false, p, rfl, rfl, hk, ht⟩
      | ok u =>
        obtain ⟨bound, t', hbound, hend⟩ := Run.bind_eq_some.mp hrest
        cases bound with
        | ok any => cases hend
        | error failure' =>
          cases hend
          obtain ⟨front, last, back, any, s, rfl, hfront, hlast⟩ := ih hbound
          refine ⟨name :: front, last, back, true, s, rfl, ?_, hlast⟩
          rw [bindSlots_cons_of_key hk]
          exact (Run.bind_of_eq ht _).trans (Run.bind_of_eq hfront _)

theorem failsRendering_of_bindElement
    (h : engine.bindElement bus m e p = some (.error failure, q)) :
    ∃ t, engine.FailsRendering bus m e (p.textContent e) failure
        ((p.hold (.element e)).hold (.model m)) t ∧
      q = (t.release (.model m)).release (.element e) := by
  obtain ⟨q₁, h₁, rfl⟩ := Run.holding_eq_some.mp h
  obtain ⟨t, h₂, rfl⟩ := Run.holding_eq_some.mp h₁
  refine ⟨t, ?_, rfl⟩
  obtain ⟨text, t', htext, hend⟩ := Run.bind_eq_some.mp h₂
  cases text with
  | ok text => cases hend
  | error failure' =>
    cases hend
    rw [bindText, Run.get_bind] at htext
    unfold Page.textOf? at htext
    rw [Page.textContent_hold, Page.textContent_hold] at htext
    by_cases hempty : p.textContent e = ""
    · rw [if_pos hempty] at htext
      cases htext
    rw [if_neg hempty] at htext
    dsimp only at htext
    cases hn : Template.names? (p.textContent e) with
    | none =>
      rw [hn] at htext
      cases htext
    | some names =>
      rw [hn] at htext
      obtain ⟨bound, t'', hbound, hlast⟩ := Run.bind_eq_some.mp htext
      cases bound with
      | ok any => cases hlast
      | error failure'' =>
        cases hlast
        obtain ⟨front, name, back, any, s, rfl, hfront, hk, hpublish⟩ := bindSlots_eq_error hbound
        exact .publish hn hfront hk hpublish

/-- Children whose binding fails fail at one of them, and those in front of it were bound. -/
theorem bindChildren_eq_error {es : List ElementId}
    (h : engine.bindChildren v bus m es p = some (.error failure, q)) :
    ∃ front e rest targets s, es = front ++ e :: rest ∧
      engine.BindsEach v bus m front targets p s ∧
      engine.bindElement bus m e s = some (.error failure, q) := by
  induction es generalizing p with
  | nil => cases h
  | cons x es ih =>
    obtain ⟨bound, t, hbind, hrest⟩ := Run.bind_eq_some.mp h
    cases bound with
    | error failure' =>
      cases hrest
      exact ⟨[], x, es, [], p, rfl, .nil, hbind⟩
    | ok targets =>
      obtain ⟨front, e, rest, more, s, rfl, hfront, hlast⟩ := ih hrest
      exact ⟨x :: front, e, rest, targets :: more, s, rfl, .cons hbind hfront, hlast⟩

namespace BindsEach

variable {es : List ElementId} {targets : List (List Target)}

theorem run (h : engine.BindsEach v bus m es targets p q) :
    engine.bindChildren v bus m es p = some (.ok (), q) := by
  induction h with
  | nil => rfl
  | cons hbind _ ih => exact (Run.bind_of_eq hbind _).trans ih

theorem view? {callbacks : Callbacks κ σ} {frames : Nat} {w : View}
    (h : (ofFrames callbacks frames).BindsEach v bus m es targets p q) (hw : p.view? v = some w)
    (hstands : w.state.stands) :
    q.view? v = some { w with targets := w.targets ++ targets.flatten } := by
  induction h generalizing w with
  | nil =>
    rw [List.flatten_nil, List.append_nil]
    exact hw
  | @cons e rest targets more p s q hbind _ ih =>
    have hspared := spared_bindElement hw hstands (callbacks.asksFor_none v) hbind
    have hnext := Page.view?_modifyView_self (hspared.view hw)
      fun view => { view with targets := view.targets ++ targets }
    rw [ih hnext hstands, List.flatten_cons, List.append_assoc]

end BindsEach

end Engine

/-! ## The moments of populating -/

namespace Routine

theorem bind_assoc (routine : Routine κ σ α) (f : α → Routine κ σ β) (g : β → Routine κ σ γ) :
    (routine.bind f).bind g = routine.bind fun a => (f a).bind g := by
  induction routine with
  | done a => rfl
  | look next ih => simp only [bind, ih]
  | change h next ih => simp only [bind, ih]
  | publish bus event value next ih => simp only [bind, ih]
  | dispatch e kind next ih => simp only [bind, ih]

theorem bindChildren_append (v : ViewId) (bus : BusId) (m : ModelId) (front rest : List ElementId) :
    (bindChildren v bus m (front ++ rest) : Routine κ σ Outcome)
      = (bindChildren v bus m front).bind fun outcome =>
          match outcome with
          | .ok () => bindChildren v bus m rest
          | .error failure => done (.error failure) := by
  induction front with
  | nil => rfl
  | cons e front ih =>
    show (bindElement bus m e).bind _ = ((bindElement bus m e).bind _).bind _
    rw [bind_assoc]
    refine congrArg (bindElement bus m e).bind (funext fun bound => ?_)
    cases bound with
    | error failure => rfl
    | ok targets =>
      show change _ (bindChildren v bus m (front ++ rest))
        = change _ ((bindChildren v bus m front).bind _)
      rw [ih]

end Routine

namespace Stage

variable {callbacks : Callbacks κ σ} {n : Nat} {s : List (BusId × String)} {p : Page κ σ} {v : ViewId}
  {view : View}

theorem reach_furnish (hv : p.view? v = some view)
    (hstate : view.state ∈ [ViewState.uninitialized, .fetching]) (markup : String) :
    ∃ next : Outcome → Routine κ σ (Except ViewError Unit),
      Reach callbacks ⟨n, s, .routine (.populate v markup), p⟩
        ⟨n, s, .routine ((Routine.bindChildren v view.bus view.model
          ((p.furnish v view markup).childElements view.container)).bind next),
          p.furnish v view markup⟩ := by
  have hallowed : Engine.allowed "populate" [.uninitialized, .fetching] view = .ok () :=
    if_pos hstate
  have hlook : Reach callbacks ⟨n, s, .routine (.populate v markup), p⟩
      ⟨n, s, .routine (Routine.holding (.view v) (Routine.fillContainer v view markup)), p⟩ := by
    refine .head (.look _) ?_
    simp only [Routine.bind, hv, hallowed]
    exact .refl
  obtain ⟨f, g, hfill⟩ : ∃ f g, Reach callbacks
      ⟨n, s, .routine (Routine.holding (.view v) (Routine.fillContainer v view markup)), p⟩
      ⟨n, s, .routine (((Routine.bindChildren v view.bus view.model
        ((p.furnish v view markup).childElements view.container)).bind f).bind g),
        p.furnish v view markup⟩ :=
    ⟨_, _, .head (.change _ _) (.head (.change _ _) (.head (.look _) (.single (.change _ _))))⟩
  rw [Routine.bind_assoc] at hfill
  exact ⟨_, hlook.trans hfill⟩

end Stage

namespace Engine

variable {callbacks : Callbacks κ σ} {own : ElementId → Prop} {n : Nat} {s : List (BusId × String)}
  {start p q : Page κ σ} {v : ViewId} {bus : BusId} {m : ModelId} {next : Outcome → Routine κ σ α}

/-- Binding the first part of a row leaves other elements alone, and comes to where the rest is
bound. -/
theorem BindsEach.untouched {front rest : List ElementId} {targets : List (List Target)}
    (h : (ofFrames callbacks n).BindsEach v bus m front targets p q)
    (hS : Stage.Avoids callbacks own
      ⟨n, s, .routine ((Routine.bindChildren v bus m (front ++ rest)).bind next), p⟩)
    (hfront : ∀ x ∈ front, ¬ own x) (hp : start.Untouched own p) :
    start.Untouched own q ∧ Stage.Avoids callbacks own
      ⟨n, s, .routine ((Routine.bindChildren v bus m rest).bind next), q⟩ := by
  have hrun := h.run
  rw [← Routine.run_bindChildren] at hrun
  rw [Routine.bindChildren_append, Routine.bind_assoc] at hS
  exact ⟨(heeds_ofFrames callbacks own start n).routine hS (Routine.keeps_bindChildren hfront hp) hrun,
    hS.of_reach (reach_of_run _ hrun)⟩

theorem untouched_bindElement {e : ElementId} {rest : List ElementId}
    {outcome : Except BusError (List Target)}
    (h : (ofFrames callbacks n).bindElement bus m e p = some (outcome, q))
    (hS : Stage.Avoids callbacks own
      ⟨n, s, .routine ((Routine.bindChildren v bus m (e :: rest)).bind next), p⟩)
    (he : ¬ own e) (hp : start.Untouched own p) : start.Untouched own q := by
  rw [← Routine.run_bindElement] at h
  change Stage.Avoids callbacks own
    ⟨n, s, .routine (((Routine.bindElement bus m e).bind _).bind next), p⟩ at hS
  rw [Routine.bind_assoc] at hS
  exact (heeds_ofFrames callbacks own start n).routine hS (Routine.keeps_bindElement he hp) h

end Engine

/-! ## The new elements -/

namespace ElementId

def Between (x : ElementId) (lo hi : Nat) : Prop := lo ≤ x.index ∧ x.index < hi

variable {lo mid hi : Nat} {x : ElementId}

theorem Between.mono (hlo : lo ≤ mid) (h : x.Between mid hi) : x.Between lo hi :=
  ⟨Nat.le_trans hlo h.1, h.2⟩

theorem not_between (h : x.index < lo) : ¬ x.Between lo hi := fun hx => Nat.not_lt.mpr hx.1 h

end ElementId

namespace Page

variable {p q : Page κ σ} {v : ViewId} {view : View}

/-- The element is one of those that the markup will make. -/
def Coming (p : Page κ σ) (markup : String) (x : ElementId) : Prop :=
  x.Between p.elements.size (p.elements.size + (Fragment.ofText markup).descendants.length)

theorem size_furnish {box : PageElement κ} (hbox : p.element? view.container = some box)
    (markup : String) :
    (p.furnish v view markup).elements.size
      = p.elements.size + (Fragment.ofText markup).descendants.length := by
  show ((p.hold (.view v)).setMarkup view.container markup).elements.size = _
  rw [setMarkup_of_some (p := p.hold (.view v)) hbox, size_modifyElement, size_graft]
  rfl

theorem untouched_furnish {box : PageElement κ} {markup : String}
    (hbox : p.element? view.container = some box)
    (hspares : ∀ {b r}, p.bus? b = some r → ∀ x, p.Coming markup x → r.Spares x) :
    (p.furnish v view markup).Untouched (p.Coming markup) (p.furnish v view markup) := by
  refine .refl (fun x hx => ⟨_, Array.getElem?_eq_getElem ?_⟩) fun b r hr x hx => ?_
  · rw [size_furnish hbox]
    exact hx.2
  · rw [bus?_of_buses (buses_furnish p v view markup)] at hr
    exact hspares hr x hx

/-- The element is as the markup has it, and nothing was bound to it. -/
structure AsWritten (q : Page κ σ) (x : ElementId) (c : Face) : Prop where
  attributes : (q.element? x).map PageElement.attributes = some c.attributes
  text : q.textContent x = c.text
  handlers : (q.element? x).map PageElement.handlers = some []
  spares : ∀ {b r}, q.bus? b = some r → r.Spares x

theorem Untouched.asWritten {start : Page κ σ} {f : Fragment Unit} {row : List Child} {lo hi : Nat}
    (h : start.Untouched (·.Between lo hi) q) (hlaid : Laid start f row lo hi)
    (hsize : hi ≤ start.elements.size) :
    List.Forall₂ q.AsWritten (row.filterMap Child.element?) f.faces := by
  have hq := h.laid hlaid fun x hlo hhi => ⟨hlo, hhi⟩
  have hrow : ∀ x ∈ row.filterMap Child.element?,
      (q.element? x).map PageElement.handlers = some [] ∧ ∀ {b r}, q.bus? b = some r → r.Spares x := by
    intro x hx
    have hchild := Child.mem_elements.mp hx
    exact ⟨hq.handlers hchild, fun hr => h.spares hr (hq.bounds hchild).1⟩
  have hboth := (List.forall₂_and_left _ _).mpr ⟨hrow, hq.faces (Nat.le_trans hsize h.size)⟩
  exact hboth.imp fun x c hx => ⟨hx.2.1, hx.2.2, hx.1.1, hx.1.2⟩

end Page

namespace Engine

open Page ElementId

variable {callbacks : Callbacks κ σ} {n : Nat} {l : List (BusId × String)} {start s t : Page κ σ}
  {v : ViewId} {bus : BusId} {m : ModelId} {next : Outcome → Routine κ σ α} {f : Fragment Unit}
  {row : List Child} {lo hi : Nat} {front rest : List ElementId} {e : ElementId}
  {targets : List (List Target)}

/-- When the turn of a child comes it is as the markup has it. -/
theorem asWritten_of_bindsEach (hlaid : Laid start f row lo hi) (hsize : hi ≤ start.elements.size)
    (hrow : row.filterMap Child.element? = front ++ e :: rest)
    (hstart : start.Untouched (·.Between lo hi) start)
    (hS : Stage.Avoids callbacks (·.Between lo hi)
      ⟨n, l, .routine ((Routine.bindChildren v bus m (front ++ e :: rest)).bind next), start⟩)
    (hfront : (ofFrames callbacks n).BindsEach v bus m front targets start s) :
    ∃ c, f.faces[front.length]? = some c ∧ s.AsWritten e c := by
  obtain ⟨f', row', mid, hlaid', hrow', hfaces, hlo, hbefore⟩ := hlaid.behind hrow
  have hin : ∀ x : ElementId, x.Between mid hi → x.Between lo hi := fun _ => .mono hlo
  obtain ⟨hs, -⟩ := hfront.untouched (hS.mono hin) (fun x hx => not_between (hbefore x hx))
    (hstart.mono hin)
  have hwritten := hs.asWritten hlaid' hsize
  rw [hrow', hfaces] at hwritten
  obtain ⟨c, cs, hc, -, hcs⟩ := List.forall₂_cons_left_iff.mp hwritten
  refine ⟨c, ?_, hc⟩
  rw [← List.head?_drop, hcs]
  rfl

theorem untouched_behind (hlaid : Laid start f row lo hi)
    (hrow : row.filterMap Child.element? = front ++ e :: rest)
    (hstart : start.Untouched (·.Between lo hi) start)
    (hS : Stage.Avoids callbacks (·.Between lo hi)
      ⟨n, l, .routine ((Routine.bindChildren v bus m (front ++ e :: rest)).bind next), start⟩)
    (hfront : (ofFrames callbacks n).BindsEach v bus m front targets start s)
    {outcome : Except BusError (List Target)}
    (hbind : (ofFrames callbacks n).bindElement bus m e s = some (outcome, t)) :
    ∃ f' row' mid, Laid start f' row' mid hi ∧ row'.filterMap Child.element? = rest ∧
      f'.faces = f.faces.drop (front.length + 1) ∧ start.Untouched (·.Between mid hi) t := by
  have hsplit : row.filterMap Child.element? = (front ++ [e]) ++ rest := by
    rw [hrow, List.append_assoc, List.singleton_append]
  -- what stands behind `e` was made after it
  obtain ⟨f', row', mid, hlaid', hrow', hfaces, hlo, hbefore⟩ := hlaid.behind hsplit
  rw [List.length_append, List.length_singleton] at hfaces
  have hin : ∀ x : ElementId, x.Between mid hi → x.Between lo hi := fun _ => .mono hlo
  obtain ⟨hs, hS'⟩ := hfront.untouched (hS.mono hin)
    (fun x hx => not_between (hbefore x (List.mem_append_left _ hx))) (hstart.mono hin)
  have he : ¬ e.Between mid hi :=
    not_between (hbefore e (List.mem_append_right _ List.mem_cons_self))
  exact ⟨f', row', mid, hlaid', hrow', hfaces, untouched_bindElement hbind hS' he hs⟩

theorem populate_eq_error {engine : Engine κ σ} {view : View} {markup : String} {failure : BusError}
    {p q : Page κ σ} (hv : p.view? v = some view)
    (h : engine.populate v markup p = some (.error (.bus failure), q)) :
    view.state ∈ [ViewState.uninitialized, .fetching] ∧
      ∃ t, engine.bindChildren v view.bus view.model
          ((p.furnish v view markup).childElements view.container) (p.furnish v view markup)
            = some (.error failure, t) ∧
        q = (t.modifyView v fun w => { w with state := .errored }).release (.view v) := by
  by_cases hstate : view.state ∈ [ViewState.uninitialized, .fetching]
  · refine ⟨hstate, ?_⟩
    rw [populate_of_waiting hv hstate] at h
    obtain ⟨answer, s, hfill, hend⟩ := Run.bind_eq_some.mp h
    obtain ⟨outcome, t, hbind, hlast⟩ := Run.bind_eq_some.mp hfill
    cases hend
    cases outcome with
    | ok u => cases hlast
    | error failure' =>
      cases hlast
      exact ⟨t, hbind, rfl⟩
  · cases (populate_of_refused hv hstate markup).symm.trans h

end Engine

/-! ## Where populating stops -/

/-- From `p` to `q` populating a view stopped at its child `e`, with the children `front` in front of it
and `rest` behind it. -/
structure StoppedAt (engine : Engine κ σ) (v : ViewId) (view : View) (markup : String)
    (failure : BusError) (p q : Page κ σ) (front : List ElementId) (e : ElementId)
    (rest : List ElementId) (targets : List (List Target)) : Prop where
  /-- The markup stood in the container as a row of new elements and texts, and the children are the
  elements of the row, in order. -/
  children : ∃ row, (p.furnish v view markup).childElements view.container = front ++ e :: rest ∧
    row.filterMap Child.element? = front ++ e :: rest ∧
    Page.Laid (p.furnish v view markup) (Fragment.ofText markup) row p.elements.size
      (p.furnish v view markup).elements.size
  /-- Those in front were bound.  Then the text of `e`, which was as the markup has it, was rendered up
  to a publish that failed; and after that nothing was done but to let go and to mark the view. -/
  stopped : ∃ s t c, engine.BindsEach v view.bus view.model front targets (p.furnish v view markup) s ∧
    (Fragment.ofText markup).faces[front.length]? = some c ∧ s.AsWritten e c ∧
    engine.FailsRendering view.bus view.model e c.text failure
      ((s.hold (.element e)).hold (.model view.model)) t ∧
    q = (((t.release (.model view.model)).release (.element e)).modifyView v
      fun w => { w with state := .errored }).release (.view v)
  /-- The view has all the children, and the targets of those in front. -/
  view : q.view? v = some { view with
    state := .errored, children := front ++ e :: rest, targets := targets.flatten }
  /-- Those behind are as the markup has them, and nothing was bound to them. -/
  behind : List.Forall₂ q.AsWritten rest ((Fragment.ofText markup).faces.drop (front.length + 1))
  inFlight : ∀ {b r}, p.bus? b = some r → ∃ r', q.bus? b = some r' ∧ r'.inFlight = r.inFlight

open Page in
/-- Populating that fails stops at one child, whatever else listens, as long as that keeps off the new
elements. -/
theorem populate_stops {callbacks : Callbacks κ σ} {frames : Nat} {v : ViewId} {view : View}
    {bus : BusId} {request : ViewRequest} {turns : List (Turn κ σ)} {box : PageElement κ}
    {markup : String} {failure : BusError} {before opened p q : Page κ σ}
    (hopen : before.openView bus request = (.ok v, opened)) (hlife : Life callbacks v opened turns p)
    (hv : p.view? v = some view) (hbox : p.element? view.container = some box)
    (hspares : ∀ {b r}, p.bus? b = some r → ∀ x, p.Coming markup x → r.Spares x)
    (havoids : Stage.Avoids callbacks (p.Coming markup) ⟨frames, [], .routine (.populate v markup), p⟩)
    (h : (Engine.ofFrames callbacks frames).populate v markup p = some (.error (.bus failure), q)) :
    ∃ front e rest targets,
      StoppedAt (Engine.ofFrames callbacks frames) v view markup failure p q front e rest targets := by
  obtain ⟨hstate, t, hbind, rfl⟩ := Engine.populate_eq_error hv h
  obtain ⟨front, e, rest, targets, s, hchildren, hfront, hfail⟩ := Engine.bindChildren_eq_error hbind
  -- on the way from one moment to the next nothing writes to a child that was not bound yet
  obtain ⟨next, hreach⟩ := Stage.reach_furnish (n := frames) (s := []) hv hstate markup
  have hS := havoids.of_reach hreach
  have hstart : (p.furnish v view markup).Untouched (p.Coming markup) (p.furnish v view markup) :=
    untouched_furnish hbox hspares
  obtain ⟨row, hrow, hlaid, -, -, -⟩ := laid_furnish hv hbox markup
  rw [hchildren] at hS hrow
  unfold Coming at hS hstart
  rw [← size_furnish (v := v) hbox markup] at hS hstart
  obtain ⟨c, hc, hwritten⟩ :=
    Engine.asWritten_of_bindsEach hlaid (Nat.le_refl _) hrow.symm hstart hS hfront
  obtain ⟨f', row', mid, hlaid', hrow', hfaces, hbehind⟩ :=
    Engine.untouched_behind hlaid hrow.symm hstart hS hfront hfail
  obtain ⟨u, hrender, hlast⟩ := Engine.failsRendering_of_bindElement hfail
  -- what the view tells
  have hempty : view.targets = [] := by
    obtain ⟨plan, model, -, hborn⟩ := view?_of_openView hopen
    obtain ⟨⟨w, hw, hreached⟩, -⟩ := hlife.reached hborn rfl
    cases hv.symm.trans hw
    exact (hreached.empty (hreached.waiting fun hs => hs hstate)).2.1
  have hstands : ViewState.populated.stands := by decide
  have hviewed := hfront.view? (view?_furnish_self hv) hstands
  have hspared := Engine.spared_bindElement hviewed hstands (callbacks.asksFor_none v) hfail
  refine ⟨front, e, rest, targets, ⟨row, hchildren, hrow.symm, hlaid⟩, ?_, ?_, ?_, fun hr => ?_⟩
  · rw [hwritten.text] at hrender
    exact ⟨s, u, c, hfront, hc, hwritten, hrender, by rw [hlast]⟩
  · refine (view?_modifyView_self (hspared.view hviewed) _).trans ?_
    rw [hchildren, hempty, List.nil_append]
  · have hend : (p.furnish v view markup).Untouched
        (·.Between mid (p.furnish v view markup).elements.size)
        ((t.modifyView v fun w => { w with state := .errored }).release (.view v)) :=
      hbehind.of_same rfl rfl
    have hforall := hend.asWritten hlaid' (Nat.le_refl _)
    rw [hrow', hfaces] at hforall
    exact hforall
  · have hflight := (Engine.balanced_ofFrames callbacks frames).routine
      (Call.populate v markup).balanced_routine ((congrFun (Routine.run_populate _ v markup) p).trans h)
    obtain ⟨r', hr', -, hinFlight⟩ := flight?_eq_some.mp (hflight.flight (flight?_of_bus? hr))
    exact ⟨r', hr', hinFlight⟩

/-! A listener that publishes the event that it is called for. -/

/-- An empty container, and a bus on which that listener waits for `b`. -/
def echoPage : Page String Unit where
  buses := #[({ maxDepth := 8 } : Registry (Listener String)).addAll
    [("m.b:change", .callback "m.b:change")]]
  elements := #[{ tag := "div" }]
  host := ()

def echoRequest : ViewRequest where
  container? := some (.element ⟨0⟩)
  data? := some (.record [("a", .text "1"), ("b", .text "2")])
  path? := some "t.html"
  model? := some "m"

def echoMarkup : String := "<p>${a}</p><p id=\"i\">${a} ${b}</p><p>${b}</p>"

def busFailure? : Except ViewError Unit → Option BusError
  | .error (.bus failure) => some failure
  | _ => none

theorem eq_of_busFailure? {answer : Except ViewError Unit} {failure : BusError}
    (h : busFailure? answer = some failure) : answer = .error (.bus failure) := by
  unfold busFailure? at h
  split at h
  · cases h
    rfl
  · cases h

/-- The publish that renders `b` in the second child comes back as a cycle.  The view has its three
children, and the target of the first one. -/
theorem populate_stops_at_second :
    ∃ opened view q front e rest targets,
      echoPage.openView ⟨0⟩ echoRequest = (.ok ⟨0⟩, opened) ∧ opened.view? ⟨0⟩ = some view ∧
      (Engine.ofFrames relaying 4).populate ⟨0⟩ echoMarkup opened
        = some (.error (.bus (.cycle "m.b:change" ["m.b:change"])), q) ∧
      (q.view? ⟨0⟩).map (fun w => (w.state, w.children, w.targets))
        = some (.errored, [⟨1⟩, ⟨2⟩, ⟨3⟩], [⟨⟨1⟩, .text, "${a}", ["a"]⟩]) ∧
      StoppedAt (Engine.ofFrames relaying 4) ⟨0⟩ view echoMarkup
        (.cycle "m.b:change" ["m.b:change"]) opened q front e rest targets := by
  have hopen : echoPage.openView ⟨0⟩ echoRequest
      = (.ok ⟨0⟩, (echoPage.openView ⟨0⟩ echoRequest).2) := rfl
  have hrun : ((Engine.ofFrames relaying 4).populate ⟨0⟩ echoMarkup
      (echoPage.openView ⟨0⟩ echoRequest).2).map (fun a => (busFailure? a.1,
        (a.2.view? ⟨0⟩).map fun w => (w.state, w.children, w.targets)))
      = some (some (.cycle "m.b:change" ["m.b:change"]),
        some (.errored, [⟨1⟩, ⟨2⟩, ⟨3⟩], [⟨⟨1⟩, .text, "${a}", ["a"]⟩])) := by decide +kernel
  obtain ⟨⟨answer, q⟩, hpopulate, hreport⟩ := Option.map_eq_some_iff.mp hrun
  obtain ⟨hanswer, hview⟩ := Prod.mk.inj hreport
  cases eq_of_busFailure? hanswer
  have hspares : ∀ {b r}, (echoPage.openView ⟨0⟩ echoRequest).2.bus? b = some r →
      ∀ x, (echoPage.openView ⟨0⟩ echoRequest).2.Coming echoMarkup x → r.Spares x := by
    intro b r hr x _
    have hbus : #[({ maxDepth := 8 } : Registry (Listener String)).addAll
        [("m.b:change", .callback "m.b:change")]][b.index]? = some r := hr
    rw [List.getElem?_toArray, List.getElem?_singleton] at hbus
    split at hbus
    · cases hbus
      refine Registry.spares_addAll (fun _ _ hl => absurd hl List.not_mem_nil) fun l hl => ?_
      rw [List.mem_singleton.mp hl]
      exact ⟨rfl, rfl⟩
    · cases hbus
  have hkeeps : relaying.Tame fun c => ∀ p : Page String Unit,
      c.Avoids ((echoPage.openView ⟨0⟩ echoRequest).2.Coming echoMarkup) p :=
    ⟨fun _ _ => ⟨fun _ => trivial, fun _ => trivial⟩, fun _ _ => trivial⟩
  obtain ⟨front, e, rest, targets, hstopped⟩ := populate_stops hopen .opened rfl rfl hspares
    (Stage.avoids_of_tame hkeeps _) hpopulate
  exact ⟨_, _, q, front, e, rest, targets, hopen, rfl, hpopulate, hview, hstopped⟩

end Bindery
