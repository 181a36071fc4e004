import Bindery.Proofs.Binding.Tying
import Bindery.Proofs.Page.Flights
import Bindery.Proofs.Page.Trees
import Bindery.Proofs.View.Populating

/-!
# Bindings alone never fail

Nothing that binding installs publishes when it is called by a bus.  So on buses without other
listeners deliveries do not nest, and whatever is called from outside finds nothing in flight.

* `Page.Calm`             the buses on which this is so
* `Call.Fits`             calls that install no other listeners there
* `Call.Succeeds`         a call that ended well
* `call_succeeds`         one of these calls ends well, and the buses stay calm
* `bindings_never_fail`   so do all of them, one after the other
* `acyclic_of_attained`   a page of trees stays one
-/

namespace Bindery

variable {κ σ : Type}

/-! ## Calm buses -/

namespace Registry

theorem mem_heard_of_remove {L : Type} {r : Registry L} {place : Registration} {event : String} {l : L}
    (hl : l ∈ (r.remove place).heard event) : l ∈ r.heard event := by
  refine mem_heard.mpr ?_
  rw [mem_heard, slotsOf_remove] at hl
  split at hl
  · split at hl
    · cases hl
    · exact (List.mem_or_eq_of_mem_set hl).resolve_right (Option.some_ne_none l)
  · exact hl

theorem Quiet.remove {r : Registry (Listener κ)} (h : r.Quiet) (place : Registration) :
    (r.remove place).Quiet := fun event l hl => h event l (mem_heard_of_remove hl)

theorem Calm.remove {r : Registry (Listener κ)} (h : r.Calm) (place : Registration) :
    (r.remove place).Calm where
  quiet := h.quiet.remove place
  idle := (r.inFlight_remove place).trans h.idle
  room := by
    rw [r.maxDepth_remove place]
    exact h.room

theorem Calm.clear {r : Registry (Listener κ)} (h : r.Calm) : r.clear.Calm where
  quiet _ _ hl := absurd hl List.not_mem_nil
  idle := h.idle
  room := h.room

end Registry

namespace Page

variable {b : BusId} {m : ModelId} {e : ElementId} {p q s : Page κ σ}

/-- From `p` to `q` buses stay calm, views stay, and a page of trees stays one. -/
structure KeepsCalm (p q : Page κ σ) : Prop where
  calmOn : ∀ {b}, p.CalmOn b → q.CalmOn b
  views : q.views.size = p.views.size
  acyclic : p.Acyclic → q.Acyclic

namespace KeepsCalm

theorem refl (p : Page κ σ) : p.KeepsCalm p := ⟨id, rfl, id⟩

theorem trans (h : p.KeepsCalm q) (k : q.KeepsCalm s) : p.KeepsCalm s :=
  ⟨fun hp => k.calmOn (h.calmOn hp), k.views.trans h.views, fun hp => k.acyclic (h.acyclic hp)⟩

theorem of_buses (hb : q.buses = p.buses) (hv : q.views.size = p.views.size)
    (hc : NoNewChildren p q) : p.KeepsCalm q :=
  ⟨fun {b} hp r hr => hp r ((bus?_of_buses hb b).symm.trans hr), hv, fun hp => hp.of_noNewChildren hc⟩

theorem of_same (hb : q.buses = p.buses) (hv : q.views.size = p.views.size)
    (he : q.elements = p.elements) : p.KeepsCalm q :=
  .of_buses hb hv (noNewChildren_of_elements he)

theorem modifyBus (p : Page κ σ) (b : BusId) {f : Registry (Listener κ) → Registry (Listener κ)}
    (hf : ∀ r, r.Calm → (f r).Calm) : p.KeepsCalm (p.modifyBus b f) := by
  refine ⟨fun {c} hp r hr => ?_, rfl, fun hp => hp.of_elements rfl⟩
  rw [bus?_modifyBus] at hr
  split at hr
  · obtain ⟨r₀, hr₀, rfl⟩ := Option.map_eq_some_iff.mp hr
    exact hf r₀ (hp r₀ hr₀)
  · exact hp r hr

theorem modifyView (p : Page κ σ) (v : ViewId) (f : View → View) : p.KeepsCalm (p.modifyView v f) :=
  of_same rfl Array.size_modify rfl

theorem of_tied (h : Tied b m e p q) : p.KeepsCalm q :=
  ⟨h.calmOn, by rw [h.rest], fun hp => hp.of_noNewChildren h.children⟩

theorem of_wrote {key : String} {value : Value} {ls : List (Listener κ)}
    (h : Wrote m key value ls p q) : p.KeepsCalm q :=
  of_buses (by rw [h.rest]; rfl) (by rw [h.rest]; rfl) h.children

theorem setMarkup (p : Page κ σ) (e : ElementId) (markup : String) :
    p.KeepsCalm (p.setMarkup e markup) where
  calmOn {b} hp r hr := by
    rw [setMarkup_eq] at hr
    exact hp r hr
  views := by rw [setMarkup_eq]
  acyclic hp := hp.setMarkup e markup

theorem request (p : Page κ σ) (shelf : ShelfId) (path : String) :
    p.KeepsCalm (p.request shelf path).2 := by
  rw [request_eq]
  exact of_same rfl rfl rfl

end KeepsCalm

theorem view?_request (p : Page κ σ) (shelf : ShelfId) (path : String) (v : ViewId) :
    (p.request shelf path).2.view? v = p.view? v := by
  rw [request_eq]
  rfl

theorem answer_request (h : q.shelves = p.shelves) (shelf : ShelfId) (path : String) :
    (q.request shelf path).1 = (p.request shelf path).1 := by
  unfold request shelf?
  rw [h]
  split <;> rfl

/-- A set of buses on which nothing but bindings listens and nothing is in flight. -/
def Calm (home : BusId → Prop) (p : Page κ σ) : Prop := ∀ b, home b → p.CalmOn b

theorem KeepsCalm.calm {home : BusId → Prop} (h : p.KeepsCalm q) (hp : p.Calm home) :
    q.Calm home := fun b hb => h.calmOn (hp b hb)

namespace Calm

variable {home : BusId → Prop}

theorem of_buses (h : p.Calm home) (hb : q.buses = p.buses) : q.Calm home := by
  intro b hhome r hr
  exact h b hhome r ((bus?_of_buses hb b).symm.trans hr)

theorem addBus (h : p.Calm home) {maxDepth : Nat} (hroom : home ⟨p.buses.size⟩ → 1 ≤ maxDepth) :
    (p.addBus maxDepth).2.Calm home := by
  intro b hhome r hr
  have hr' : (p.buses.push { maxDepth })[b.index]? = some r := hr
  rw [Array.getElem?_push] at hr'
  split at hr'
  · rename_i hlast
    cases hr'
    have hb : b = ⟨p.buses.size⟩ := congrArg BusId.mk hlast
    exact ⟨fun _ _ hl => absurd hl List.not_mem_nil, rfl, hroom (hb ▸ hhome)⟩
  · exact h b hhome r hr'

theorem subscribe (h : p.Calm home) {b : BusId} (hb : ¬ home b) (event : String) (code : κ) :
    (p.subscribe b event (.callback code)).2.Calm home := by
  intro c hc r hr
  have hne : b ≠ c := fun hbc => hb (hbc ▸ hc)
  refine h c hc r ?_
  cases hbus : p.bus? b with
  | none =>
    rw [subscribe_of_none hbus] at hr
    exact hr
  | some r₀ =>
    rw [subscribe_of_some hbus] at hr
    exact (bus?_modifyBus_of_ne hne _).symm.trans hr

end Calm

def IsBound (v : ViewId) (p : Page κ σ) : Prop :=
  ∃ view, p.view? v = some view ∧ view.state = .bound

/-- A model announces its writes on one of these buses. -/
def AtHome (home : BusId → Prop) (p : Page κ σ) (m : ModelId) : Prop :=
  ∀ d, p.model? m = some d → home d.bus

/-- The handler writes back to a model that announces its writes there. -/
def WritesHome (home : BusId → Prop) (p : Page κ σ) : Handler κ → Prop
  | .writeBack m _ _ _ => p.AtHome home m.target
  | .callback _ => False

theorem AtHome.of_wrote {home : BusId → Prop} {m n : ModelId} {d : Model} {key : String}
    {value : Value} {ls : List (Listener κ)} (hm : p.model? m = some d)
    (hw : Wrote m key value ls p q) (h : p.AtHome home n) : q.AtHome home n := by
  intro d' hd'
  rw [hw.model?] at hd'
  by_cases hmn : m = n
  · subst hmn
    cases (model?_store_self hm key value).symm.trans hd'
    exact h d hm
  · exact h d' ((model?_store_of_ne hmn key value).symm.trans hd')

end Page

/-! ## What is called on a calm page -/

namespace Engine

open Page

variable {home : BusId → Prop} {p : Page κ σ} (callbacks : Callbacks κ σ)

theorem write_of_calm (hp : p.Calm home) {m : ModelId} (hm : p.AtHome home m) (key : String)
    (value : Value) :
    ∃ q, (∀ n, (ofFrames callbacks (n + 1)).write m key value p = some (.ok (), q)) ∧
      p.KeepsCalm q ∧ ∀ n, p.AtHome home n → q.AtHome home n := by
  cases hd : p.model? m with
  | none =>
    refine ⟨p, fun n => ?_, .refl p, fun _ h => h⟩
    rw [write, Run.get_bind, hd]
    rfl
  | some d =>
    have hcalm := hp d.bus (hm d hd)
    obtain ⟨outcome, q, ls, hrun, hwrote, -, hok⟩ :=
      write_of_quiet callbacks hd (fun r hr => (hcalm r hr).quiet) key value
    obtain rfl := hok hcalm
    exact ⟨q, hrun, .of_wrote hwrote, fun n => .of_wrote hd hwrote⟩

theorem handleAll_cons_of_ok {callbacks : Callbacks κ σ} {engine : Engine κ σ} {e : ElementId}
    {handler : Handler κ} {rest : List (Handler κ)} {s : Page κ σ}
    (h : handle callbacks engine e handler p = some (.ok (), s)) :
    handleAll callbacks engine e (handler :: rest) p = handleAll callbacks engine e rest s := by
  rw [handleAll]
  exact Run.bind_of_eq h _

theorem handle_of_calm (e : ElementId) {handler : Handler κ} (hp : p.Calm home)
    (hh : p.WritesHome home handler) :
    ∃ q, (∀ n, handle callbacks (ofFrames callbacks (n + 1)) e handler p = some (.ok (), q)) ∧
      p.KeepsCalm q ∧ ∀ n, p.AtHome home n → q.AtHome home n := by
  cases handler with
  | callback code => cases hh
  | writeBack m property key control =>
    by_cases hm : p.finds m = true
    · obtain ⟨q, hwrite, hkeeps, hhome⟩ := write_of_calm callbacks hp hh key
        (control.coerce (p.property e property))
      exact ⟨q, fun n => (handle_of_finds e property key control hm).trans (hwrite n), hkeeps, hhome⟩
    · exact ⟨p, fun n => handle_of_lost e property key control hm, .refl p, fun _ h => h⟩

theorem handleAll_of_calm (e : ElementId) {handlers : List (Handler κ)} (hp : p.Calm home)
    (hh : ∀ handler ∈ handlers, p.WritesHome home handler) :
    ∃ q, (∀ n, handleAll callbacks (ofFrames callbacks (n + 1)) e handlers p = some (.ok (), q)) ∧
      p.KeepsCalm q := by
  induction handlers generalizing p with
  | nil => exact ⟨p, fun _ => rfl, .refl p⟩
  | cons handler rest ih =>
    obtain ⟨s, hhandle, hkeeps, hhome⟩ := handle_of_calm callbacks e hp (hh handler List.mem_cons_self)
    have hrest : ∀ handler ∈ rest, s.WritesHome home handler := by
      intro handler hmem
      have hw := hh handler (List.mem_cons_of_mem _ hmem)
      cases handler with
      | callback code => cases hw
      | writeBack m _ _ _ => exact hhome m.target hw
    obtain ⟨q, hall, hkeeps'⟩ := ih (hkeeps.calm hp) hrest
    exact ⟨q, fun n => (handleAll_cons_of_ok (hhandle n)).trans (hall n), hkeeps.trans hkeeps'⟩

theorem dispatch_of_calm (e : ElementId) (kind : EventKind) (hp : p.Calm home)
    (hh : ∀ handler ∈ p.handlers e kind, p.WritesHome home handler) :
    ∃ q, (∀ n, (ofFrames callbacks (n + 2)).dispatch e kind p = some (.ok (), q)) ∧
      p.KeepsCalm q := by
  have hhold : p.KeepsCalm (p.hold (.element e)) := .of_same rfl rfl rfl
  have hh' : ∀ handler ∈ p.handlers e kind, (p.hold (.element e)).WritesHome home handler := by
    intro handler hmem
    have hw := hh handler hmem
    cases handler with
    | callback code => cases hw
    | writeBack m _ _ _ => exact hw
  obtain ⟨q, hall, hkeeps⟩ := handleAll_of_calm callbacks e (hhold.calm hp) hh'
  exact ⟨q.release (.element e), fun n => Run.holding_of_eq (hall n),
    (hhold.trans hkeeps).trans (.of_same rfl rfl rfl)⟩

theorem bindElement_of_calm {b : BusId} (hp : p.CalmOn b) (m : ModelId) (e : ElementId) :
    ∃ targets q, (∀ n, (ofFrames callbacks (n + 1)).bindElement b m e p = some (.ok targets, q)) ∧
      p.KeepsCalm q := by
  obtain ⟨outcome, q, hrun, htied, hok⟩ :=
    bindElement_of_quiet callbacks b m e fun r hr => (hp r hr).quiet
  cases outcome with
  | error failure => cases hok hp
  | ok targets => exact ⟨targets, q, hrun, .of_tied htied⟩

theorem bindChildren_of_calm (v : ViewId) {b : BusId} (m : ModelId) (es : List ElementId)
    (hp : p.CalmOn b) :
    ∃ q, (∀ n, (ofFrames callbacks (n + 1)).bindChildren v b m es p = some (.ok (), q)) ∧
      p.KeepsCalm q := by
  induction es generalizing p with
  | nil => exact ⟨p, fun _ => rfl, .refl p⟩
  | cons e rest ih =>
    obtain ⟨targets, s, hbind, hkeeps⟩ := bindElement_of_calm callbacks hp m e
    have hview := hkeeps.trans
      (.modifyView s v fun view => { view with targets := view.targets ++ targets })
    obtain ⟨q, hall, hkeeps'⟩ := ih (hview.calmOn hp)
    exact ⟨q, fun n => (Run.bind_of_eq (hbind n) _).trans (hall n), hview.trans hkeeps'⟩

theorem populate_of_calm {v : ViewId} {view : View} (hv : p.view? v = some view)
    (hstate : view.state ∈ [ViewState.uninitialized, .fetching]) (hp : p.CalmOn view.bus)
    (markup : String) :
    ∃ q, (∀ n, (ofFrames callbacks (n + 1)).populate v markup p = some (.ok (), q)) ∧
      p.KeepsCalm q ∧ q.IsBound v := by
  have hfurnish : p.KeepsCalm (p.furnish v view markup) := by
    have hhold : p.KeepsCalm (p.hold (.view v)) := .of_same rfl rfl rfl
    exact (hhold.trans (.setMarkup _ view.container markup)).trans (.modifyView _ v _)
  obtain ⟨s, hbind, hkeeps⟩ := bindChildren_of_calm callbacks v view.model
    ((p.furnish v view markup).childElements view.container) (hfurnish.calmOn hp)
  have hs := hfurnish.trans hkeeps
  obtain ⟨view', hview'⟩ := exists_view_of_size hs.views hv
  refine ⟨_, fun n => (populate_eq_some hv).mpr ⟨hstate, s, hbind n, rfl⟩,
    hs.trans ((KeepsCalm.modifyView s v _).trans (.of_same rfl rfl rfl)), ?_⟩
  exact ⟨{ view' with state := .bound }, view?_modifyView_self hview' _, rfl⟩

/-- What comes of asking for the template of a view that begins to load. -/
def fetched (p : Page κ σ) (v : ViewId) (view : View) (shelf : Option ShelfId) :
    Option Fetched × Page κ σ :=
  let fetching := p.modifyView v fun w => { w with state := .fetching }
  shelf.elim (none, fetching) fun s => fetching.request s view.path

theorem fetched_keeps (p : Page κ σ) (v : ViewId) (view : View) (shelf : Option ShelfId) :
    p.KeepsCalm (fetched p v view shelf).2 := by
  have hfetching : p.KeepsCalm (p.modifyView v fun w => { w with state := .fetching }) :=
    .modifyView p v _
  cases shelf with
  | none => exact hfetching
  | some s => exact hfetching.trans (.request _ s view.path)

theorem answer_fetched (p : Page κ σ) (v : ViewId) (view : View) (s : ShelfId) :
    (fetched p v view (some s)).1 = (p.request s view.path).1 :=
  answer_request (p := p) (q := p.modifyView v fun w => { w with state := .fetching }) rfl s
    view.path

theorem view?_fetched {v : ViewId} {view : View} (hv : p.view? v = some view)
    (shelf : Option ShelfId) :
    (fetched p v view shelf).2.view? v = some { view with state := .fetching } := by
  cases shelf with
  | none => exact view?_modifyView_self hv _
  | some s =>
    refine (view?_request _ s view.path v).trans ?_
    exact view?_modifyView_self hv _

theorem load_of_uninitialized {engine : Engine κ σ} {v : ViewId} {view : View}
    (hv : p.view? v = some view) (hstate : view.state = .uninitialized) (shelf : Option ShelfId) :
    engine.load v shelf p = (match (fetched p v view shelf).1 with
      | none => pure (.ok .pending)
      | some (.error failure) => enterState v .errored >>= fun _ => pure (.error (.fetch failure))
      | some (.ok markup) => engine.populate v markup >>= fun outcome =>
        pure (outcome.map fun _ => .bound) : Run κ σ (Except ViewError Loaded))
      (fetched p v view shelf).2 := by
  have hallowed : allowed "load" [.uninitialized] view = .ok () :=
    if_pos (hstate ▸ List.mem_cons_self)
  unfold load
  rw [Run.get_bind, hv]
  simp only [hallowed]
  unfold enterState
  rw [Run.modify_bind, Run.modifyGet_bind]
  cases shelf <;> rfl

theorem load_of_calm {v : ViewId} {view : View} (hv : p.view? v = some view)
    (hstate : view.state = .uninitialized) (hp : p.CalmOn view.bus) {shelf : Option ShelfId}
    {markup : String} (hshelf : (fetched p v view shelf).1 = some (.ok markup)) :
    ∃ q, (∀ n, (ofFrames callbacks (n + 1)).load v shelf p = some (.ok .bound, q)) ∧
      p.KeepsCalm q ∧ q.IsBound v := by
  have hkeeps := fetched_keeps p v view shelf
  obtain ⟨q, hpopulate, hq, hbound⟩ := populate_of_calm callbacks (view?_fetched hv shelf)
    (List.mem_cons_of_mem _ List.mem_cons_self) (hkeeps.calmOn hp) markup
  refine ⟨q, fun n => ?_, hkeeps.trans hq, hbound⟩
  rw [load_of_uninitialized hv hstate, hshelf]
  exact Run.bind_of_eq (hpopulate n) _

end Engine

/-! ## Calls from outside -/

/-- A call from outside that makes no bus without room, lets no callback wait on the buses, puts no
element into itself, and does nothing that other buses have a say in. -/
def Call.Fits (home : BusId → Prop) (p : Page κ σ) : Call κ → Prop
  | openBus maxDepth => home ⟨p.buses.size⟩ → 1 ≤ maxDepth
  | subscribe bus _ _ => ¬ home bus
  | publish bus _ _ => home bus
  | write m _ _ => p.AtHome home m
  | append e child => p.Admits e child
  | dispatch e kind => ∀ handler ∈ p.handlers e kind, p.WritesHome home handler
  | bind bus _ _ => home bus
  | load v _ => ∀ view, p.view? v = some view → home view.bus
  | populate v _ => ∀ view, p.view? v = some view → home view.bus
  | _ => True

/-- The call ended well: no bus refused anything, and a view that was given its markup is bound. -/
def Call.Succeeds (p q : Page κ σ) : (c : Call κ) → c.Answer → Prop
  | publish .., outcome => outcome = (.ok () : Outcome)
  | write .., outcome => outcome = (.ok () : Outcome)
  | dispatch .., outcome => outcome = (.ok () : Outcome)
  | bind .., outcome => ∃ targets, outcome = (.ok targets : Except BusError (List Target))
  | load v shelf, outcome =>
    (∀ failure, outcome ≠ (.error (.bus failure) : Except ViewError Loaded)) ∧
      ∀ view s markup, p.view? v = some view → view.state = .uninitialized → shelf = some s →
        (p.request s view.path).1 = some (.ok markup) →
        outcome = (.ok .bound : Except ViewError Loaded) ∧ q.IsBound v
  | populate v _, outcome =>
    (∀ failure, outcome ≠ (.error (.bus failure) : Except ViewError Unit)) ∧
      ∀ view, p.view? v = some view → view.state ∈ [ViewState.uninitialized, .fetching] →
        outcome = (.ok () : Except ViewError Unit) ∧ q.IsBound v
  | _, _ => True

namespace Engine

open Page

variable {home : BusId → Prop} {p : Page κ σ} (callbacks : Callbacks κ σ)

theorem load_of_refused {engine : Engine κ σ} {v : ViewId} {view : View}
    (hv : p.view? v = some view) (hstate : view.state ≠ .uninitialized) (shelf : Option ShelfId) :
    engine.load v shelf p = some (.error (.invalidState "load" view.state.name), p) := by
  have hrefused : allowed "load" [.uninitialized] view
      = .error (.invalidState "load" view.state.name) :=
    if_neg fun h => hstate (List.mem_singleton.mp h)
  rw [load, Run.get_bind, hv]
  simp only [hrefused]
  rfl

theorem populate_succeeds (hp : p.Calm home) {v : ViewId} {markup : String}
    (hfits : (Call.populate v markup : Call κ).Fits home p) :
    ∃ outcome q, (∀ n, (ofFrames callbacks (n + 1)).populate v markup p = some (outcome, q)) ∧
      (Call.populate v markup).Succeeds p q outcome ∧ p.KeepsCalm q := by
  cases hv : p.view? v with
  | none =>
    refine ⟨.ok (), p, fun n => ?_, ⟨by rintro _ ⟨⟩, fun _ h => ?_⟩, .refl p⟩
    · rw [populate, Run.get_bind, hv]
      rfl
    · cases hv.symm.trans h
  | some view =>
    by_cases hstate : view.state ∈ [ViewState.uninitialized, .fetching]
    · obtain ⟨q, hrun, hkeeps, hbound⟩ :=
        populate_of_calm callbacks hv hstate (hp view.bus (hfits view hv)) markup
      exact ⟨.ok (), q, hrun, ⟨by rintro _ ⟨⟩, fun _ _ _ => ⟨rfl, hbound⟩⟩, hkeeps⟩
    · refine ⟨_, p, fun n => populate_of_refused hv hstate markup,
        ⟨by rintro _ ⟨⟩, fun _ h hs => ?_⟩, .refl p⟩
      cases hv.symm.trans h
      exact absurd hs hstate

theorem load_succeeds (hp : p.Calm home) {v : ViewId} {shelf : Option ShelfId}
    (hfits : (Call.load v shelf : Call κ).Fits home p) :
    ∃ outcome q, (∀ n, (ofFrames callbacks (n + 1)).load v shelf p = some (outcome, q)) ∧
      (Call.load v shelf).Succeeds p q outcome ∧ p.KeepsCalm q := by
  cases hv : p.view? v with
  | none =>
    refine ⟨.ok .bound, p, fun n => ?_, ⟨by rintro _ ⟨⟩, fun _ _ _ h => ?_⟩, .refl p⟩
    · rw [load, Run.get_bind, hv]
      rfl
    · cases hv.symm.trans h
  | some view =>
    by_cases hstate : view.state = .uninitialized
    · have hkeeps := fetched_keeps p v view shelf
      have hload : ∀ n, (ofFrames callbacks (n + 1)).load v shelf p = _ :=
        fun n => load_of_uninitialized hv hstate shelf
      have hmarkup : ∀ view' s markup, some view = some view' → shelf = some s →
          (p.request s view'.path).1 = some (.ok markup) →
          (fetched p v view shelf).1 = some (.ok markup) := by
        rintro _ s markup ⟨⟩ rfl hm
        exact (answer_fetched p v view s).trans hm
      cases hanswer : (fetched p v view shelf).1 with
      | none =>
        refine ⟨.ok .pending, _, fun n => (hload n).trans (by rw [hanswer]; rfl),
          ⟨by rintro _ ⟨⟩, fun view' s markup h _ hs hm => ?_⟩, hkeeps⟩
        cases hanswer.symm.trans (hmarkup view' s markup (hv.symm.trans h) hs hm)
      | some answer =>
        cases answer with
        | error failure =>
          refine ⟨.error (.fetch failure), _, fun n => (hload n).trans (by rw [hanswer]; rfl),
            ⟨by rintro _ ⟨⟩, fun view' s markup h _ hs hm => ?_⟩,
            hkeeps.trans (.modifyView _ v _)⟩
          cases hanswer.symm.trans (hmarkup view' s markup (hv.symm.trans h) hs hm)
        | ok markup =>
          obtain ⟨q, hrun, hq, hbound⟩ :=
            load_of_calm callbacks hv hstate (hp view.bus (hfits view hv)) hanswer
          exact ⟨.ok .bound, q, hrun, ⟨by rintro _ ⟨⟩, fun _ _ _ _ _ _ _ => ⟨rfl, hbound⟩⟩, hq⟩
    · refine ⟨_, p, fun n => load_of_refused hv hstate shelf,
        ⟨by rintro _ ⟨⟩, fun _ _ _ h hs => ?_⟩, .refl p⟩
      cases hv.symm.trans h
      exact absurd hs hstate

/-- One call: it ends well, the buses stay calm, and a page of trees stays one. -/
theorem call_succeeds (hp : p.Calm home) {c : Call κ} (hc : c.Fits home p) :
    ∃ answer q, (∀ n, c.run (ofFrames callbacks (n + 2)) p = some (answer, q)) ∧
      c.Succeeds p q answer ∧ q.Calm home ∧ (p.Acyclic → q.Acyclic) := by
  have hkept : ∀ {q : Page κ σ}, p.KeepsCalm q → q.Calm home ∧ (p.Acyclic → q.Acyclic) :=
    fun hkeeps => ⟨hkeeps.calm hp, hkeeps.acyclic⟩
  have hwritten : ∀ {q : Page κ σ}, q.buses = p.buses → NoNewChildren p q →
      q.Calm home ∧ (p.Acyclic → q.Acyclic) :=
    fun hb hn => ⟨hp.of_buses hb, fun h => h.of_noNewChildren hn⟩
  cases c with
  | openBus maxDepth => exact ⟨_, _, fun _ => rfl, trivial, hp.addBus hc, fun h => h.of_elements rfl⟩
  | subscribe bus event code =>
    exact ⟨_, _, fun _ => rfl, trivial, hp.subscribe hc event code,
      fun h => h.of_noNewChildren (Shrinks.subscribe p bus event rfl).noNewChildren⟩
  | unsubscribe s =>
    exact ⟨_, _, fun _ => rfl, trivial, hkept (.modifyBus p s.bus fun r hr => hr.remove s.place)⟩
  | clear bus =>
    exact ⟨_, _, fun _ => rfl, trivial, hkept (.modifyBus p bus fun r hr => hr.clear)⟩
  | publish bus event value =>
    have hcalm := hp bus hc
    obtain ⟨outcome, ls, hrun, -, hok⟩ :=
      publish_of_quiet callbacks (fun r hr => (hcalm r hr).quiet) event value
    have hbuses : (p.receiveAll value ls).buses = p.buses := by rw [receiveAll_eq]
    exact ⟨outcome, _, fun n => hrun (n + 1), hok hcalm,
      hwritten hbuses (shrinks_receiveAll value p ls).noNewChildren⟩
  | write m key value =>
    obtain ⟨q, hrun, hkeeps, -⟩ := write_of_calm callbacks hp hc key value
    exact ⟨_, q, fun n => hrun (n + 1), rfl, hkept hkeeps⟩
  | dispatch e kind =>
    obtain ⟨q, hrun, hkeeps⟩ := dispatch_of_calm callbacks e kind hp hc
    exact ⟨_, q, hrun, rfl, hkept hkeeps⟩
  | bind bus m e =>
    obtain ⟨targets, q, hrun, hkeeps⟩ := bindElement_of_calm callbacks (hp bus hc) m e
    exact ⟨_, q, fun n => hrun (n + 1), ⟨targets, rfl⟩, hkept hkeeps⟩
  | create tag =>
    exact ⟨_, _, fun _ => rfl, trivial, hwritten rfl (noNewChildren_createElement p tag)⟩
  | setText e text =>
    exact ⟨_, _, fun _ => rfl, trivial, hwritten rfl (Shrinks.setText p e text).noNewChildren⟩
  | setMarkup e markup => exact ⟨_, _, fun _ => rfl, trivial, hkept (.setMarkup p e markup)⟩
  | append e child =>
    exact ⟨_, _, fun _ => rfl, trivial, hp.of_buses rfl, fun h => h.appendChild hc⟩
  | openView bus request =>
    exact ⟨_, _, fun _ => rfl, trivial, hwritten (buses_openView p bus request)
      (noNewChildren_of_elements (elements_openView p bus request))⟩
  | load v shelf =>
    obtain ⟨outcome, q, hrun, hgood, hkeeps⟩ := load_succeeds callbacks hp hc
    exact ⟨outcome, q, fun n => hrun (n + 1), hgood, hkept hkeeps⟩
  | populate v markup =>
    obtain ⟨outcome, q, hrun, hgood, hkeeps⟩ := populate_succeeds callbacks hp hc
    exact ⟨outcome, q, fun n => hrun (n + 1), hgood, hkept hkeeps⟩
  -- what is left writes an element without touching its children, or no element at all
  | setAttribute | removeAttribute | setProperty | listen =>
    exact ⟨_, _, fun _ => rfl, trivial, hwritten rfl (noNewChildren_modifyElement fun _ _ hc => hc)⟩
  | observe | stock | hold | release =>
    exact ⟨_, _, fun _ => rfl, trivial, hwritten rfl (noNewChildren_of_elements rfl)⟩

end Engine

/-! ## Whatever is called from outside -/

/-- The pages that come about by fitting calls. -/
inductive Attained (callbacks : Callbacks κ σ) (home : BusId → Prop) (start : Page κ σ) :
    Page κ σ → Prop where
  | start : Attained callbacks home start start
  | call {p q : Page κ σ} {c : Call κ} {answer : c.Answer} {n : Nat} :
      Attained callbacks home start p → c.Fits home p →
      c.run (Engine.ofFrames callbacks (n + 2)) p = some (answer, q) →
      Attained callbacks home start q
  | amend {p : Page κ σ} (f : σ → σ) : Attained callbacks home start p →
      Attained callbacks home start { p with host := f p.host }

theorem calm_of_attained {callbacks : Callbacks κ σ} {home : BusId → Prop} {start p : Page κ σ}
    (hstart : start.Calm home) (h : Attained callbacks home start p) : p.Calm home := by
  induction h with
  | start => exact hstart
  | @call p q c answer n _ hc hrun ih =>
    obtain ⟨answer', q', hrun', -, hq, -⟩ := Engine.call_succeeds callbacks ih hc
    cases (hrun' n).symm.trans hrun
    exact hq
  | amend f _ ih => exact ih.of_buses rfl

/-- So no element stands inside itself on the pages that come about, and what binding and printing see
of an element is all of it. -/
theorem acyclic_of_attained {callbacks : Callbacks κ σ} {home : BusId → Prop} {start p : Page κ σ}
    (hstart : start.Calm home) (htrees : start.Acyclic) (h : Attained callbacks home start p) :
    p.Acyclic := by
  induction h with
  | start => exact htrees
  | @call p q c answer n hp hc hrun ih =>
    obtain ⟨answer', q', hrun', -, -, hq⟩ :=
      Engine.call_succeeds callbacks (calm_of_attained hstart hp) hc
    cases (hrun' n).symm.trans hrun
    exact hq ih
  | amend f _ ih => exact ih.of_elements rfl

/-- On buses with room on which only bindings listen, all that is called from outside ends well,
however many views, models and elements share their events, and nothing is in flight afterwards. -/
theorem bindings_never_fail {callbacks : Callbacks κ σ} {home : BusId → Prop} {start p : Page κ σ}
    (hstart : start.Calm home) (h : Attained callbacks home start p) {c : Call κ}
    (hc : c.Fits home p) :
    ∃ answer q, (∀ n, c.run (Engine.ofFrames callbacks (n + 2)) p = some (answer, q)) ∧
      c.Succeeds p q answer ∧ q.Calm home := by
  obtain ⟨answer, q, hrun, hgood, hq, -⟩ :=
    Engine.call_succeeds callbacks (calm_of_attained hstart h) hc
  exact ⟨answer, q, hrun, hgood, hq⟩

/-! ## Two views that share an event -/

def twinView (container : ElementId) (value : String) : Call Unit :=
  .openView ⟨0⟩ ⟨some (.element container), some (.record [("k", .text value)]), some "", some "m"⟩

/-- Two views with models of one name, on a bus with room for a single event: one with an input, the
other with a text.  The last call is an edit of the input. -/
def twinCalls : List (Call Unit) :=
  [.openBus 1, .create "div", .create "div", twinView ⟨0⟩ "1", twinView ⟨1⟩ "2",
    .hold (.view ⟨0⟩), .hold (.view ⟨1⟩), .populate ⟨0⟩ "<input value=\"${k}\">",
    .populate ⟨1⟩ "<p>${k}</p>", .setProperty ⟨2⟩ "value" (.text "3")]

def blankPage : Page Unit Unit := { host := () }

def afterCalls (calls : List (Call Unit)) (p : Page Unit Unit) : Option (Page Unit Unit) :=
  calls.foldlM (fun p c => (c.run (Engine.ofFrames idleCode 2) p).map Prod.snd) p

theorem attained_afterCalls {home : BusId → Prop} {start p q : Page Unit Unit}
    {calls : List (Call Unit)} (hfits : ∀ c ∈ calls, ∀ p : Page Unit Unit, c.Fits home p)
    (h : Attained idleCode home start p) (hq : afterCalls calls p = some q) :
    Attained idleCode home start q := by
  induction calls generalizing p with
  | nil =>
    cases hq
    exact h
  | cons c rest ih =>
    unfold afterCalls at hq
    rw [List.foldlM_cons] at hq
    obtain ⟨s, hs, hq⟩ := Option.bind_eq_some_iff.mp hq
    obtain ⟨⟨answer, s'⟩, hrun, rfl⟩ := Option.map_eq_some_iff.mp hs
    exact ih (fun d hd => hfits d (List.mem_cons_of_mem c hd))
      (.call h (hfits c List.mem_cons_self p) hrun) hq

def twinText (p : Page Unit Unit) : Option String := (p.childElements ⟨1⟩)[0]?.map p.textContent

def twinSeen (p : Page Unit Unit) : List ViewState × Option String :=
  (p.views.toList.map View.state, twinText p)

theorem isBound_of_states {p : Page κ σ} {states : List ViewState}
    (h : p.views.toList.map View.state = states) {v : ViewId}
    (hv : states[v.index]? = some .bound) : p.IsBound v := by
  rw [← h, List.getElem?_map, Array.getElem?_toList] at hv
  exact Option.map_eq_some_iff.mp hv

def Handler.writesBack : Handler κ → Bool
  | writeBack .. => true
  | callback _ => false

theorem fits_dispatch_everywhere {p : Page κ σ} {e : ElementId} {kind : EventKind}
    (h : (p.handlers e kind).all Handler.writesBack = true) :
    (Call.dispatch e kind).Fits (fun _ => True) p := by
  intro handler hmem
  have hback := List.all_eq_true.mp h handler hmem
  cases handler with
  | writeBack m property key control => exact fun _ _ => trivial
  | callback code => cases hback

/-- Firing the event of the input ends well, and the other view shows the edit. -/
theorem twin_views_share_edit :
    ∃ p q, blankPage.Calm (fun _ => True) ∧ Attained idleCode (fun _ => True) blankPage p ∧
      (Call.dispatch ⟨2⟩ .input : Call Unit).Fits (fun _ => True) p ∧
      p.IsBound ⟨0⟩ ∧ p.IsBound ⟨1⟩ ∧ twinText p = some "2" ∧
      (∀ n, (Engine.ofFrames idleCode (n + 2)).dispatch ⟨2⟩ .input p = some (.ok (), q)) ∧
      twinText q = some "3" ∧ q.Calm fun _ => True := by
  have hcomputed : ((afterCalls twinCalls blankPage).bind fun p =>
      ((Engine.ofFrames idleCode 2).dispatch ⟨2⟩ .input p).map fun a =>
        ((p.handlers ⟨2⟩ .input).all Handler.writesBack, twinSeen p, twinText a.2))
      = some (true, ([.bound, .bound], some "2"), some "3") := by
    decide +kernel
  obtain ⟨p, hp, hcomputed⟩ := Option.bind_eq_some_iff.mp hcomputed
  obtain ⟨a, ha, hcomputed⟩ := Option.map_eq_some_iff.mp hcomputed
  obtain ⟨hhandlers, hseen, htext⟩ : _ ∧ _ ∧ _ := by
    simpa only [twinSeen, Prod.mk.injEq] using hcomputed
  have hempty : blankPage.Calm fun _ => True := by
    rintro b - r ⟨⟩
  have hattained : Attained idleCode (fun _ => True) blankPage p := by
    refine attained_afterCalls ?_ .start hp
    simp only [twinCalls, twinView, List.forall_mem_cons]
    exact ⟨fun _ _ => Nat.le_refl 1, fun _ => trivial, fun _ => trivial, fun _ => trivial,
      fun _ => trivial, fun _ => trivial, fun _ => trivial, fun _ _ _ => trivial,
      fun _ _ _ => trivial, fun _ => trivial, fun _ h => absurd h List.not_mem_nil⟩
  have hfits := fits_dispatch_everywhere hhandlers
  obtain ⟨outcome, q, hrun, rfl, hcalm⟩ := bindings_never_fail hempty hattained hfits
  cases (hrun 0).symm.trans ha
  obtain ⟨hstates, hbefore⟩ := hseen
  exact ⟨p, q, hempty, hattained, hfits, isBound_of_states hstates rfl,
    isBound_of_states hstates rfl, hbefore, hrun, htext, hcalm⟩

end Bindery
