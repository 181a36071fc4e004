import Bindery.Proofs.Binding.Tracing

/-!
# Calls leave trails

A view that is populated gets new elements, lets go of those that it kept, and binds the new ones one
after the other.  What was there before and is alive in the end was kept by somebody else all the time.
So populating leaves a trail, as all the calls do of which deeds are listed.

* `Page.Dwindles`        less is held by views and elements
* `trail_bindChildren`   binding the children of a view
* `trail_populate`       populating a view
* `trail_call`           each call leaves the trail of its deeds
-/

namespace Bindery

variable {κ σ : Type}

namespace Page

variable {b : BusId} {m : ModelId} {e : ElementId} {p q s : Page κ σ}

/-- As much is held by the program, and no more by views and elements. -/
structure Dwindles (p q : Page κ σ) : Prop where
  size : q.elements.size = p.elements.size
  held : q.held = p.held
  views : ∀ {v w'}, q.view? v = some w' →
    ∃ w, p.view? v = some w ∧ ∀ x, w'.keeps x = true → w.keeps x = true
  captured : ∀ {h}, q.captures h = true → p.captures h = true
  children : ∀ {x d}, q.element? x = some d → ∃ d', p.element? x = some d' ∧
    ∀ c, Child.element c ∈ d.children → Child.element c ∈ d'.children

namespace Dwindles

theorem refl (p : Page κ σ) : Dwindles p p :=
  ⟨rfl, rfl, fun h => ⟨_, h, fun _ hk => hk⟩, id, fun h => ⟨_, h, fun _ hc => hc⟩⟩

theorem trans (h : Dwindles p q) (k : Dwindles q s) : Dwindles p s where
  size := k.size.trans h.size
  held := k.held.trans h.held
  views hw := by
    obtain ⟨w₁, hw₁, hk₁⟩ := k.views hw
    obtain ⟨w₂, hw₂, hk₂⟩ := h.views hw₁
    exact ⟨w₂, hw₂, fun x hx => hk₂ x (hk₁ x hx)⟩
  captured hh := h.captured (k.captured hh)
  children hd := by
    obtain ⟨d₁, hd₁, hc₁⟩ := k.children hd
    obtain ⟨d₂, hd₂, hc₂⟩ := h.children hd₁
    exact ⟨d₂, hd₂, fun c hc => hc₂ c (hc₁ c hc)⟩

theorem of_traced {ds : List Deed} (h : Traced b p ds q) : Dwindles p q where
  size := h.shrinks.size
  held := h.held
  views hw := ⟨_, (view?_of_views h.shrinks.views _).symm.trans hw, fun _ hk => hk⟩
  captured := h.shrinks.captured
  children := h.shrinks.children

theorem modifyView {v : ViewId} {f : View → View}
    (hf : ∀ w, p.view? v = some w → ∀ x, (f w).keeps x = true → w.keeps x = true) :
    Dwindles p (p.modifyView v f) where
  size := rfl
  held := rfl
  views {u w'} hw := by
    by_cases hu : u = v
    · subst hu
      cases hp : p.view? u with
      | none =>
        have hnone : (p.views.modify u.index f)[u.index]? = none := by
          rw [Array.getElem?_modify, if_pos rfl]
          exact congrArg (Option.map f) hp
        cases hnone.symm.trans hw
      | some w =>
        cases (view?_modifyView_self hp f).symm.trans hw
        exact ⟨w, rfl, hf w hp⟩
    · exact ⟨w', (view?_modifyView_of_ne hu f p).symm.trans hw, fun _ hk => hk⟩
  captured := id
  children hd := ⟨_, hd, fun _ hc => hc⟩

theorem fades (h : Dwindles p q) : Fades (fun _ => True) p q where
  size := Nat.le_of_eq h.size.symm
  rooted _ hr := by
    rw [isRooted_singleton, h.held] at hr
    refine isRooted_singleton.mpr (hr.imp_right fun ⟨v, w', hheld, hw', hk⟩ => ?_)
    obtain ⟨w, hw, hkeeps⟩ := h.views hw'
    exact ⟨v, w, hheld, hw, hkeeps _ hk⟩
  captured := h.captured
  owners _ hd hm := by
    obtain ⟨d', hd', hc⟩ := h.children hd
    exact ⟨trivial, d', hd', hc _ hm⟩

theorem ended (h : Dwindles p q) : p.Ended q :=
  ⟨Nat.le_of_eq h.size.symm, fun _ ha => elementAlive_of_fades h.fades trivial ha⟩

end Dwindles

theorem keeps_iff {w : View} {x : ElementId} :
    w.keeps x = true ↔ w.container = x ∨ x ∈ w.children ∨ ∃ t ∈ w.targets, t.element = x := by
  unfold View.keeps
  simp [or_assoc]

/-- A view that keeps an element keeps no other one for what is bound in it. -/
theorem keeps_bound {w : View} {x : ElementId} (hx : w.keeps x = true) {targets : List Target}
    (ht : ∀ t ∈ targets, t.element = x) (y : ElementId) :
    ({ w with targets := w.targets ++ targets } : View).keeps y = true ↔ w.keeps y = true := by
  rw [keeps_iff, keeps_iff]
  constructor
  · rintro (hy | hy | ⟨t, hmem, rfl⟩)
    · exact Or.inl hy
    · exact Or.inr (Or.inl hy)
    · rcases List.mem_append.mp hmem with hmem | hmem
      · exact Or.inr (Or.inr ⟨t, hmem, rfl⟩)
      · rw [ht t hmem]
        exact keeps_iff.mp hx
  · rintro (hy | hy | ⟨t, hmem, hty⟩)
    · exact Or.inl hy
    · exact Or.inr (Or.inl hy)
    · exact Or.inr (Or.inr ⟨t, List.mem_append_left _ hmem, hty⟩)

theorem element_of_bindAttributes {entries : List (String × String)} {t : Target}
    (h : t ∈ (p.bindAttributes b m e entries).1) : t.element = e := by
  induction entries generalizing p with
  | nil => cases h
  | cons entry rest ih =>
    rcases List.mem_append.mp h with h | h
    · have hone : ∀ t ∈ (p.bindAttribute b m e entry.1 entry.2).1, t.element = e := by
        unfold bindAttribute
        split
        · exact fun _ ht => nomatch ht
        · dsimp only
          split
          · exact fun _ ht => by cases ht; rfl
          · exact fun _ ht => nomatch ht
      exact hone t (Option.mem_toList.mp h)
    · exact ih h

theorem element_of_bindText {engine : Engine κ σ} {text : Option Target}
    (h : engine.bindText b m e p = some (.ok text, q)) : ∀ t ∈ text, t.element = e := by
  rw [Engine.bindText, Run.get_bind] at h
  cases htext : p.textOf? e with
  | none =>
    rw [htext] at h
    cases h
    exact fun t ht => absurd ht (Option.not_mem_none t)
  | some template =>
    rw [htext] at h
    dsimp only at h
    cases hn : Template.names? template with
    | none =>
      rw [hn] at h
      cases h
      exact fun t ht => absurd ht (Option.not_mem_none t)
    | some names =>
      rw [hn] at h
      obtain ⟨bound, s, -, hs⟩ := Run.bind_eq_some.mp h
      cases bound with
      | error failure => cases hs
      | ok any =>
        cases hs
        cases any with
        | false => exact fun t ht => absurd ht (Option.not_mem_none t)
        | true => exact fun t ht => by cases ht; rfl

theorem element_of_bindElement {engine : Engine κ σ} {targets : List Target}
    (h : engine.bindElement b m e p = some (.ok targets, q)) : ∀ t ∈ targets, t.element = e := by
  unfold Engine.bindElement at h
  obtain ⟨q₁, h₁, -⟩ := Run.holding_eq_some.mp h
  obtain ⟨q₂, h₂, -⟩ := Run.holding_eq_some.mp h₁
  obtain ⟨outcome, s, ht, hend⟩ := Run.bind_eq_some.mp h₂
  cases outcome with
  | error failure => cases hend
  | ok text =>
    cases hend
    intro t hm
    rcases List.mem_append.mp hm with hm | hm
    · exact element_of_bindText ht t (Option.mem_toList.mp hm)
    · exact element_of_bindAttributes hm

theorem trail_bindChildren (callbacks : Callbacks κ σ) (frames : Nat) {v : ViewId}
    {es : List ElementId} (hp : p.Open b)
    (hkeeps : ∀ w, p.view? v = some w → ∀ e ∈ es, w.keeps e = true) {outcome : Outcome}
    (h : (Engine.ofFrames callbacks (frames + 1)).bindChildren v b m es p = some (outcome, q)) :
    Trail b p ((Engine.ofFrames callbacks (frames + 1)).childDeeds v b m es p) q ∧
      Dwindles p q := by
  induction es generalizing p with
  | nil =>
    cases h
    exact ⟨.refl _, .refl _⟩
  | cons e rest ih =>
    obtain ⟨bound, s, hbind, hrest⟩ := Run.bind_eq_some.mp h
    have hone := traced_bindElement callbacks frames hp hbind
    unfold Engine.childDeeds
    rw [hbind]
    cases bound with
    | error failure =>
      cases hrest
      rw [List.append_nil]
      exact ⟨hone.trail, .of_traced hone⟩
    | ok targets =>
      have hviews : ∀ w, s.view? v = some w → ∀ x ∈ e :: rest, w.keeps x = true := fun w hw =>
        hkeeps w ((view?_of_views hone.shrinks.views v).symm.trans hw)
      have hsame : ∀ w, s.view? v = some w → ∀ x,
          ({ w with targets := w.targets ++ targets } : View).keeps x = true ↔ w.keeps x = true :=
        fun w hw => keeps_bound (hviews w hw e List.mem_cons_self) (element_of_bindElement hbind)
      have hnew : Dwindles s (s.modifyView v fun w => { w with targets := w.targets ++ targets }) :=
        .modifyView fun w hw x => (hsame w hw x).mp
      have hview : Trail b s [] (s.modifyView v fun w => { w with targets := w.targets ++ targets }) :=
        .single (.aside (.of_same rfl rfl)) hnew.ended
      have hopen := (hp.of_trail hone.trail).of_trail hview
      have hrest' : ∀ w, (s.modifyView v fun w =>
          { w with targets := w.targets ++ targets }).view? v = some w →
          ∀ x ∈ rest, w.keeps x = true := by
        intro w hw x hx
        cases hs : s.view? v with
        | none =>
          obtain ⟨w', hw', -⟩ := hnew.views hw
          cases hs.symm.trans hw'
        | some w' =>
          cases (view?_modifyView_self hs _).symm.trans hw
          exact (hsame w' hs x).mpr (hviews w' hs x (List.mem_cons_of_mem e hx))
      obtain ⟨htrail, hdwindles⟩ := ih hopen hrest' hrest
      exact ⟨hone.trail.trans (hview.trans htrail),
        ((Dwindles.of_traced hone).trans hnew).trans hdwindles⟩

/-! ## Handlers -/

section

variable (callbacks : Callbacks κ σ) (frames : Nat)

/-- Writing leaves every model on the bus where it announces its writes. -/
theorem atHome_of_write {key : String} {value : Value} {outcome : Outcome} (hp : p.Open b)
    (hm : p.AtHome (· = b) m)
    (h : (Engine.ofFrames callbacks (frames + 1)).write m key value p = some (outcome, q))
    {n : ModelId} (hn : p.AtHome (· = b) n) : q.AtHome (· = b) n := by
  cases hd : p.model? m with
  | none =>
    rw [Engine.write, Run.get_bind, hd] at h
    cases h
    exact hn
  | some d =>
    obtain ⟨outcome', q', ls, hrun, hwrote, -⟩ :=
      Engine.write_of_quiet callbacks hd (hm d hd ▸ hp.quietOn) key value
    cases (hrun frames).symm.trans h
    exact hn.of_wrote hd hwrote

theorem atHome_of_handle {handler : Handler κ} {n : ModelId} {outcome : Outcome} (hp : p.Open b)
    (hh : p.WritesHome (· = b) handler)
    (h : Engine.handle callbacks (Engine.ofFrames callbacks (frames + 1)) e handler p
      = some (outcome, q)) (hn : p.AtHome (· = b) n) : q.AtHome (· = b) n := by
  cases handler with
  | callback code => cases hh
  | writeBack m property key control =>
    by_cases hm : p.finds m = true
    · rw [Engine.handle_of_finds e property key control hm] at h
      exact atHome_of_write callbacks frames hp hh h hn
    · cases (Engine.handle_of_lost e property key control hm).symm.trans h
      exact hn

theorem traced_handleAll {handlers : List (Handler κ)} (hp : p.Open b)
    (hh : ∀ handler ∈ handlers, p.WritesHome (· = b) handler) {outcome : Outcome}
    (h : Engine.handleAll callbacks (Engine.ofFrames callbacks (frames + 1)) e handlers p
      = some (outcome, q)) :
    Traced b p (Engine.handlerDeeds callbacks (Engine.ofFrames callbacks (frames + 1)) e handlers p)
      q := by
  induction handlers generalizing p with
  | nil =>
    cases h
    exact .refl b q
  | cons handler rest ih =>
    have hhome := hh handler List.mem_cons_self
    cases handler with
    | callback code => cases hhome
    | writeBack m property key control =>
      rw [Engine.handleAll] at h
      obtain ⟨answer, s, hhandle, hrest⟩ := Run.bind_eq_some.mp h
      have hone := Routine.TracesAt.handler callbacks frames hhome answer s hp
        ((congrFun (Engine.handle_eq callbacks _ e _) p).symm.trans hhandle)
      rw [Engine.handlerDeeds, hhandle]
      cases answer with
      | error failure =>
        cases hrest
        rw [List.append_nil]
        exact hone
      | ok u =>
        refine hone.trans (ih (hp.of_trail hone.trail) (fun handler hmem => ?_) hrest)
        have hhandler := hh handler (List.mem_cons_of_mem _ hmem)
        cases handler with
        | callback code => cases hhandler
        | writeBack n _ _ _ => exact atHome_of_handle callbacks frames hp hhome hhandle hhandler

theorem traced_dispatch {kind : EventKind} (hp : p.Open b)
    (hh : ∀ handler ∈ p.handlers e kind, p.WritesHome (· = b) handler) {outcome : Outcome}
    (h : (Engine.ofFrames callbacks (frames + 2)).dispatch e kind p = some (outcome, q)) :
    Traced b p (Engine.handlerDeeds callbacks (Engine.ofFrames callbacks (frames + 1)) e
      (p.handlers e kind) (p.hold (.element e))) q := by
  obtain ⟨s, hs, rfl⟩ := Run.holding_eq_some.mp h
  refine Traced.holding (traced_handleAll callbacks frames hp (fun handler hmem => ?_) hs)
  have hhandler := hh handler hmem
  cases handler with
  | callback code => cases hhandler
  | writeBack m _ _ _ => exact hhandler

end

/-! ## Populating a view -/

section

variable {v : ViewId} {view : View} {markup : String}

theorem held_furnish (p : Page κ σ) (v : ViewId) (view : View) (markup : String) :
    (p.furnish v view markup).held = .view v :: p.held := by
  show ((p.hold (.view v)).setMarkup view.container markup).held = _
  rw [setMarkup_eq]
  rfl

theorem buses_furnish (p : Page κ σ) (v : ViewId) (view : View) (markup : String) :
    (p.furnish v view markup).buses = p.buses := by
  show ((p.hold (.view v)).setMarkup view.container markup).buses = _
  rw [setMarkup_eq]
  rfl

/-- The view keeps its container, its new children and what was bound in it before. -/
theorem view?_furnish_self (hv : p.view? v = some view) :
    (p.furnish v view markup).view? v = some { view with
      children := (p.furnish v view markup).childElements view.container, state := .populated } := by
  have hset : ((p.hold (.view v)).setMarkup view.container markup).view? v = some view := by
    rw [setMarkup_eq]
    exact hv
  exact view?_modifyView_self hset _

theorem view?_furnish_of_ne {u : ViewId} (hu : u ≠ v) :
    (p.furnish v view markup).view? u = p.view? u := by
  refine (view?_modifyView_of_ne hu _ _).trans ?_
  rw [setMarkup_eq]
  rfl

/-- A child on the furnished page is new, or was a child of the same element before. -/
theorem child_of_furnish {x c : ElementId} {d : PageElement κ}
    (hd : (p.furnish v view markup).element? x = some d) (hc : Child.element c ∈ d.children) :
    p.elements.size ≤ c.index ∨ x ≠ view.container ∧ p.element? x = some d :=
  (child_of_setMarkup (p.hold (.view v)) view.container markup hd hc).imp_left And.left

theorem aside_furnish (b : BusId) (p : Page κ σ) (v : ViewId) (view : View) (markup : String) :
    p.Aside b (p.furnish v view markup) :=
  .of_buses (buses_furnish p v view markup) fun hd =>
    attributes_setMarkup (p.hold (.view v)) view.container markup hd

/-- What was there before a view was populated and is held in the end was held before. -/
theorem fades_populate (hv : p.view? v = some view)
    (hs : Dwindles (p.furnish v view markup) s) (state : ViewState) :
    Fades (·.index < p.elements.size) p
      ((s.modifyView v fun w => { w with state }).release (.view v)) := by
  have hend : Dwindles s (s.modifyView v fun w => { w with state }) :=
    .modifyView fun w _ x hx => keeps_iff.mpr (keeps_iff.mp hx)
  have hall := hs.trans hend
  generalize s.modifyView v (fun w => { w with state }) = q at hall
  have hheld : (q.release (.view v)).held = p.held := by
    show q.held.erase _ = _
    rw [hall.held, held_furnish, List.erase_cons_head]
  have hsize : p.elements.size ≤ (p.furnish v view markup).elements.size :=
    size_setMarkup (p.hold (.view v)) view.container markup
  have hcaptured : ∀ {h}, (p.furnish v view markup).captures h = true → p.captures h = true :=
    fun {h} hh => (captures_of_buses (buses_furnish p v view markup) h).symm.trans hh
  refine ⟨hall.size ▸ hsize, fun {x} hold hr => ?_, fun hh => hcaptured (hall.captured hh),
    fun {x c d} hold hd hc => ?_⟩
  · rw [isRooted_singleton, hheld] at hr
    refine isRooted_singleton.mpr (hr.imp_right fun ⟨u, w', hu, hw', hk⟩ => ?_)
    obtain ⟨w, hw, hkeeps⟩ := hall.views hw'
    by_cases huv : u = v
    · subst huv
      cases (view?_furnish_self hv).symm.trans hw
      refine ⟨u, view, hu, hv, ?_⟩
      rcases keeps_iff.mp (hkeeps x hk) with hx | hx | hx
      · exact keeps_iff.mpr (Or.inl hx)
      · -- the new children were not there before
        exfalso
        obtain ⟨d, hd, hc⟩ := mem_childElements.mp hx
        rcases child_of_furnish hd hc with hnew | ⟨hne, -⟩
        · exact absurd hold (Nat.not_lt.mpr hnew)
        · exact hne rfl
      · exact keeps_iff.mpr (Or.inr (Or.inr hx))
    · rw [view?_furnish_of_ne huv] at hw
      exact ⟨u, w, hu, hw, hkeeps x hk⟩
  · obtain ⟨d', hd', hc'⟩ := hall.children hd
    rcases child_of_furnish hd' (hc' c hc) with hnew | ⟨-, hbefore⟩
    · exact absurd hold (Nat.not_lt.mpr hnew)
    · exact ⟨(Array.getElem?_eq_some_iff.mp hbefore).1, d', hbefore, hc' c hc⟩

end

theorem trail_populate (callbacks : Callbacks κ σ) (frames : Nat) {v : ViewId} {markup : String}
    (hp : p.Open b) (hhome : ∀ view, p.view? v = some view → view.bus = b)
    {answer : Except ViewError Unit}
    (h : (Engine.ofFrames callbacks (frames + 1)).populate v markup p = some (answer, q)) :
    Trail b p ((Engine.ofFrames callbacks (frames + 1)).populateDeeds v markup p) q := by
  unfold Engine.populateDeeds
  cases hv : p.view? v with
  | none =>
    rw [Engine.populate, Run.get_bind, hv] at h
    cases h
    exact .refl p
  | some view =>
    dsimp only
    by_cases hstate : view.state ∈ [ViewState.uninitialized, .fetching]
    · rw [if_pos hstate, hhome view hv]
      rw [populate_of_waiting hv hstate, hhome view hv] at h
      obtain ⟨answer', t, hfill, hend⟩ := Run.bind_eq_some.mp h
      obtain ⟨outcome, s, hchildren, hlast⟩ := Run.bind_eq_some.mp hfill
      have hopen : (p.furnish v view markup).Open b := by
        obtain ⟨r, hr, hq⟩ := hp
        exact ⟨r, (bus?_of_buses (buses_furnish p v view markup) b).trans hr, hq⟩
      obtain ⟨htrail, hdwindles⟩ := trail_bindChildren callbacks frames hopen
        (fun w hw x hx => by
          cases (view?_furnish_self hv).symm.trans hw
          exact keeps_iff.mpr (Or.inr (Or.inl hx))) hchildren
      have hstate' : ∃ state, q = (s.modifyView v fun w => { w with state }).release (.view v) := by
        cases outcome with
        | ok u =>
          cases hlast
          cases hend
          exact ⟨.bound, rfl⟩
        | error failure =>
          cases hlast
          cases hend
          exact ⟨.errored, rfl⟩
      obtain ⟨state, rfl⟩ := hstate'
      have hfades := fades_populate hv hdwindles state
      have hended : p.Ended ((s.modifyView v fun w => { w with state }).release (.view v)) :=
        ⟨hfades.size, fun hd ha =>
          elementAlive_of_fades hfades (Array.getElem?_eq_some_iff.mp hd).1 ha⟩
      have hview : Dwindles s (s.modifyView v fun w => { w with state }) :=
        .modifyView fun w _ x hx => keeps_iff.mpr (keeps_iff.mp hx)
      have hlet : Trail b s [] ((s.modifyView v fun w => { w with state }).release (.view v)) :=
        .single (.aside (.of_same rfl rfl))
          (hview.ended.trans (.of_shrinks (Shrinks.release _ (.view v))))
      have hrest := htrail.trans hlet
      rw [List.append_nil] at hrest
      exact .step (.aside (aside_furnish b p v view markup)) hended hrest
    · rw [if_neg hstate]
      rw [populate_of_refused hv hstate] at h
      cases h
      exact .refl p

/-! ## Editing an attribute -/

theorem trail_edit (b : BusId) (e : ElementId) (name : String) {f : Attributes → Attributes}
    (hf : ∀ a other, Text.lower other ≠ Text.lower name → (f a).get? other = a.get? other)
    (p : Page κ σ) :
    Trail b p [.edited e name]
      (p.modifyElement e fun d => { d with attributes := f d.attributes }) :=
  .single (.edited e name f hf) (.of_shrinks (Shrinks.modifyElement p e fun _ _ hc => hc))

end Page

/-! ## Calls -/

/-- A call of which the deeds are told: all that it announces it announces on the bus. -/
def Call.Told (b : BusId) (p : Page κ σ) : Call κ → Prop
  | publish bus _ _ => bus = b
  | write m _ _ => p.AtHome (· = b) m
  | dispatch e kind => ∀ handler ∈ p.handlers e kind, p.WritesHome (· = b) handler
  | bind bus _ _ => bus = b
  | populate v _ => ∀ view, p.view? v = some view → view.bus = b
  | setAttribute .. => True
  | removeAttribute .. => True
  | setProperty .. => True
  | _ => False

open Page

theorem trail_call (callbacks : Callbacks κ σ) (frames : Nat) {b : BusId} {p q : Page κ σ}
    (hp : p.Open b) {c : Call κ} (hc : c.Told b p) {answer : c.Answer}
    (h : c.run (Engine.ofFrames callbacks (frames + 2)) p = some (answer, q)) :
    Trail b p (c.deeds callbacks (frames + 2) p) q := by
  cases c with
  | publish bus event value =>
    cases hc
    exact (Routine.TracesAt.announce callbacks (frames + 1) event value answer q hp
      ((congrFun (Routine.run_announce ..) p).trans h)).trail
  | write m key value =>
    exact (Routine.TracesAt.write callbacks (frames + 1) value hc answer q hp
      ((congrFun (Routine.run_write ..) p).trans h)).trail
  | dispatch e kind => exact (traced_dispatch callbacks frames hp hc h).trail
  | bind bus m e =>
    cases hc
    exact (traced_bindElement callbacks (frames + 1) hp h).trail
  | populate v markup => exact trail_populate callbacks (frames + 1) hp hc h
  | setAttribute e name value =>
    cases h
    exact trail_edit b e name (fun a _ hn => a.get?_set_of_ne hn value) p
  | removeAttribute e name =>
    cases h
    exact trail_edit b e name (fun a _ hn => a.get?_erase_of_ne hn) p
  | setProperty e name value =>
    cases h
    exact trail_edit b e name (fun a _ hn => a.get?_setProperty_of_ne hn value) p
  | _ => exact hc.elim

end Bindery
