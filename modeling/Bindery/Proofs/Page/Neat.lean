import Bindery.Proofs.Binding.Calm
import Bindery.Proofs.View.Tracing

/-!
# Pages on which only bindings wait

On a page where no element stands inside itself and whatever waits was made by binding, each change
that writing, binding and views make leaves it so, and brings nothing back to life.  Binding makes
listeners that hold nothing, so all that is alive is so for another reason.

* `Page.Neat`        no circles, no containers that are missing, and nothing but bindings
* `ended_of_roots`   nothing is brought back to life if nothing dead comes to be held
* `Page.Harmless`    a change of a neat page after which it is neat, and that revives nothing
* `harmless_hold`, `harmless_receive`, `harmless_bindAttributes`, `harmless_setMarkup`
                     the changes that there are
-/

namespace Bindery

variable {κ σ : Type}

/-- A listener of a binding that captured everything weakly. -/
def Listener.Loose (l : Listener κ) : Prop := l.isBinding = true ∧ l.keeps = []

theorem Handler.writesBack_of_holdsModel {h : Handler κ} (hh : h.holdsModel = true) :
    h.writesBack = true := by
  cases h with
  | writeBack => rfl
  | callback code => cases hh

namespace Page

variable {p q s : Page κ σ}

/-- No element stands inside itself, the containers of views are there, and whatever waits on a bus or
on an element is of the kind that binding makes. -/
structure Neat (p : Page κ σ) : Prop where
  acyclic : p.Acyclic
  housed : ∀ {v view}, p.view? v = some view → ∃ d, p.element? view.container = some d
  listeners : ∀ l ∈ p.listeners, l.Loose
  handlers : ∀ {e d}, p.element? e = some d → ∀ h ∈ d.handlers, h.2.holdsModel = true

theorem Neat.uncaptured (h : p.Neat) : p.Uncaptured := fun l hl => (h.listeners l hl).2

theorem Neat.quietOn (h : p.Neat) (b : BusId) : p.QuietOn b := fun r hr _ l hl =>
  (h.listeners l (mem_listeners.mpr ⟨b, r, hr, Registry.mem_listeners_of_heard hl⟩)).1

/-! ## Nothing comes back to life -/

/-- What was there and is alive was alive before, if nothing dead of it came to be held and it has no
owners but those that it had. -/
theorem ended_of_roots (hp : p.Neat) (hq : q.Neat) (hsize : p.elements.size ≤ q.elements.size)
    (hroots : ∀ {e}, e.index < p.elements.size → q.isRooted [e] = true → p.elementAlive e = true)
    (howners : ∀ {e c d}, c.index < p.elements.size → q.element? e = some d →
      Child.element c ∈ d.children → ∃ d', p.element? e = some d' ∧ Child.element c ∈ d'.children) :
    p.Ended q := by
  refine ⟨hsize, fun {e d} hd ha => ?_⟩
  have hlt : e.index < p.elements.size := (Array.getElem?_eq_some_iff.mp hd).1
  clear hd
  rw [elementAlive_iff_reachable hq.acyclic hq.uncaptured] at ha
  -- along the way from what is held down to the element, all of which was there before
  induction ha with
  | held hheld => exact hroots hlt (isRooted_of_held hheld)
  | view hheld hview hk =>
    exact hroots hlt (isRooted_singleton.mpr (Or.inr ⟨_, _, hheld, hview, hk⟩))
  | @child e c d _ hd hc ih =>
    obtain ⟨d', hd', hc'⟩ := howners hlt hd hc
    have halive := ih (Array.getElem?_eq_some_iff.mp hd').1
    rw [elementAlive_iff_reachable hp.acyclic hp.uncaptured] at halive ⊢
    exact .child halive hd' hc'

/-- A child of an element that is alive is alive. -/
theorem elementAlive_of_child (hp : p.Neat) {e c : ElementId} {d : PageElement κ}
    (ha : p.elementAlive e = true) (hd : p.element? e = some d) (hc : Child.element c ∈ d.children) :
    p.elementAlive c = true := by
  rw [elementAlive_iff_reachable hp.acyclic hp.uncaptured] at ha ⊢
  exact .child ha hd hc

/-! ## What stays neat -/

namespace Neat

theorem of_same (h : p.Neat) (he : q.elements = p.elements) (hv : q.views = p.views)
    (hl : ∀ l ∈ q.listeners, l ∈ p.listeners ∨ l.Loose) : q.Neat where
  acyclic := h.acyclic.of_elements he
  housed hview := by
    unfold element?
    rw [he]
    exact h.housed ((view?_of_views hv _).symm.trans hview)
  listeners l hm := (hl l hm).elim (h.listeners l) id
  handlers hd := by
    unfold element? at hd
    rw [he] at hd
    exact h.handlers hd

theorem of_sameBuses (h : p.Neat) (he : q.elements = p.elements) (hv : q.views = p.views)
    (hb : q.buses = p.buses) : q.Neat :=
  h.of_same he hv fun _ hl => Or.inl (listeners_of_buses hb ▸ hl)

theorem modifyBus (h : p.Neat) (b : BusId) {f : Registry (Listener κ) → Registry (Listener κ)}
    (hf : ∀ r, p.bus? b = some r → ∀ l ∈ (f r).listeners, l ∈ r.listeners ∨ l.Loose) :
    (p.modifyBus b f).Neat := by
  refine h.of_same rfl rfl fun l hl => ?_
  rcases mem_listeners_of_modifyBus hl with hl | ⟨r, hr, hl⟩
  · exact Or.inl hl
  · exact (hf r hr l hl).imp_left fun hl => mem_listeners.mpr ⟨b, r, hr, hl⟩

theorem modifyElement (h : p.Neat) (e : ElementId) {f : PageElement κ → PageElement κ}
    (hc : ∀ d c, Child.element c ∈ (f d).children → Child.element c ∈ d.children)
    (hh : ∀ d, ∀ x ∈ (f d).handlers, x ∈ d.handlers ∨ x.2.holdsModel = true) :
    (p.modifyElement e f).Neat where
  acyclic := h.acyclic.of_noNewChildren (Shrinks.modifyElement p e hc).noNewChildren
  housed hview := by
    obtain ⟨d, hd⟩ := h.housed hview
    exact exists_element_of_size (size_modifyElement ..) hd
  listeners := h.listeners
  handlers {x d} hd y hy := by
    rw [element?_modifyElement] at hd
    split at hd
    · obtain ⟨d', hd', rfl⟩ := Option.map_eq_some_iff.mp hd
      exact (hh d' y hy).elim (h.handlers hd' y) id
    · exact h.handlers hd y hy

theorem modifyView (h : p.Neat) (v : ViewId) {f : View → View}
    (hf : ∀ w, (f w).container = w.container) : (p.modifyView v f).Neat where
  acyclic := h.acyclic.of_elements rfl
  housed {u view} hview := by
    by_cases hu : u = v
    · subst hu
      obtain ⟨w, hw⟩ := exists_view_of_size (p := p.modifyView u f) (q := p) (by simp [Page.modifyView]) hview
      cases (view?_modifyView_self hw f).symm.trans hview
      rw [hf]
      exact h.housed hw
    · exact h.housed ((view?_modifyView_of_ne hu f p).symm.trans hview)
  listeners := h.listeners
  handlers := h.handlers

theorem setMarkup (h : p.Neat) (e : ElementId) (markup : String) : (p.setMarkup e markup).Neat where
  acyclic := h.acyclic.setMarkup e markup
  housed {v view} hview := by
    have hbefore : p.view? v = some view := by
      rw [setMarkup_eq] at hview
      exact hview
    obtain ⟨d, hd⟩ := h.housed hbefore
    exact exists_element_of_le (size_setMarkup p e markup) hd
  listeners l hl := by
    rw [setMarkup_eq] at hl
    exact h.listeners l hl
  handlers {x d} hd := by
    cases he : p.element? e with
    | none =>
      rw [setMarkup_of_none he] at hd
      exact h.handlers hd
    | some d₀ =>
      have hgraft := element_of_graft (P := fun d => ∀ y ∈ d.handlers, y.2.holdsModel = true)
        (fun _ _ _ _ hy => absurd hy List.not_mem_nil) (Fragment.ofText markup) fun _ _ => h.handlers
      rw [setMarkup_of_some he, element?_modifyElement] at hd
      split at hd
      · obtain ⟨d', hd', rfl⟩ := Option.map_eq_some_iff.mp hd
        exact hgraft x d' hd'
      · exact hgraft x d hd

end Neat

/-! ## Changes that do no harm -/

/-- If the page is neat, then it is neat afterwards as well, and nothing came back to life. -/
def Harmless (p q : Page κ σ) : Prop := p.Neat → p.Ended q ∧ q.Neat

namespace Harmless

theorem refl (p : Page κ σ) : p.Harmless p := fun h => ⟨.refl p, h⟩

theorem trans (h : p.Harmless q) (k : q.Harmless s) : p.Harmless s := by
  intro hp
  obtain ⟨hended, hq⟩ := h hp
  obtain ⟨hended', hs⟩ := k hq
  exact ⟨hended.trans hended', hs⟩

theorem of_shrinks (h : Shrinks p q) (hq : p.Neat → q.Neat) : p.Harmless q :=
  fun hp => ⟨.of_shrinks h, hq hp⟩

theorem hold (p : Page κ σ) {x : Handle} (he : ∀ e, x = .element e → p.elementAlive e = true)
    (hv : ∀ v, x = .view v → .view v ∈ p.held) : p.Harmless (p.hold x) := by
  intro hp
  have hq : (p.hold x).Neat := hp.of_sameBuses rfl rfl rfl
  refine ⟨ended_of_roots hp hq (Nat.le_refl _) (fun {e} _ hr => ?_)
    (fun {e c d} _ hd hc => ⟨d, hd, hc⟩), hq⟩
  rcases isRooted_of_hold hr fun v hxv => isHeld_iff.mpr (hxv ▸ hv v hxv) with hr | ⟨c, hc, hx⟩
  · exact elementAlive_of_isRooted hr
  · rw [← List.mem_singleton.mp hc]
    exact he c hx

theorem release (p : Page κ σ) (x : Handle) : p.Harmless (p.release x) :=
  .of_shrinks (Shrinks.release p x) fun hp => hp.of_sameBuses rfl rfl rfl

theorem store (p : Page κ σ) (m : ModelId) (key : String) (value : Value) :
    p.Harmless (p.store m key value) :=
  .of_shrinks (SameLives.store p m key value).shrinks fun hp => hp.of_sameBuses rfl rfl rfl

/-- A bus on which nobody comes to listen but listeners that hold nothing. -/
theorem modifyBus (p : Page κ σ) (b : BusId) {f : Registry (Listener κ) → Registry (Listener κ)}
    (hf : ∀ r, p.bus? b = some r → ∀ l ∈ (f r).listeners, l ∈ r.listeners ∨ l.Loose) :
    p.Harmless (p.modifyBus b f) :=
  .of_shrinks (Shrinks.modifyBus fun r hr l hl => (hf r hr l hl).imp_right And.right)
    fun hp => hp.modifyBus b hf

theorem subscribe (p : Page κ σ) (b : BusId) (event : String) {l : Listener κ} (hl : l.Loose) :
    p.Harmless (p.subscribe b event l).2 :=
  .of_shrinks (Shrinks.subscribe p b event hl.2) fun hp => by
    have hsame : ∀ k ∈ (p.subscribe b event l).2.listeners, k ∈ p.listeners ∨ k.Loose := by
      intro k hk
      rcases mem_listeners_of_subscribe hk with hk | rfl
      · exact Or.inl hk
      · exact Or.inr hl
    cases hb : p.bus? b with
    | none =>
      rw [subscribe_of_none hb]
      exact hp
    | some r =>
      rw [subscribe_of_some hb] at hsame ⊢
      exact hp.of_same rfl rfl hsame

theorem request (p : Page κ σ) (s : ShelfId) (path : String) : p.Harmless (p.request s path).2 := by
  rw [request_eq]
  exact .of_shrinks (SameLives.shrinks ⟨rfl, rfl, rfl, fun _ => rfl⟩) fun hp => hp.of_sameBuses rfl rfl rfl

/-- Writing an element that gets no new children and no callbacks. -/
theorem modifyElement (p : Page κ σ) (e : ElementId) {f : PageElement κ → PageElement κ}
    (hc : ∀ d c, Child.element c ∈ (f d).children → Child.element c ∈ d.children)
    (hh : ∀ d, ∀ x ∈ (f d).handlers, x ∈ d.handlers ∨ x.2.holdsModel = true) :
    p.Harmless (p.modifyElement e f) :=
  .of_shrinks (Shrinks.modifyElement p e hc) fun hp => hp.modifyElement e hc hh

theorem setProperty (p : Page κ σ) (e : ElementId) (name : String) (value : Value) :
    p.Harmless (p.setProperty e name value) :=
  modifyElement p e (fun _ _ hc => hc) fun _ _ hx => Or.inl hx

theorem setText (p : Page κ σ) (e : ElementId) (text : String) : p.Harmless (p.setText e text) :=
  .of_shrinks (Shrinks.setText p e text) fun hp => hp.modifyElement e
    (fun d c hc => by
      dsimp only at hc
      split at hc
      · cases hc
      · cases List.mem_singleton.mp hc) fun _ _ hx => Or.inl hx

theorem bindAttributes (p : Page κ σ) (b : BusId) (m : ModelId) (e : ElementId)
    (entries : List (String × String)) : p.Harmless (p.bindAttributes b m e entries).2 := by
  refine bindAttributes_keeps (fun q kind property key control h => h.trans ?_)
    (fun q name value h => h.trans (setProperty q e name value))
    (fun q event name h => h.trans (subscribe q b event ⟨rfl, rfl⟩)) (refl p) entries
  refine modifyElement q e (fun _ _ hc => hc) fun d x hx => ?_
  rcases List.mem_append.mp hx with hx | hx
  · exact Or.inl hx
  · rw [List.mem_singleton.mp hx]
    exact Or.inr rfl

theorem receive (p : Page κ σ) (value : Value) (l : Listener κ) : p.Harmless (p.receive value l) := by
  cases l with
  | text e m template names changed =>
    rw [receive_text]
    split
    · exact setText p e.target _
    · exact refl p
  | property e name =>
    rw [receive_property]
    split
    · exact setProperty p e.target name value
    · exact refl p
  | callback code => exact refl p

/-- A view that keeps, apart from what it kept, only what is alive. -/
theorem modifyView (p : Page κ σ) (v : ViewId) {f : View → View}
    (hf : ∀ w, (f w).container = w.container)
    (hkeeps : p.Neat → .view v ∈ p.held → ∀ w, p.view? v = some w → ∀ x, (f w).keeps x = true →
      w.keeps x = true ∨ p.elementAlive x = true) : p.Harmless (p.modifyView v f) := by
  intro hp
  have hq : (p.modifyView v f).Neat := hp.modifyView v hf
  refine ⟨ended_of_roots hp hq (Nat.le_refl _) (fun {e} _ hr => ?_)
    (fun {e c d} _ hd hc => ⟨d, hd, hc⟩), hq⟩
  rcases isRooted_singleton.mp hr with hheld | ⟨u, view, hheld, hview, hk⟩
  · exact elementAlive_of_isRooted (isRooted_of_held hheld)
  · by_cases hu : u = v
    · subst hu
      obtain ⟨w, hw⟩ : ∃ w, p.view? u = some w :=
        exists_view_of_size (Array.size_modify.symm) hview
      cases (view?_modifyView_self hw f).symm.trans hview
      rcases hkeeps hp hheld w hw e hk with hk | halive
      · exact elementAlive_of_isRooted (isRooted_singleton.mpr (Or.inr ⟨u, w, hheld, hw, hk⟩))
      · exact halive
    · rw [view?_modifyView_of_ne hu] at hview
      exact elementAlive_of_isRooted (isRooted_singleton.mpr (Or.inr ⟨u, view, hheld, hview, hk⟩))

theorem setMarkup (p : Page κ σ) (e : ElementId) (markup : String) :
    p.Harmless (p.setMarkup e markup) := by
  intro hp
  have hq : (p.setMarkup e markup).Neat := hp.setMarkup e markup
  refine ⟨ended_of_roots hp hq (size_setMarkup p e markup) (fun {x} _ hr => ?_)
    (fun {x c d} hc hd hm => ?_), hq⟩
  · rw [setMarkup_eq] at hr
    exact elementAlive_of_isRooted hr
  · rcases child_of_setMarkup p e markup hd hm with ⟨hnew, -⟩ | ⟨-, hbefore⟩
    · omega
    · exact ⟨d, hbefore, hm⟩

/-! ### New things -/

theorem addBus (p : Page κ σ) (maxDepth : Nat) : p.Harmless (p.addBus maxDepth).2 := by
  have hsame : (p.addBus maxDepth).2.listeners = p.listeners := by
    show (p.buses.push _).toList.flatMap _ = _
    rw [Array.toList_push, List.flatMap_append]
    exact List.append_nil _
  have hlives : SameLives p (p.addBus maxDepth).2 :=
    ⟨rfl, rfl, rfl, fun h => by rw [Page.captures, hsame]; rfl⟩
  exact of_shrinks hlives.shrinks fun hp => hp.of_same rfl rfl fun l hl => Or.inl (hsame ▸ hl)

theorem create (p : Page κ σ) (tag : String) :
    p.Harmless ((p.createElement tag).2.hold (.element (p.createElement tag).1)) := by
  intro hp
  have hold : ∀ {e : ElementId} {d : PageElement κ}, (p.createElement tag).2.element? e = some d →
      d.handlers = [] ∨ p.element? e = some d := by
    intro e d hd
    change (p.elements.push _)[e.index]? = some d at hd
    rw [Array.getElem?_push] at hd
    split at hd
    · cases hd
      exact Or.inl rfl
    · exact Or.inr hd
  have hsize : p.elements.size ≤ (p.createElement tag).2.elements.size := by
    show _ ≤ (p.elements.push _).size
    rw [Array.size_push]
    omega
  have hedges : NoNewChildren p ((p.createElement tag).2.hold (.element (p.createElement tag).1)) :=
    noNewChildren_createElement p tag
  have hq : ((p.createElement tag).2.hold (.element (p.createElement tag).1)).Neat := by
    refine ⟨hp.acyclic.of_noNewChildren hedges, fun hview => ?_, hp.listeners, fun hd x hx => ?_⟩
    · obtain ⟨d, hd⟩ := hp.housed hview
      exact exists_element_of_le hsize hd
    · rcases hold hd with hnone | hbefore
      · rw [hnone] at hx
        cases hx
      · exact hp.handlers hbefore x hx
  refine ⟨ended_of_roots hp hq hsize (fun {e} hlt hr => ?_)
    (fun _ hd hc => hedges hd hc), hq⟩
  rcases isRooted_of_hold hr fun v hv => nomatch hv with hr | ⟨c, hc, hx⟩
  · exact elementAlive_of_isRooted hr
  · cases hx
    rw [← List.mem_singleton.mp hc] at hlt
    exact absurd hlt (Nat.lt_irrefl _)

theorem observe (p : Page κ σ) (bus : BusId) (name : String) (values : Record) :
    p.Harmless ((p.addModel bus name values).2.hold (.model (p.addModel bus name values).1)) := by
  have hadd : p.Harmless (p.addModel bus name values).2 :=
    of_shrinks (SameLives.shrinks ⟨rfl, rfl, rfl, fun _ => rfl⟩) fun hp => hp.of_sameBuses rfl rfl rfl
  exact hadd.trans (hold _ (fun e he => nomatch he) fun v hv => nomatch hv)

theorem addView (p : Page κ σ) {view : View} (ha : p.elementAlive view.container = true)
    (hhouse : ∃ d, p.element? view.container = some d)
    (hnew : view.children = [] ∧ view.targets = []) :
    p.Harmless ((p.addView view).2.hold (.view (p.addView view).1)) := by
  intro hp
  have hview : ∀ {v w}, (p.addView view).2.view? v = some w → w = view ∨ p.view? v = some w := by
    intro v w hw
    change (p.views.push view)[v.index]? = some w at hw
    rw [Array.getElem?_push] at hw
    split at hw
    · exact Or.inl (Option.some.inj hw).symm
    · exact Or.inr hw
  have hq : ((p.addView view).2.hold (.view (p.addView view).1)).Neat := by
    refine ⟨hp.acyclic.of_elements rfl, fun hw => ?_, hp.listeners,
      hp.handlers⟩
    rcases hview hw with rfl | hbefore
    · exact hhouse
    · exact hp.housed hbefore
  refine ⟨ended_of_roots hp hq (Nat.le_refl _) (fun {e} _ hr => ?_)
    (fun {e c d} _ hd hc => ⟨d, hd, hc⟩), hq⟩
  have hkept : view.keeps e = true → p.elementAlive e = true := by
    intro hk
    rcases keeps_iff.mp hk with hk | hk | ⟨t, ht, -⟩
    · exact hk ▸ ha
    · rw [hnew.1] at hk
      cases hk
    · rw [hnew.2] at ht
      cases ht
  rcases isRooted_singleton.mp hr with hheld | ⟨v, w, hheld, hw, hk⟩
  · rcases List.mem_cons.mp hheld with he | hheld
    · cases he
    · exact elementAlive_of_isRooted (isRooted_of_held hheld)
  · rcases hview hw with rfl | hbefore
    · exact hkept hk
    · rcases List.mem_cons.mp hheld with he | hheld
      · -- the identity of the new view was not in use
        cases he
        have hnone : p.view? (p.addView view).1 = none := Array.getElem?_eq_none (Nat.le_refl _)
        cases hnone.symm.trans hbefore
      · exact elementAlive_of_isRooted (isRooted_singleton.mpr (Or.inr ⟨v, w, hheld, hbefore, hk⟩))

end Harmless

end Page

end Bindery
