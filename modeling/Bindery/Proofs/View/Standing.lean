import Bindery.Proofs.Binding.Calm
import Bindery.Proofs.Engine.Preserving

/-!
# Views that stand

A view that has its markup, or has failed, stands: it refuses to be loaded and to be populated, and
nothing else writes to it but the populating that it is in.  So whatever is called, and whatever that
calls in turn, leaves the view as it is.

* `Page.Spared`          a view, and some of the shelves, left as they are
* `ViewState.stands`     the states in which a view refuses markup
* `preserves_spared`     whatever an engine calls leaves a view that stands as it is
-/

namespace Bindery

variable {κ σ α : Type}

namespace Page

/-- The view is left as it is, and so are some of the shelves. -/
structure Spared (v : ViewId) (kept : ShelfId → Prop) (p q : Page κ σ) : Prop where
  view : ∀ {w}, p.view? v = some w → q.view? v = some w
  shelf : ∀ {s x}, kept s → p.shelf? s = some x → q.shelf? s = some x

variable {v : ViewId} {kept : ShelfId → Prop} {p q t : Page κ σ}

namespace Spared

theorem refl (p : Page κ σ) : p.Spared v kept p := ⟨id, fun _ h => h⟩

theorem trans (h : p.Spared v kept q) (k : q.Spared v kept t) : p.Spared v kept t :=
  ⟨fun hw => k.view (h.view hw), fun hs hx => k.shelf hs (h.shelf hs hx)⟩

theorem of_same (hv : q.views = p.views) (hs : q.shelves = p.shelves) : p.Spared v kept q where
  view hw := (view?_of_views hv v).trans hw
  shelf {s x} _ hx := by
    unfold shelf? at hx ⊢
    rw [hs]
    exact hx

theorem modifyView {w : ViewId} (hw : w ≠ v) (p : Page κ σ) (f : View → View) :
    p.Spared v kept (p.modifyView w f) where
  view {x} hx := by
    have hne : ¬ w.index = v.index := fun he => hw (congrArg ViewId.mk he)
    show (p.views.modify w.index f)[v.index]? = some x
    rw [Array.getElem?_modify, if_neg hne]
    exact hx
  shelf _ h := h

theorem setMarkup (p : Page κ σ) (e : ElementId) (markup : String) :
    p.Spared v kept (p.setMarkup e markup) := by
  rw [setMarkup_eq]
  exact of_same rfl rfl

theorem receive (p : Page κ σ) (value : Value) (l : Listener κ) :
    p.Spared v kept (p.receive value l) := by
  rw [receive_eq]
  exact of_same rfl rfl

theorem subscribe (p : Page κ σ) (b : BusId) (event : String) (l : Listener κ) :
    p.Spared v kept (p.subscribe b event l).2 := by
  cases hb : p.bus? b with
  | none =>
    rw [subscribe_of_none hb]
    exact refl p
  | some r =>
    rw [subscribe_of_some hb]
    exact of_same rfl rfl

theorem bindAttributes (p : Page κ σ) (b : BusId) (m : ModelId) (e : ElementId)
    (entries : List (String × String)) : p.Spared v kept (p.bindAttributes b m e entries).2 := by
  have htied : Tied b m e p (p.bindAttributes b m e entries).2 := tied_bindAttributes entries
  rw [htied.rest]
  exact of_same rfl rfl

theorem request {s : ShelfId} (hs : ¬ kept s) (p : Page κ σ) (path : String) :
    p.Spared v kept (p.request s path).2 where
  view hw := (view?_request p s path v).trans hw
  shelf {c x} hc hx := by
    have hne : ¬ s.index = c.index := fun he => by
      have hsc : s = c := congrArg ShelfId.mk he
      exact hs (hsc ▸ hc)
    unfold Page.request
    cases p.shelf? s with
    | none => exact hx
    | some shelf =>
      show (p.shelves.modify s.index _)[c.index]? = some x
      rw [Array.getElem?_modify, if_neg hne]
      exact hx

theorem addShelf (p : Page κ σ) (entries : List (String × Fetched)) :
    p.Spared v kept (p.addShelf entries).2 where
  view h := h
  shelf {s x} _ hx := by
    have hlt : s.index < p.shelves.size := (Array.getElem?_eq_some_iff.mp hx).1
    show (p.shelves.push _)[s.index]? = some x
    rw [Array.getElem?_push_lt hlt, ← Array.getElem?_eq_getElem hlt]
    exact hx

theorem openView (p : Page κ σ) (b : BusId) (request : ViewRequest) :
    p.Spared v kept (p.openView b request).2 := by
  unfold Page.openView
  split
  · exact refl p
  · refine ⟨fun {w} hw => ?_, fun _ h => h⟩
    have hlt : v.index < p.views.size := (Array.getElem?_eq_some_iff.mp hw).1
    show (p.views.push _)[v.index]? = some w
    rw [Array.getElem?_push_lt hlt, ← Array.getElem?_eq_getElem hlt]
    exact hw

end Spared

theorem ordinary_spared : Ordinary (Spared v kept (κ := κ) (σ := σ)) where
  refl := .refl
  hold _ _ := .of_same rfl rfl
  release _ _ := .of_same rfl rfl
  store _ _ _ _ := .of_same rfl rfl
  subscribe := .subscribe
  bindAttributes := .bindAttributes

end Page

open Page

/-- Some shelves are asked for the templates of one view only. -/
def Call.AsksFor (v : ViewId) (kept : ShelfId → Prop) : Call κ → Prop
  | load w (some s) => kept s → w = v
  | _ => True

variable {v : ViewId} {kept : ShelfId → Prop}

theorem Callbacks.asksFor_none (callbacks : Callbacks κ σ) (v : ViewId) :
    callbacks.Tame (Call.AsksFor v fun _ => False) := by
  refine Callbacks.tame_of_forall (fun c => ?_) callbacks
  cases c with
  | load w shelf =>
    cases shelf with
    | none => trivial
    | some s => exact False.elim
  | _ => trivial

/-- What is no loading or populating of the view. -/
theorem Call.spared_routine {c : Call κ} (hc : c.AsksFor v kept) (hload : ∀ shelf, c ≠ load v shelf)
    (hpopulate : ∀ markup, c ≠ populate v markup) :
    (c.routine : Routine κ σ _).Within (Spared v kept) True := by
  cases c with
  | subscribe bus event code => exact .amendGet fun p => .subscribe p bus event _
  | publish bus event value => exact .announce bus event value
  | observe bus name values => exact .amendGet fun _ => .of_same rfl rfl
  | openBus maxDepth => exact .amendGet fun _ => .of_same rfl rfl
  | create tag => exact .amendGet fun _ => .of_same rfl rfl
  | write m key value => exact ordinary_spared.write m key value
  | setMarkup e markup => exact .amend fun p => .setMarkup p e markup
  | dispatch e kind => exact .fire trivial e kind
  | bind bus m e => exact ordinary_spared.bindElement bus m e
  | stock entries => exact .amendGet fun p => .addShelf p entries
  | openView bus request => exact .amendGet fun p => .openView p bus request
  | load w shelf =>
    have hw : w ≠ v := fun h => hload shelf (h ▸ rfl)
    refine ordinary_spared.load (.modifyView hw) .setMarkup fun s hs p path => ?_
    subst hs
    exact .request (fun hk => hw (hc hk)) p path
  | populate w markup =>
    have hw : w ≠ v := fun h => hpopulate markup (h ▸ rfl)
    exact ordinary_spared.populate (.modifyView hw) .setMarkup markup
  | _ => exact .amend fun _ => .of_same rfl rfl

/-- The states in which a view refuses markup. -/
def ViewState.stands (state : ViewState) : Prop := state ∉ [uninitialized, fetching]

instance (state : ViewState) : Decidable state.stands :=
  inferInstanceAs (Decidable (state ∉ [ViewState.uninitialized, .fetching]))

namespace Engine

variable {callbacks : Callbacks κ σ} {engine : Engine κ σ} {p q t : Page κ σ}

theorem spared_call (he : engine.Preserves (p.Spared v kept)) {w : View} (hw : p.view? v = some w)
    (hstands : w.state.stands) {c : Call κ} (hc : c.AsksFor v kept) {a : c.Answer}
    (h : c.run engine q = some (a, t)) (hq : p.Spared v kept q) : p.Spared v kept t := by
  by_cases hload : ∃ shelf, c = .load v shelf
  · obtain ⟨shelf, rfl⟩ := hload
    have hne : w.state ≠ .uninitialized := fun hs => hstands (hs ▸ List.mem_cons_self)
    cases (load_of_refused (hq.view hw) hne shelf).symm.trans h
    exact hq
  by_cases hpopulate : ∃ markup, c = .populate v markup
  · obtain ⟨markup, rfl⟩ := hpopulate
    cases (populate_of_refused (hq.view hw) hstands markup).symm.trans h
    exact hq
  have hr := c.spared_routine (σ := σ) hc (fun shelf hs => hload ⟨shelf, hs⟩)
    fun markup hs => hpopulate ⟨markup, hs⟩
  exact he.call (hr.mono (fun _ _ h hp => hp.trans h) fun h => h) h hq

/-- A view that stands is left as it is by whatever is called. -/
theorem preserves_spared {w : View} (hw : p.view? v = some w) (hstands : w.state.stands)
    (hc : callbacks.Tame (Call.AsksFor v kept)) (frames : Nat) :
    (ofFrames callbacks frames).Preserves (p.Spared v kept) := by
  have hprogram : ∀ {β : Type} {engine : Engine κ σ}, engine.Preserves (p.Spared v kept) →
      ∀ {program : Program κ σ β} {a : β} {q t : Page κ σ}, program.Tame (Call.AsksFor v kept) →
        program.run engine q = some (a, t) → p.Spared v kept q → p.Spared v kept t :=
    fun he _ _ _ _ ht h hq =>
      Preserves.program (fun hc h hq => spared_call he hw hstands hc h hq)
        (fun _ hq => hq.trans (.of_same rfl rfl)) ht h hq
  refine preserves_ofFrames (fun _ _ h => h.trans (.of_same rfl rfl))
    (fun _ h => h.trans (.of_same rfl rfl)) (fun _ h => h.trans (.of_same rfl rfl))
    (fun he l value a q t h hq => ?_) (fun he e handler a q t h hq => ?_) frames
  · cases l with
    | callback code => exact hprogram he (hc.onPublish code value) h hq
    | text | property =>
      rw [notify_eq] at h
      cases h
      exact hq.trans (.receive q value _)
  · cases handler with
    | callback code => exact hprogram he (hc.onEvent code e) h hq
    | writeBack m property key control =>
      rw [handle, Run.get_bind] at h
      split at h
      · have hr : (Routine.write m.target key (control.coerce (q.property e property)) :
            Routine κ σ Outcome).Within (Spared v kept) True := ordinary_spared.write m.target key _
        rw [← Routine.run_write] at h
        exact he.routine (hr.mono (fun _ _ h hp => hp.trans h) fun h => h) h hq
      · cases h
        exact hq

/-- Binding an element leaves a view that stands as it is. -/
theorem spared_bindElement {w : View} (hw : p.view? v = some w) (hstands : w.state.stands)
    (hc : callbacks.Tame (Call.AsksFor v kept)) {frames : Nat} {bus : BusId} {m : ModelId}
    {e : ElementId} {outcome : Except BusError (List Target)}
    (h : (ofFrames callbacks frames).bindElement bus m e p = some (outcome, q)) :
    p.Spared v kept q := by
  rw [← Routine.run_bindElement] at h
  have hr : (Routine.bindElement bus m e : Routine κ σ _).Within (Spared v kept) True :=
    ordinary_spared.bindElement bus m e
  exact (preserves_spared hw hstands hc frames).routine
    (hr.mono (fun _ _ h hp => hp.trans h) fun h => h) h (.refl p)

end Engine

end Bindery
