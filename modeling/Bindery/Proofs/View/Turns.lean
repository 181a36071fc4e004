import Bindery.Proofs.View.Standing

/-!
# One call on a view

A view is asked to load, or to be populated.  The call is refused and nothing happens; or no markup
comes, and no more than the state of the view and the count of a shelf change; or the view is given its
markup, and ends bound or errored.

* `Turn`             a call on a view, with the pages before and after it
* `populate_ends`    how a view ends that is given markup
* `Turn.Result`      what one call can do, and `result_of_ask`, that it does that
* `Result.shelf?`, `Result.idle`   what it does to a shelf, and what it does without markup
-/

namespace Bindery

/-- What may be asked of a view. -/
inductive ViewCall where
  | load (shelf : Option ShelfId)
  | populate (markup : String)
deriving DecidableEq

namespace ViewCall

def operation : ViewCall → String
  | load _ => "load"
  | populate _ => "populate"

def states : ViewCall → List ViewState
  | load _ => [.uninitialized]
  | populate _ => [.uninitialized, .fetching]

end ViewCall

variable {κ σ α : Type}

def Engine.ask (engine : Engine κ σ) (v : ViewId) : ViewCall → Run κ σ (Except ViewError Loaded)
  | .load shelf => engine.load v shelf
  | .populate markup => do return (← engine.populate v markup).map fun _ => .bound

/-- One call on a view, with the pages before and after it. -/
structure Turn (κ σ : Type) where
  call : ViewCall
  before : Page κ σ
  after : Page κ σ
  answer : Except ViewError Loaded

namespace Turn

def asked (t : Turn κ σ) : Bool :=
  match t.call, t.answer with
  | .load _, .error (.invalidState ..) => false
  | .load _, _ => true
  | .populate _, _ => false

def gotMarkup (t : Turn κ σ) : Bool :=
  match t.answer with
  | .ok .bound => true
  | .error (.bus _) => true
  | _ => false

end Turn

/-! ## One call -/

namespace Page

variable {v : ViewId} {kept : ShelfId → Prop} {p q : Page κ σ} {w : View}

theorem view?_furnish (hv : p.view? v = some w) (markup : String) :
    ∃ children, (p.furnish v w markup).view? v = some { w with children, state := .populated } := by
  have hset : (p.hold (.view v)).Spared v (fun _ => False)
      ((p.hold (.view v)).setMarkup w.container markup) := .setMarkup _ _ _
  exact ⟨_, view?_modifyView_self (hset.view hv) _⟩

theorem shelf?_furnish (p : Page κ σ) (v : ViewId) (w : View) (markup : String) (s : ShelfId) :
    (p.furnish v w markup).shelf? s = p.shelf? s := by
  show ((p.hold (.view v)).setMarkup w.container markup).shelf? s = _
  rw [setMarkup_eq]
  rfl

end Page

namespace Engine

open Page

variable {callbacks : Callbacks κ σ} {frames : Nat} {v : ViewId} {kept : ShelfId → Prop}
  {p q : Page κ σ} {w : View}

/-- Binding the children of a view adds targets to it, and does nothing else to it. -/
theorem bindChildren_spares (hc : callbacks.Tame (Call.AsksFor v kept)) {bus : BusId} {m : ModelId}
    {es : List ElementId} {outcome : Outcome} (hv : p.view? v = some w) (hstands : w.state.stands)
    (h : (ofFrames callbacks frames).bindChildren v bus m es p = some (outcome, q)) :
    (∃ targets, q.view? v = some { w with targets }) ∧
      ∀ s x, kept s → p.shelf? s = some x → q.shelf? s = some x := by
  induction es generalizing p w with
  | nil =>
    cases h
    exact ⟨⟨w.targets, hv⟩, fun _ _ _ hx => hx⟩
  | cons e rest ih =>
    obtain ⟨bound, t, hbind, hrest⟩ := Run.bind_eq_some.mp h
    have hone := spared_bindElement hv hstands hc hbind
    cases bound with
    | error failure =>
      cases hrest
      exact ⟨⟨w.targets, hone.view hv⟩, fun _ _ hs hx => hone.shelf hs hx⟩
    | ok targets =>
      have hview := view?_modifyView_self (hone.view hv)
        fun view => { view with targets := view.targets ++ targets }
      obtain ⟨⟨all, hall⟩, hshelf⟩ := ih hview hstands hrest
      exact ⟨⟨all, hall⟩, fun s x hs hx => hshelf s x hs (hone.shelf hs hx)⟩

theorem populate_ends (hc : callbacks.Tame (Call.AsksFor v kept)) (hv : p.view? v = some w)
    (hstate : w.state ∈ [ViewState.uninitialized, .fetching]) {markup : String}
    {answer : Except ViewError Unit}
    (h : (ofFrames callbacks frames).populate v markup p = some (answer, q)) :
    (∃ state children targets, q.view? v = some { w with state, children, targets } ∧
      (answer = .ok () ∧ state = .bound ∨ ∃ f, answer = .error (.bus f) ∧ state = .errored)) ∧
      ∀ s x, kept s → p.shelf? s = some x → q.shelf? s = some x := by
  rw [populate_of_waiting hv hstate] at h
  obtain ⟨answer', t, hfill, hend⟩ := Run.bind_eq_some.mp h
  obtain ⟨outcome, r, hbind, hlast⟩ := Run.bind_eq_some.mp hfill
  cases hend
  obtain ⟨children, hfurnish⟩ := view?_furnish hv markup
  have hstands : ViewState.populated.stands := by decide
  obtain ⟨⟨targets, hview⟩, hshelf⟩ := bindChildren_spares hc hfurnish hstands hbind
  have hsame : ∀ s x, kept s → p.shelf? s = some x → r.shelf? s = some x :=
    fun s x hs hx => hshelf s x hs ((shelf?_furnish p v w markup s).trans hx)
  cases outcome with
  | ok u =>
    cases hlast
    exact ⟨⟨.bound, children, targets, view?_modifyView_self hview _, Or.inl ⟨rfl, rfl⟩⟩, hsame⟩
  | error failure =>
    cases hlast
    exact ⟨⟨.errored, children, targets, view?_modifyView_self hview _,
      Or.inr ⟨failure, rfl, rfl⟩⟩, hsame⟩

end Engine

/-! ## What one call can do -/

/-- The page after the template of a view was asked for, if it was. -/
def Page.asking (p : Page κ σ) (v : ViewId) (w : View) : ViewCall → Page κ σ
  | .load shelf => (Engine.fetched p v w shelf).2
  | .populate _ => p

/-- What one call on the view `w` does. -/
inductive Turn.Result (callbacks : Callbacks κ σ) (v : ViewId) (w : View) : Turn κ σ → Prop where
  | refused {c : ViewCall} {p : Page κ σ} : w.state ∉ c.states →
      Result callbacks v w ⟨c, p, p, .error (.invalidState c.operation w.state.name)⟩
  /-- The answer did not come. -/
  | pending {shelf : Option ShelfId} {p : Page κ σ} : w.state = .uninitialized →
      Result callbacks v w ⟨.load shelf, p, (Engine.fetched p v w shelf).2, .ok .pending⟩
  /-- The shelf has no markup. -/
  | failed {shelf : Option ShelfId} {p : Page κ σ} {failure : FetchError} : w.state = .uninitialized →
      Result callbacks v w ⟨.load shelf, p, (Engine.fetched p v w shelf).2.modifyView v
        fun w => { w with state := .errored }, .error (.fetch failure)⟩
  /-- The view was given its markup. -/
  | given {c : ViewCall} {p q : Page κ σ} {answer : Except ViewError Loaded} {state : ViewState}
      {children : List ElementId} {targets : List Target} : w.state ∈ c.states →
      q.view? v = some { w with state, children, targets } →
      (answer = .ok .bound ∧ state = .bound ∨
        ∃ f, answer = .error (.bus f) ∧ state = .errored) →
      (∀ kept, callbacks.Tame (Call.AsksFor v kept) → ∀ s x, kept s →
        (p.asking v w c).shelf? s = some x → q.shelf? s = some x) →
      Result callbacks v w ⟨c, p, q, answer⟩

namespace Engine

open Page

variable {callbacks : Callbacks κ σ} {frames : Nat} {v : ViewId} {p q : Page κ σ} {w : View}
  {answer : Except ViewError Loaded}

theorem ask_of_refused {engine : Engine κ σ} (hv : p.view? v = some w) {c : ViewCall}
    (hstate : w.state ∉ c.states) :
    engine.ask v c p = some (.error (.invalidState c.operation w.state.name), p) := by
  cases c with
  | load shelf => exact load_of_refused hv (fun h => hstate (h ▸ List.mem_cons_self)) shelf
  | populate markup =>
    have hrefused : engine.populate v markup p
        = some (.error (.invalidState "populate" w.state.name), p) :=
      populate_of_refused hv hstate markup
    exact (Run.bind_of_eq hrefused _).trans rfl

theorem given_of_populate {c : ViewCall} {t : Page κ σ} {state : ViewState} {markup : String}
    {a : Except ViewError Unit} (hc : w.state ∈ c.states)
    (ht : t.view? v = some { w with state }) (hstate : state ∈ [ViewState.uninitialized, .fetching])
    (hasking : t = p.asking v w c)
    (h : (ofFrames callbacks frames).populate v markup t = some (a, q)) :
    Turn.Result callbacks v w ⟨c, p, q, a.map fun _ => .bound⟩ := by
  obtain ⟨⟨last, children, targets, hview, hend⟩, -⟩ := populate_ends (callbacks.asksFor_none v) ht hstate h
  refine .given hc hview ?_ fun kept hkept s x hs hx => ?_
  · rcases hend with ⟨rfl, hlast⟩ | ⟨f, rfl, hlast⟩
    · exact Or.inl ⟨rfl, hlast⟩
    · exact Or.inr ⟨f, rfl, hlast⟩
  · exact (populate_ends hkept ht hstate h).2 s x hs (hasking ▸ hx)

theorem result_of_ask (hv : p.view? v = some w) {c : ViewCall}
    (h : (ofFrames callbacks frames).ask v c p = some (answer, q)) :
    Turn.Result callbacks v w ⟨c, p, q, answer⟩ := by
  by_cases hstate : w.state ∈ c.states
  case neg =>
    cases (ask_of_refused hv hstate).symm.trans h
    exact .refused hstate
  cases c with
  | populate markup =>
    obtain ⟨a, t, ha, hend⟩ := Run.bind_eq_some.mp h
    cases hend
    have hw : p.view? v = some { w with state := w.state } := hv
    exact given_of_populate hstate hw hstate rfl ha
  | load shelf =>
    have huninit : w.state = .uninitialized := List.mem_singleton.mp hstate
    have hview := view?_fetched hv shelf
    change (ofFrames callbacks frames).load v shelf p = some (answer, q) at h
    rw [load_of_uninitialized hv huninit] at h
    cases hanswer : (fetched p v w shelf).1 with
    | none =>
      rw [hanswer] at h
      cases h
      exact .pending huninit
    | some fetched =>
      rw [hanswer] at h
      cases fetched with
      | error failure =>
        cases h
        exact .failed huninit
      | ok markup =>
        obtain ⟨a, t, ha, hend⟩ := Run.bind_eq_some.mp h
        cases hend
        exact given_of_populate hstate hview (List.mem_cons_of_mem _ List.mem_cons_self) rfl ha

end Engine

namespace Page

variable {v : ViewId} {w : View} {p : Page κ σ} {s : ShelfId} {x : Shelf}

theorem shelf?_request (hx : p.shelf? s = some x) (c : ShelfId) (path : String) :
    (p.request c path).2.shelf? s
      = some { x with requests := x.requests + if c = s then 1 else 0 } := by
  by_cases hcs : c = s
  · subst hcs
    have hreq : (p.request c path).2 = p.modifyShelf c fun _ => (x.retrieve path).2 := by
      unfold request
      rw [hx]
    rw [hreq, if_pos rfl]
    show (p.shelves.modify c.index _)[c.index]? = _
    rw [Array.getElem?_modify, if_pos rfl]
    exact congrArg (Option.map _) hx
  · have hspared : p.Spared ⟨0⟩ (· = s) (p.request c path).2 := by
      refine .request ?_ p path
      exact hcs
    rw [if_neg hcs]
    exact hspared.shelf rfl hx

theorem shelf?_asking (hx : p.shelf? s = some x) (c : ViewCall) :
    (p.asking v w c).shelf? s
      = some { x with requests := x.requests + if c = .load (some s) then 1 else 0 } := by
  cases c with
  | populate markup => exact hx
  | load shelf =>
    cases shelf with
    | none => exact hx
    | some c =>
      have hfetching : (p.modifyView v fun w => { w with state := .fetching }).shelf? s = some x := hx
      refine (shelf?_request hfetching c w.path).trans ?_
      simp only [ViewCall.load.injEq, Option.some.injEq]

end Page

namespace Turn.Result

variable {callbacks : Callbacks κ σ} {v : ViewId} {w : View} {t : Turn κ σ}

theorem count_eq {s : ShelfId} (h : t.call = .load (some s) → t.asked = true) :
    (if t.asked = true ∧ t.call = .load (some s) then 1 else 0)
      = if t.call = .load (some s) then 1 else 0 :=
  if_congr (and_iff_right_of_imp h) rfl rfl

/-- What the call did to a shelf, if whatever was called asked that shelf for no other view. -/
theorem shelf? (h : t.Result callbacks v w) {s : ShelfId} {x : Shelf}
    (hx : t.before.shelf? s = some x)
    (hkept : t.gotMarkup = true → callbacks.Tame (Call.AsksFor v (· = s))) :
    t.after.shelf? s = some { x with
      requests := x.requests + if t.asked = true ∧ t.call = .load (some s) then 1 else 0 } := by
  cases h with
  | @refused c p hstate =>
    have hno : ¬ (Turn.asked ⟨c, p, p, .error (.invalidState c.operation w.state.name)⟩ = true ∧
        c = .load (some s)) := fun h => by
      cases c with
      | load shelf => cases h.1
      | populate markup => cases h.1
    rw [if_neg hno]
    exact hx
  | @pending shelf p hstate =>
    rw [count_eq fun _ => rfl]
    exact Page.shelf?_asking hx (.load shelf)
  | @failed shelf p failure hstate =>
    rw [count_eq fun _ => rfl]
    exact Page.shelf?_asking hx (.load shelf)
  | @given c p q answer state children targets hstate hview hend hshelf =>
    have hgot : Turn.gotMarkup ⟨c, p, q, answer⟩ = true := by
      rcases hend with ⟨rfl, -⟩ | ⟨f, rfl, -⟩ <;> rfl
    have hasked : c = .load (some s) → Turn.asked ⟨c, p, q, answer⟩ = true := by
      rintro rfl
      rcases hend with ⟨rfl, -⟩ | ⟨f, rfl, -⟩ <;> rfl
    rw [count_eq hasked]
    exact hshelf _ (hkept hgot) s _ rfl (Page.shelf?_asking hx c)

theorem fetched_rest (p : Page κ σ) (v : ViewId) (w : View) (shelf : Option ShelfId) :
    (Engine.fetched p v w shelf).2 = { p with
      views := (p.modifyView v fun w => { w with state := .fetching }).views
      shelves := (Engine.fetched p v w shelf).2.shelves } := by
  cases shelf with
  | none => rfl
  | some s => exact Page.request_eq (p.modifyView v fun w => { w with state := .fetching }) s w.path

/-- A call that gave the view no markup changed nothing but the state of the view, and the count of the
shelf that was asked. -/
theorem idle (h : t.Result callbacks v w) (hv : t.before.view? v = some w)
    (hgot : t.gotMarkup = false) :
    t.after = { t.before with views := t.after.views, shelves := t.after.shelves } ∧
      (∀ u, u ≠ v → t.after.view? u = t.before.view? u) ∧
      ∃ state, t.after.view? v = some { w with state } := by
  cases h with
  | refused hstate => exact ⟨rfl, fun _ _ => rfl, w.state, hv⟩
  | @pending shelf p hstate =>
    have hrest := fetched_rest p v w shelf
    refine ⟨?_, fun u hu => ?_, .fetching, Engine.view?_fetched hv shelf⟩
    · dsimp only
      rw [hrest]
    · dsimp only
      rw [hrest]
      exact Page.view?_modifyView_of_ne hu _ p
  | @failed shelf p failure hstate =>
    have hrest := fetched_rest p v w shelf
    refine ⟨?_, fun u hu => ?_, .errored, Page.view?_modifyView_self (Engine.view?_fetched hv shelf) _⟩
    · dsimp only
      rw [hrest]
      rfl
    · dsimp only
      rw [Page.view?_modifyView_of_ne hu, hrest]
      exact Page.view?_modifyView_of_ne hu _ p
  | given hstate hview hend hshelf =>
    rcases hend with ⟨rfl, -⟩ | ⟨f, rfl, -⟩ <;> cases hgot

end Turn.Result

end Bindery
