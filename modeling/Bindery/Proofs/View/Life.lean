import Bindery.Proofs.View.Turns

/-!
# The life of a view

From when it is opened a view is asked to load and to be populated, in any order, and in between
anything else may happen on the page.  It asks for its template once at most; until it is given markup
nothing but its state changes; and once it is bound or errored it stays what it is.

* `Life`             the calls on a view, in order
* `View.Reached`     what is known of the view after some calls, and `Reached.next`, after one more
* `view_lifecycle`   what holds at any time
-/

namespace Bindery

variable {κ σ : Type}

/-- The calls on a view since it was opened, first one first.  Between them anything may happen to the
page except that somebody else writes to the view. -/
inductive Life (callbacks : Callbacks κ σ) (v : ViewId) (opened : Page κ σ) :
    List (Turn κ σ) → Page κ σ → Prop where
  | opened : Life callbacks v opened [] opened
  | meanwhile {turns : List (Turn κ σ)} {p q : Page κ σ} :
      Life callbacks v opened turns p → q.view? v = p.view? v → Life callbacks v opened turns q
  | call {turns : List (Turn κ σ)} {p q : Page κ σ} {c : ViewCall} {answer : Except ViewError Loaded}
      (frames : Nat) : Life callbacks v opened turns p →
      (Engine.ofFrames callbacks frames).ask v c p = some (answer, q) →
      Life callbacks v opened (turns ++ [⟨c, p, q, answer⟩]) q

/-- What is known of a view, once called `born`, after some calls on it. -/
structure View.Reached (born : View) (turns : List (Turn κ σ)) (w : View) : Prop where
  same : w = { born with state := w.state, children := w.children, targets := w.targets }
  asked : (turns.filter Turn.asked).length ≤ if w.state = .uninitialized then 0 else 1
  settled : w.state ≠ .populated
  waiting : ¬ w.state.stands → ∀ t ∈ turns, t.gotMarkup = false
  empty : (∀ t ∈ turns, t.gotMarkup = false) →
    w.children = born.children ∧ w.targets = born.targets ∧ w.state ≠ .bound

namespace View.Reached

variable {callbacks : Callbacks κ σ} {v : ViewId} {born w : View} {turns : List (Turn κ σ)}
  {t : Turn κ σ}

theorem start (h : born.state = .uninitialized) : born.Reached ([] : List (Turn κ σ)) born where
  same := rfl
  asked := Nat.zero_le _
  settled := by rw [h]; decide
  waiting _ _ ht := absurd ht List.not_mem_nil
  empty _ := ⟨rfl, rfl, by rw [h]; decide⟩

theorem length_asked (turns : List (Turn κ σ)) (t : Turn κ σ) :
    ((turns ++ [t]).filter Turn.asked).length
      = (turns.filter Turn.asked).length + if t.asked = true then 1 else 0 := by
  rw [List.filter_append, List.length_append, List.filter_singleton]
  cases t.asked <;> rfl

theorem forall_concat {P : Turn κ σ → Prop} (h : ∀ t ∈ turns, P t) (ht : P t) :
    ∀ x ∈ turns ++ [t], P x := by
  intro x hx
  rcases List.mem_append.mp hx with hx | hx
  · exact h x hx
  · rw [List.mem_singleton.mp hx]
    exact ht

theorem next_waiting (h : born.Reached turns w) (hw : w.state = .uninitialized) {state : ViewState}
    (hstate : state = .fetching ∨ state = .errored) (hgot : t.gotMarkup = false) :
    born.Reached (turns ++ [t]) { w with state } := by
  have hnone := h.waiting (by rw [hw]; decide)
  have hempty := h.empty hnone
  have hasked := h.asked
  rw [if_pos hw] at hasked
  have hne : state ≠ .uninitialized ∧ state ≠ .populated ∧ state ≠ .bound := by
    rcases hstate with rfl | rfl <;> decide
  refine ⟨?_, ?_, hne.2.1, fun _ => forall_concat hnone hgot,
    fun _ => ⟨hempty.1, hempty.2.1, hne.2.2⟩⟩
  · rw [h.same]
  · rw [length_asked, if_neg hne.1]
    split <;> omega

theorem next (h : born.Reached turns w) (hv : t.before.view? v = some w)
    (hr : t.Result callbacks v w) :
    ∃ w', t.after.view? v = some w' ∧ born.Reached (turns ++ [t]) w' := by
  cases hr with
  | @refused c p hstate =>
    refine ⟨w, hv, h.same, ?_, h.settled, fun hw => forall_concat (h.waiting hw) rfl,
      fun hnone => h.empty fun t ht => hnone t (List.mem_append_left _ ht)⟩
    have hno : Turn.asked ⟨c, p, p, .error (.invalidState c.operation w.state.name)⟩ = false := by
      cases c <;> rfl
    rw [length_asked, hno, if_neg Bool.false_ne_true]
    exact h.asked
  | @pending shelf p hstate =>
    exact ⟨_, Engine.view?_fetched hv shelf, h.next_waiting hstate (Or.inl rfl) rfl⟩
  | @failed shelf p failure hstate =>
    exact ⟨_, Page.view?_modifyView_self (Engine.view?_fetched hv shelf) _,
      h.next_waiting hstate (Or.inr rfl) rfl⟩
  | @given c p q answer state children targets hstate hview hend hshelf =>
    have hne : state ≠ .uninitialized ∧ state ≠ .populated ∧ state.stands := by
      rcases hend with ⟨-, rfl⟩ | ⟨f, -, rfl⟩ <;> decide
    refine ⟨_, hview, ?_, ?_, hne.2.1, fun hw => absurd hne.2.2 hw, fun hnone => ?_⟩
    · rw [h.same]
    · have hasked := h.asked
      rw [length_asked, if_neg hne.1]
      cases c with
      | load shelf =>
        rw [if_pos (List.mem_singleton.mp hstate)] at hasked
        split <;> omega
      | populate markup =>
        have hno : Turn.asked ⟨.populate markup, p, q, answer⟩ = false := rfl
        rw [hno, if_neg Bool.false_ne_true]
        split at hasked <;> omega
    · have hgot := hnone _ (List.mem_append_right _ List.mem_cons_self)
      rcases hend with ⟨rfl, -⟩ | ⟨f, rfl, -⟩ <;> cases hgot

end View.Reached

/-! ## Whole lives -/

variable {callbacks : Callbacks κ σ} {v : ViewId} {opened p q : Page κ σ} {born w : View}
  {turns : List (Turn κ σ)}

theorem Life.reached (h : Life callbacks v opened turns q) (hv : opened.view? v = some born)
    (hborn : born.state = .uninitialized) :
    (∃ w, q.view? v = some w ∧ born.Reached turns w) ∧
      ∀ t ∈ turns, ∃ w, t.before.view? v = some w ∧ t.Result callbacks v w := by
  -- along the calls, with what is known of the view after each
  induction h with
  | opened => exact ⟨⟨born, hv, .start hborn⟩, fun t ht => absurd ht List.not_mem_nil⟩
  | meanwhile _ hsame ih =>
    obtain ⟨⟨w, hw, hreached⟩, hall⟩ := ih
    exact ⟨⟨w, hsame.trans hw, hreached⟩, hall⟩
  | call frames _ hask ih =>
    obtain ⟨⟨w, hw, hreached⟩, hall⟩ := ih
    have hresult := Engine.result_of_ask hw hask
    exact ⟨hreached.next hw hresult, View.Reached.forall_concat hall ⟨w, hw, hresult⟩⟩

/-- A view that stands outside of any call stays as it is, and every call on it is refused. -/
theorem Life.closed (h : Life callbacks v p turns q) (hv : p.view? v = some w)
    (hstands : w.state.stands) :
    q.view? v = some w ∧ ∀ t ∈ turns, t.after = t.before ∧
      t.answer = .error (.invalidState t.call.operation w.state.name) := by
  induction h with
  | opened => exact ⟨hv, fun t ht => absurd ht List.not_mem_nil⟩
  | meanwhile _ hsame ih => exact ⟨hsame.trans ih.1, ih.2⟩
  | @call turns p q c answer frames _ hask ih =>
    have hrefused : w.state ∉ c.states := fun hc => hstands <| by
      cases c with
      | load shelf => exact List.mem_cons.mpr (Or.inl (List.mem_singleton.mp hc))
      | populate markup => exact hc
    cases (Engine.ask_of_refused ih.1 hrefused).symm.trans hask
    exact ⟨ih.1, View.Reached.forall_concat ih.2 ⟨rfl, rfl⟩⟩

/-- What holds of a view at any time after it was opened as `born`. -/
structure Lifecycle (callbacks : Callbacks κ σ) (v : ViewId) (born : View) (turns : List (Turn κ σ))
    (q : Page κ σ) : Prop where
  /-- In all at most one call asked for the template. -/
  asked_once : (turns.filter Turn.asked).length ≤ 1
  /-- It asked the shelf that it named, once, and no call did anything else to a shelf that whatever was
  called asked for no other view. -/
  counted : ∀ t ∈ turns, ∀ s x, t.before.shelf? s = some x →
    (t.gotMarkup = true → callbacks.Tame (Call.AsksFor v (· = s))) →
    t.after.shelf? s = some { x with
      requests := x.requests + if t.asked = true ∧ t.call = .load (some s) then 1 else 0 }
  /-- A call that gave no markup changed nothing but the state of the view and the count of a shelf. -/
  idle : ∀ t ∈ turns, t.gotMarkup = false →
    t.after = { t.before with views := t.after.views, shelves := t.after.shelves } ∧
      (∀ u, u ≠ v → t.after.view? u = t.before.view? u) ∧
      ∃ w state, t.before.view? v = some w ∧ t.after.view? v = some { w with state }
  /-- Until it was given markup the view is as it was opened, but for its state. -/
  empty : (∀ t ∈ turns, t.gotMarkup = false) →
    ∃ state ∈ [ViewState.uninitialized, .fetching, .errored], q.view? v = some { born with state }
  settled : ∃ w, q.view? v = some w ∧ w.state ≠ .populated
  /-- Loading without markup returns, whatever the engine. -/
  fruitless : ∀ w, q.view? v = some w → w.state = .uninitialized →
    ∀ (engine : Engine κ σ) (shelf : Option ShelfId),
      (∀ s markup, shelf = some s → (q.request s w.path).1 ≠ some (.ok markup)) →
      ∃ answer r, engine.load v shelf q = some (answer, r) ∧
        (answer = .ok .pending ∨ ∃ f, answer = .error (.fetch f))
  /-- A view whose answer did not come refuses to load.  It can be populated, and does so on a bus on
  which nothing but bindings listens. -/
  fetching : ∀ w, q.view? v = some w → w.state = .fetching →
    (∀ (engine : Engine κ σ) (shelf : Option ShelfId),
      engine.load v shelf q = some (.error (.invalidState "load" "Fetching"), q)) ∧
    (∀ frames markup answer r,
      (Engine.ofFrames callbacks frames).populate v markup q = some (answer, r) →
      ∃ w', r.view? v = some w' ∧ (answer = .ok () ∧ w'.state = .bound ∨
        ∃ f, answer = .error (.bus f) ∧ w'.state = .errored)) ∧
    (q.CalmOn w.bus → ∀ markup, ∃ r,
      (∀ n, (Engine.ofFrames callbacks (n + 1)).populate v markup q = some (.ok (), r)) ∧ r.IsBound v)
  /-- A view that is bound or errored refuses every call and changes nothing, no call of any other kind
  changes the view, and so it is ever after. -/
  closed : ∀ w, q.view? v = some w → w.state = .bound ∨ w.state = .errored →
    (∀ (engine : Engine κ σ) (c : ViewCall),
      engine.ask v c q = some (.error (.invalidState c.operation w.state.name), q)) ∧
    (∀ frames (c : Call κ) a r,
      c.run (Engine.ofFrames callbacks frames) q = some (a, r) → r.view? v = some w) ∧
    ∀ later r, Life callbacks v q later r → r.view? v = some w ∧ ∀ t ∈ later,
      t.after = t.before ∧ t.answer = .error (.invalidState t.call.operation w.state.name)

theorem view?_of_openView {bus : BusId} {request : ViewRequest}
    (h : p.openView bus request = (.ok v, q)) :
    ∃ plan model, request.settle p = .ok plan ∧
      q.view? v = some { bus, container := plan.container, model, path := plan.path } := by
  unfold Page.openView at h
  cases hplan : request.settle p with
  | error failure =>
    rw [hplan] at h
    cases h
  | ok plan =>
    rw [hplan] at h
    cases h
    exact ⟨plan, _, rfl, Array.getElem?_push_size⟩

/-- At any time of its life a view has asked for its template at most once; until it was given markup
nothing but its state changed; bound or errored it stays; and it is never left half populated. -/
theorem view_lifecycle {bus : BusId} {request : ViewRequest}
    (hopen : p.openView bus request = (.ok v, opened)) (hlife : Life callbacks v opened turns q) :
    ∃ born, opened.view? v = some born ∧ born.state = .uninitialized ∧ born.children = [] ∧
      born.targets = [] ∧ Lifecycle callbacks v born turns q := by
  obtain ⟨plan, model, -, hborn⟩ := view?_of_openView hopen
  obtain ⟨⟨w, hw, hreached⟩, hall⟩ := hlife.reached hborn rfl
  have hunique : ∀ {w'}, q.view? v = some w' → w' = w := fun hw' =>
    Option.some.inj (hw'.symm.trans hw)
  refine ⟨_, hborn, rfl, rfl, rfl, ?_⟩
  exact {
    asked_once := Nat.le_trans hreached.asked (by split <;> decide)
    counted := fun t ht s x hx hkept => by
      obtain ⟨w', _, hresult⟩ := hall t ht
      exact hresult.shelf? hx hkept
    idle := fun t ht hgot => by
      obtain ⟨w', hw', hresult⟩ := hall t ht
      obtain ⟨hrest, hother, state, hstate⟩ := hresult.idle hw' hgot
      exact ⟨hrest, hother, w', state, hw', hstate⟩
    empty := fun hnone => by
      obtain ⟨hchildren, htargets, hbound⟩ := hreached.empty hnone
      refine ⟨w.state, ?_, ?_⟩
      · have hsettled := hreached.settled
        cases hs : w.state with
        | populated => exact absurd hs hsettled
        | bound => exact absurd hs hbound
        | _ => decide
      · rw [hw, hreached.same, hchildren, htargets]
    settled := ⟨w, hw, hreached.settled⟩
    fruitless := fun w' hw' hstate engine shelf hnone => by
      rw [Engine.load_of_uninitialized hw' hstate]
      cases hanswer : (Engine.fetched q v w' shelf).1 with
      | none => exact ⟨_, _, rfl, Or.inl rfl⟩
      | some fetched =>
        cases fetched with
        | error failure => exact ⟨_, _, rfl, Or.inr ⟨failure, rfl⟩⟩
        | ok markup =>
          cases shelf with
          | none => cases hanswer
          | some s =>
            rw [Engine.answer_fetched] at hanswer
            exact absurd hanswer (hnone s markup rfl)
    fetching := fun w' hw' hstate => by
      have hwaits : w'.state ∈ [ViewState.uninitialized, .fetching] := by
        rw [hstate]
        decide
      refine ⟨fun engine shelf => ?_, fun frames markup answer r h => ?_, fun hcalm markup => ?_⟩
      · have hrefused : engine.load v shelf q
            = some (.error (.invalidState "load" w'.state.name), q) :=
          Engine.load_of_refused hw' (by rw [hstate]; decide) shelf
        rw [hstate] at hrefused
        exact hrefused
      · obtain ⟨⟨state, children, targets, hr, hend⟩, -⟩ :=
          Engine.populate_ends (callbacks.asksFor_none v) hw' hwaits h
        exact ⟨_, hr, hend⟩
      · obtain ⟨r, hr, -, hbound⟩ := Engine.populate_of_calm callbacks hw' hwaits hcalm markup
        exact ⟨r, hr, hbound⟩
    closed := fun w' hw' hend => by
      have hstands : w'.state.stands := by
        rcases hend with h | h <;> (rw [h]; decide)
      refine ⟨fun engine c => Engine.ask_of_refused hw' fun hc => hstands ?_,
        fun frames c a r h => ?_, fun later r h => h.closed hw' hstands⟩
      · cases c with
        | load shelf => exact List.mem_cons.mpr (Or.inl (List.mem_singleton.mp hc))
        | populate markup => exact hc
      · have hengine := Engine.preserves_spared hw' hstands (callbacks.asksFor_none v) frames
        have hasks : c.AsksFor v fun _ => False := by
          cases c with
          | load u shelf =>
            cases shelf with
            | none => trivial
            | some s => exact False.elim
          | _ => trivial
        exact (Engine.spared_call hengine hw' hstands hasks h (.refl q)).view hw' }

/-! A view whose first answer does not come, loaded again, populated and populated again. -/

/-- An empty container and a shelf with the template of the view. -/
def shelfPage : Page Unit Unit where
  buses := #[{ maxDepth := 8 }]
  elements := #[{ tag := "div" }]
  shelves := #[{ entries := [("k.html", .ok "<p>${k}</p>")] }]
  host := ()

def shelfRequest : ViewRequest where
  container? := some (.element ⟨0⟩)
  data? := some (.record [("k", .text "a")])
  path? := some "k.html"

def Turn.report (t : Turn κ σ) : String :=
  match t.answer with
  | .ok .bound => "bound"
  | .ok .pending => "pending"
  | .error failure => failure.message

def takeTurn (s : List (Turn Unit Unit) × Page Unit Unit) (c : ViewCall) :
    Option (List (Turn Unit Unit) × Page Unit Unit) :=
  ((Engine.ofFrames idleCode 2).ask ⟨0⟩ c s.2).map fun a => (s.1 ++ [⟨c, s.2, a.2, a.1⟩], a.2)

theorem Life.takeTurns {calls : List ViewCall} {opened : Page Unit Unit}
    {s s' : List (Turn Unit Unit) × Page Unit Unit} (hs : Life idleCode ⟨0⟩ opened s.1 s.2)
    (h : calls.foldlM takeTurn s = some s') : Life idleCode ⟨0⟩ opened s'.1 s'.2 := by
  induction calls generalizing s with
  | nil =>
    cases h
    exact hs
  | cons c rest ih =>
    rw [List.foldlM_cons] at h
    obtain ⟨t, hone, hrest⟩ := Option.bind_eq_some_iff.mp h
    obtain ⟨⟨answer, q⟩, hask, rfl⟩ := Option.map_eq_some_iff.mp hone
    exact ih (hs.call 2 hask) hrest

/-- The second load is refused, markup is taken, and after that none. -/
theorem fetching_view_is_populated :
    ∃ opened turns q born, shelfPage.openView ⟨0⟩ shelfRequest = (.ok ⟨0⟩, opened) ∧
      Life idleCode ⟨0⟩ opened turns q ∧
      turns.map Turn.report = ["pending", "load is not allowed in state Fetching", "bound",
        "populate is not allowed in state Bound"] ∧
      opened.view? ⟨0⟩ = some born ∧ Lifecycle idleCode ⟨0⟩ born turns q := by
  have hreports : (([ViewCall.load none, .load (some ⟨0⟩), .populate "<p>${k}</p>",
      .populate "<p></p>"].foldlM takeTurn
        ([], (shelfPage.openView ⟨0⟩ shelfRequest).2)).map fun s => s.1.map Turn.report)
      = some ["pending", "load is not allowed in state Fetching", "bound",
        "populate is not allowed in state Bound"] := by decide +kernel
  obtain ⟨⟨turns, q⟩, hturns, hreports⟩ := Option.map_eq_some_iff.mp hreports
  have hopen : shelfPage.openView ⟨0⟩ shelfRequest
      = (.ok ⟨0⟩, (shelfPage.openView ⟨0⟩ shelfRequest).2) := rfl
  have hlife := Life.takeTurns .opened hturns
  obtain ⟨born, hborn, -, -, -, hcycle⟩ := view_lifecycle hopen hlife
  exact ⟨_, turns, q, born, hopen, hlife, hreports, hborn, hcycle⟩

end Bindery
