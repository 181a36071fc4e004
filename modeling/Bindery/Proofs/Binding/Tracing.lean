import Bindery.Proofs.Binding.Trail

/-!
# Operations leave trails

On a bus on which nothing but bindings listens, what an operation does is a trail of the deeds that
were listed for it.  While something is held for the time of an operation, elements may be alive that
are not before and after; what is alive at the end was alive at each step.

* `Page.Traced`          a trail during which nothing came to be held
* `Routine.TracesAt`     a routine that leaves the trail of its deeds
* `TracesAt.write`, `TracesAt.bindText`   writing does, and so does binding a text
* `traced_bindElement`   and binding an element
-/

namespace Bindery

variable {κ σ : Type}

namespace Page

variable {b : BusId} {p q s : Page κ σ} {ds ds' : List Deed}

def Open (b : BusId) (p : Page κ σ) : Prop := ∃ r, p.bus? b = some r ∧ r.Quiet

theorem Open.quietOn (h : p.Open b) : p.QuietOn b := by
  obtain ⟨r, hr, hq⟩ := h
  intro r' hr'
  cases hr.symm.trans hr'
  exact hq

theorem Open.of_trail (h : p.Open b) (ht : Trail b p ds q) : q.Open b := by
  obtain ⟨r, hr, hq⟩ := h
  obtain ⟨r', hr', hq'⟩ := ht.bus hr
  exact ⟨r', hr', hq' hq⟩

theorem Aside.of_buses (hb : q.buses = p.buses)
    (he : ∀ {e d}, p.element? e = some d → ∃ d', q.element? e = some d' ∧ d'.attributes = d.attributes) :
    p.Aside b q where
  bus {r} hr := ⟨r, (bus?_of_buses hb b).trans hr, id, fun _ _ _ => Iff.rfl⟩
  attributes := he

theorem Aside.of_same (hb : q.buses = p.buses) (he : q.elements = p.elements) : p.Aside b q := by
  refine .of_buses hb fun {e d} hd => ⟨d, ?_, rfl⟩
  unfold element? at hd ⊢
  rw [he]
  exact hd

/-- A listener of a text is none of an attribute. -/
theorem Aside.subscribe {r : Registry (Listener κ)} (hr : p.bus? b = some r) (event : String)
    {l : Listener κ} (hl : l.isBinding = true) (hn : ∀ e, l.propertyOn e = none) :
    p.Aside b (p.subscribe b event l).2 := by
  rw [subscribe_of_some hr]
  refine ⟨fun {r'} hr' => ?_, fun {e d} hd => ⟨d, hd, rfl⟩⟩
  cases hr.symm.trans hr'
  refine ⟨_, bus?_modifyBus_self hr _, fun hq => ?_, fun other e name => ?_⟩
  · intro other k hk
    rw [Registry.heard_subscribe] at hk
    split at hk
    · rcases List.mem_append.mp hk with hk | hk
      · exact hq other k hk
      · rw [List.mem_singleton.mp hk]
        exact hl
    · exact hq other k hk
  · unfold Registry.Displays
    rw [Registry.heard_subscribe]
    split
    · simp [hn]
    · rfl

/-- A trail during which nothing came to be held, and as much is held in the end. -/
structure Traced (b : BusId) (p : Page κ σ) (ds : List Deed) (q : Page κ σ) : Prop where
  trail : Trail b p ds q
  shrinks : Shrinks p q
  held : q.held = p.held

namespace Traced

theorem refl (b : BusId) (p : Page κ σ) : Traced b p [] p := ⟨.refl p, Shrinks.refl p, rfl⟩

theorem trans (h : Traced b p ds s) (k : Traced b s ds' q) : Traced b p (ds ++ ds') q :=
  ⟨h.trail.trans k.trail, h.shrinks.trans k.shrinks, k.held.trans h.held⟩

theorem single (h : Happens b p ds q) (hs : Shrinks p q) (hheld : q.held = p.held) :
    Traced b p ds q := ⟨.single h (.of_shrinks hs), hs, hheld⟩

theorem holding {x : Handle} (h : Traced b (p.hold x) ds q) : Traced b p ds (q.release x) := by
  have hheld : (q.release x).held = p.held := by
    show q.held.erase x = _
    rw [h.held]
    exact List.erase_cons_head ..
  have hs : Shrinks p (q.release x) :=
    { h.shrinks with held := fun hm => hheld ▸ hm }
  have hlet : Trail b q [] (q.release x) :=
    .single (.aside (.of_same rfl rfl)) (.of_shrinks (Shrinks.release q x))
  have hall := h.trail.trans hlet
  rw [List.append_nil] at hall
  have hbegin : Happens b p [] (p.hold x) := .aside (.of_same rfl rfl)
  exact ⟨.step hbegin (.of_shrinks hs) hall, hs, hheld⟩

end Traced

end Page

open Page

/-! ## Routines -/

namespace Routine

variable {α β : Type} {engine : Engine κ σ} {b : BusId} {p q : Page κ σ}

theorem deeds_bind {routine : Routine κ σ α} {a : α} (h : routine.run engine p = some (a, q))
    (f : α → Routine κ σ β) :
    (routine >>= f).deeds engine p = routine.deeds engine p ++ (f a).deeds engine q := by
  show (routine.bind f).deeds engine p = _
  induction routine generalizing p with
  | done b =>
    cases h
    rfl
  | look next ih => exact ih p h
  | change g next ih => exact ih h
  | publish bus event value next ih =>
    obtain ⟨outcome, s, hs, hq⟩ := Run.bind_eq_some.mp h
    simp only [Routine.bind, deeds, hs, List.append_assoc]
    rw [ih outcome hq]
  | dispatch e kind next ih =>
    obtain ⟨outcome, s, hs, hq⟩ := Run.bind_eq_some.mp h
    simp only [Routine.bind, deeds, hs]
    exact ih outcome hq

/-- Carried out on a page, the routine leaves the trail of its deeds. -/
def TracesAt (b : BusId) (engine : Engine κ σ) (routine : Routine κ σ α) (p : Page κ σ) : Prop :=
  ∀ a q, p.Open b → routine.run engine p = some (a, q) → Traced b p (routine.deeds engine p) q

namespace TracesAt

theorem pure (a : α) (p : Page κ σ) : (Pure.pure a : Routine κ σ α).TracesAt b engine p := by
  intro _ _ _ h
  cases h
  exact .refl b _

theorem page_bind {f : Page κ σ → Routine κ σ α} (h : (f p).TracesAt b engine p) :
    (page >>= f).TracesAt b engine p := h

theorem amend {f : Page κ σ → Page κ σ} (h : p.Open b → p.Aside b (f p)) (hs : Shrinks p (f p))
    (hheld : (f p).held = p.held) : (Routine.amend f).TracesAt b engine p := by
  intro _ _ hp hrun
  cases hrun
  exact .single (.aside (h hp)) hs hheld

theorem bind {routine : Routine κ σ α} {f : α → Routine κ σ β} (h : routine.TracesAt b engine p)
    (hf : ∀ a q, routine.run engine p = some (a, q) → (f a).TracesAt b engine q) :
    (routine >>= f).TracesAt b engine p := by
  intro c s hp hrun
  rw [run_bind] at hrun
  obtain ⟨a, q, hq, hs⟩ := Run.bind_eq_some.mp hrun
  have hone := h a q hp hq
  rw [deeds_bind hq]
  exact hone.trans (hf a q hq c s (hp.of_trail hone.trail) hs)

theorem holding {routine : Routine κ σ α} {x : Handle} (h : routine.TracesAt b engine (p.hold x)) :
    (Routine.holding x routine).TracesAt b engine p := by
  intro a q hp hrun
  rw [run_holding] at hrun
  obtain ⟨s, hs, rfl⟩ := Run.holding_eq_some.mp hrun
  have hdeeds : (Routine.holding x routine).deeds engine p = routine.deeds engine (p.hold x) := by
    show (routine >>= fun a => _).deeds engine (p.hold x) = _
    rw [deeds_bind hs]
    exact List.append_nil _
  rw [hdeeds]
  exact (h a s hp hs).holding

/-- An announcement on the bus: its listeners receive the value, or it is not let in. -/
theorem announce (callbacks : Callbacks κ σ) (frames : Nat) (event : String) (value : Value) :
    (Routine.announce b event value).TracesAt b (Engine.ofFrames callbacks (frames + 1)) p := by
  rintro outcome q ⟨r, hr, hq⟩ hrun
  rw [run_announce] at hrun
  have hdeeds : (Routine.announce b event value).deeds (Engine.ofFrames callbacks (frames + 1)) p
      = Deed.ofOutcome b event value outcome := by
    simp only [Routine.announce, deeds, hrun, List.append_nil]
  rw [hdeeds]
  change Engine.publishWith callbacks (Engine.ofFrames callbacks frames) b event value p
    = some (outcome, q) at hrun
  rw [Engine.publishWith_quiet callbacks (Engine.ofFrames callbacks frames) value hq hr] at hrun
  split at hrun
  · cases hrun
    exact .refl b p
  · cases hrun
    exact .single (.announced event value hr) (shrinks_receiveAll ..) (held_receiveAll ..)

variable (callbacks : Callbacks κ σ) (frames : Nat) {m : ModelId} {e : ElementId}

theorem write {key : String} (value : Value) (hm : p.AtHome (· = b) m) :
    (Routine.write m key value).TracesAt b (Engine.ofFrames callbacks (frames + 1)) p := by
  refine page_bind ?_
  cases hd : p.model? m with
  | none => exact TracesAt.pure _ p
  | some d =>
    have hbus : d.bus = b := hm d hd
    have hstore : (Routine.amend (Page.store m key value)).TracesAt b
        (Engine.ofFrames callbacks (frames + 1)) p :=
      amend (fun _ => .of_same rfl rfl) (SameLives.store p m key value).shrinks rfl
    refine bind hstore fun _ q _ => ?_
    split
    · rw [hbus]
      exact holding (announce callbacks frames _ _)
    · exact TracesAt.pure _ q

theorem handler {h : Handler κ} (hh : p.WritesHome (· = b) h) :
    (h.routine callbacks e).TracesAt b (Engine.ofFrames callbacks (frames + 1)) p := by
  cases h with
  | callback code => cases hh
  | writeBack m property key control =>
    have hone : (if p.finds m then Routine.write m.target key (control.coerce (p.property e property))
        else Routine.done (.ok ())).TracesAt b (Engine.ofFrames callbacks (frames + 1)) p := by
      split
      · exact write callbacks frames _ hh
      · exact TracesAt.pure _ p
    exact page_bind hone

theorem bindSlots (template : String) (all names : List String) :
    (Routine.bindSlots b m e template all names).TracesAt b
      (Engine.ofFrames callbacks (frames + 1)) p := by
  induction names generalizing p with
  | nil => exact TracesAt.pure _ p
  | cons name rest ih =>
    refine page_bind ?_
    split
    · refine bind (amend (fun hp => ?_) ?_ ?_) fun _ q _ => ?_
      · obtain ⟨r, hr, -⟩ := hp
        exact .subscribe hr _ rfl fun _ => rfl
      · exact Shrinks.subscribe p b _ rfl
      · cases hb : p.bus? b with
        | none => rw [subscribe_of_none hb]
        | some r =>
          rw [subscribe_of_some hb]
          rfl
      · refine bind (announce callbacks frames _ _) fun outcome q _ => ?_
        cases outcome with
        | error failure => exact TracesAt.pure _ q
        | ok u => exact bind ih fun _ q _ => TracesAt.pure _ q
    · exact ih

theorem bindText :
    (Routine.bindText b m e).TracesAt b (Engine.ofFrames callbacks (frames + 1)) p := by
  refine page_bind ?_
  cases p.textOf? e with
  | none => exact TracesAt.pure _ p
  | some template =>
    dsimp only
    cases Template.names? template with
    | none => exact TracesAt.pure _ p
    | some names =>
      exact bind (bindSlots callbacks frames template names names) fun _ q _ => TracesAt.pure _ q

end TracesAt

end Routine

/-! ## Binding an element -/

namespace Page

variable {b : BusId} {m : ModelId} {e : ElementId} {p q s : Page κ σ}

theorem shrinks_bindAttributes (b : BusId) (m : ModelId) (e : ElementId) (p : Page κ σ)
    (entries : List (String × String)) : Shrinks p (p.bindAttributes b m e entries).2 :=
  bindAttributes_keeps (fun q _ _ _ _ h => h.trans (.modifyElement q e fun _ _ hc => hc))
    (fun q _ _ h => h.trans (.modifyElement q e fun _ _ hc => hc))
    (fun q event _ h => h.trans (.subscribe q b event rfl)) (.refl p) entries

theorem bindAttributes_of_absent (hm : p.model? m = none) (entries : List (String × String)) :
    (p.bindAttributes b m e entries).2 = p := by
  have hkey : ∀ name, p.hasKey m name = false := by
    intro name
    unfold hasKey
    rw [hm]
  have hnames : ∀ attr control names shown, p.bindNames b m e attr control names shown = p := by
    intro attr control names shown
    induction names with
    | nil => rfl
    | cons name rest ih =>
      unfold bindNames
      rw [hkey, if_neg Bool.false_ne_true]
      exact ih
  induction entries with
  | nil => rfl
  | cons entry rest ih =>
    have hone : (p.bindAttribute b m e entry.1 entry.2).2 = p := by
      unfold bindAttribute
      split
      · rfl
      · exact hnames ..
    show ((p.bindAttribute b m e entry.1 entry.2).2.bindAttributes b m e rest).2 = p
    rw [hone]
    exact ih

theorem traced_bindAttributes (b : BusId) (m : ModelId) (e : ElementId) (p : Page κ σ) :
    Traced b p ((p.model? m).toList.map fun d => .bound b e d (p.attributesOf e).entries)
      (p.bindAttributes b m e (p.attributesOf e).entries).2 := by
  cases hm : p.model? m with
  | none =>
    rw [bindAttributes_of_absent hm]
    exact .refl b p
  | some d =>
    obtain ⟨hs, hw, -⟩ := wired_bindAttributes b e hm (p.attributesOf e).entries
    exact .single (.bound e hm) (shrinks_bindAttributes ..) (by rw [hw.rest])

theorem traced_bindElement (callbacks : Callbacks κ σ) (frames : Nat) (hp : p.Open b)
    {answer : Except BusError (List Target)}
    (h : (Engine.ofFrames callbacks (frames + 1)).bindElement b m e p = some (answer, q)) :
    Traced b p ((Engine.ofFrames callbacks (frames + 1)).bindDeeds b m e p) q := by
  unfold Engine.bindElement at h
  obtain ⟨q₁, h₁, rfl⟩ := Run.holding_eq_some.mp h
  obtain ⟨q₂, h₂, rfl⟩ := Run.holding_eq_some.mp h₁
  refine Traced.holding (Traced.holding ?_)
  obtain ⟨outcome, s, ht, hend⟩ := Run.bind_eq_some.mp h₂
  have hopen : ((p.hold (.element e)).hold (.model m)).Open b := hp
  have htext := Routine.TracesAt.bindText callbacks frames _ s hopen
    ((congrFun (Routine.run_bindText _ b m e) _).trans ht)
  unfold Engine.bindDeeds
  dsimp only
  rw [ht]
  cases outcome with
  | error failure =>
    cases hend
    rw [List.append_nil]
    exact htext
  | ok text =>
    cases hend
    exact htext.trans (traced_bindAttributes b m e s)

end Page

end Bindery
