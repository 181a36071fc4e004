import Bindery.Proofs.Binding.Replay

/-!
# Writing and binding on a quiet bus

On a bus whose listeners were all made by binding, writing and binding always come to an end, also when
the bus refuses to deliver.  Writing changes the elements that listen.  Binding leaves listeners of the
element behind, which wait for the keys of its model.

* `Registry.Calm`         a quiet bus on which nothing is in flight, with room for an event
* `Page.Tied`             new listeners of one element for the keys of one model
* `Page.Wrote`            a value was stored, and listeners received it
* `publish_of_quiet`, `write_of_quiet`, `bindElement_of_quiet`   each with its success on a calm bus
-/

namespace Bindery

variable {κ σ : Type}

def Listener.element? : Listener κ → Option ElementId
  | text e _ _ _ _ => some e.target
  | property e _ => some e.target
  | callback _ => none

theorem Listener.isBinding_of_element? {l : Listener κ} {e : ElementId} (h : l.element? = some e) :
    l.isBinding = true := by
  cases l with
  | callback code => cases h
  | _ => rfl

def Template.IsName (name : String) : Prop := ∀ c ∈ name.toList, isNameChar c = true

namespace Page

variable {b : BusId} {m : ModelId} {e : ElementId} {p q s : Page κ σ}

/-! ## Listeners of one element -/

/-- The listener writes the element, and the event announces a key of the model that a slot may
name. -/
def Ties (p : Page κ σ) (m : ModelId) (e : ElementId) (event : String) (l : Listener κ) : Prop :=
  l.element? = some e ∧ ∃ d k, p.model? m = some d ∧ d.contains k = true ∧ Template.IsName k ∧
    event = d.event k

theorem ties_eventOf {name : String} (hk : p.hasKey m name = true) (hname : Template.IsName name)
    {l : Listener κ} (hl : l.element? = some e) : p.Ties m e (p.eventOf m name) l := by
  unfold hasKey at hk
  unfold eventOf
  cases hm : p.model? m with
  | none =>
    rw [hm] at hk
    cases hk
  | some d =>
    rw [hm] at hk
    exact ⟨hl, d, name, hm, hk, hname, rfl⟩

/-- From `p` to `q` a bus got listeners that tie an element to a model. -/
structure Tied (b : BusId) (m : ModelId) (e : ElementId) (p q : Page κ σ) : Prop where
  rest : q = { p with buses := q.buses, elements := q.elements }
  registry : ∀ r, p.bus? b = some r →
    ∃ ls, q.bus? b = some (r.addAll ls) ∧ ∀ x ∈ ls, p.Ties m e x.1 x.2
  absent : p.bus? b = none → q.bus? b = none
  buses : ∀ c, c ≠ b → q.bus? c = p.bus? c
  children : NoNewChildren p q

namespace Tied

theorem refl (b : BusId) (m : ModelId) (e : ElementId) (p : Page κ σ) : Tied b m e p p where
  rest := rfl
  registry _ hr := ⟨[], hr, fun _ hx => absurd hx List.not_mem_nil⟩
  absent h := h
  buses _ _ := rfl
  children := .refl p

theorem model? (h : Tied b m e p q) (n : ModelId) : q.model? n = p.model? n := by
  rw [h.rest]
  rfl

theorem trans (h : Tied b m e p q) (k : Tied b m e q s) : Tied b m e p s where
  rest := by rw [k.rest, h.rest]
  registry r hr := by
    obtain ⟨ls, hls, hties⟩ := h.registry r hr
    obtain ⟨ms, hms, hties'⟩ := k.registry _ hls
    refine ⟨ls ++ ms, by rw [hms, Registry.addAll_append], fun x hx => ?_⟩
    rcases List.mem_append.mp hx with hx | hx
    · exact hties x hx
    · have hx' := hties' x hx
      unfold Ties at hx'
      rw [h.model? m] at hx'
      exact hx'
  absent hp := k.absent (h.absent hp)
  buses c hc := (k.buses c hc).trans (h.buses c hc)
  children := h.children.trans k.children

/-- A change of elements only, none of which gets a child. -/
theorem of_elements (h : q = { p with elements := q.elements }) (hc : NoNewChildren p q) :
    Tied b m e p q where
  rest := by rw [h]
  registry r hr := by
    rw [h]
    exact ⟨[], hr, fun _ hx => absurd hx List.not_mem_nil⟩
  absent hp := by
    rw [h]
    exact hp
  buses c _ := by
    rw [h]
    rfl
  children := hc

theorem subscribe {event : String} {l : Listener κ} (h : p.Ties m e event l) :
    Tied b m e p (p.subscribe b event l).2 := by
  cases hb : p.bus? b with
  | none =>
    rw [subscribe_of_none hb]
    exact refl b m e p
  | some r =>
    rw [subscribe_of_some hb]
    refine ⟨rfl, fun r' hr' => ?_, fun hp => ?_, fun c hc => bus?_modifyBus_of_ne (Ne.symm hc) _,
      noNewChildren_of_elements rfl⟩
    · cases hb.symm.trans hr'
      refine ⟨[(event, l)], bus?_modifyBus_self hb _, fun x hx => ?_⟩
      rw [List.mem_singleton.mp hx]
      exact h
    · rw [hb] at hp
      cases hp

end Tied

/-! ## Attributes -/

theorem tied_bindName {name : String} (hk : p.hasKey m name = true) (hname : Template.IsName name)
    (attr : String) (control : Option Control) (shown : String) :
    Tied b m e p (p.bindName b m e attr control name shown).2 := by
  have hshow : ∀ (q : Page κ σ), q = { p with elements := q.elements } → NoNewChildren p q →
      ∀ shown : String,
      Tied b m e p ((q.setProperty e attr (.text shown)).subscribe b
        ((q.setProperty e attr (.text shown)).eventOf m name) (.property (.weak e) attr)).2 := by
    intro q hq hchildren shown
    have hset : Tied b m e p (q.setProperty e attr (.text shown)) := by
      refine .of_elements ?_ (hchildren.trans (noNewChildren_modifyElement fun _ _ hc => hc))
      rw [hq]
      rfl
    refine hset.trans (.subscribe (ties_eventOf ?_ hname rfl))
    unfold hasKey at hk ⊢
    rw [hset.model? m]
    exact hk
  cases control with
  | none => exact hshow p rfl (.refl p) _
  | some c =>
    exact hshow (p.listen e c.event (.writeBack (.strong m) attr name c)) rfl
      (noNewChildren_modifyElement fun _ _ hc => hc) _

theorem tied_bindNames (attr : String) (control : Option Control) {names : List String}
    (hnames : ∀ n ∈ names, Template.IsName n) (shown : String) :
    Tied b m e p (p.bindNames b m e attr control names shown) := by
  induction names generalizing p shown with
  | nil => exact .refl b m e p
  | cons name rest ih =>
    have hrest := fun n hn => hnames n (List.mem_cons_of_mem name hn)
    unfold bindNames
    split
    · rename_i hk
      exact (tied_bindName hk (hnames name List.mem_cons_self) attr control shown).trans (ih hrest _)
    · exact ih hrest shown

theorem isName_of_names? {template : String} {names : List String}
    (h : Template.names? template = some names) : ∀ n ∈ names, Template.IsName n := by
  unfold Template.names? at h
  split at h
  · cases h
  · cases h
    exact fun n hn => Template.isNameChar_of_mem_names hn

theorem tied_bindAttributes (entries : List (String × String)) :
    Tied b m e p (p.bindAttributes b m e entries).2 := by
  induction entries generalizing p with
  | nil => exact .refl b m e p
  | cons entry rest ih =>
    have hone : Tied b m e p (p.bindAttribute b m e entry.1 entry.2).2 := by
      unfold bindAttribute
      cases hn : Template.names? entry.2 with
      | none => exact .refl b m e p
      | some names => exact tied_bindNames entry.1 _ (isName_of_names? hn) _
    exact hone.trans ih

end Page

/-! ## On a quiet bus -/

namespace Registry

/-- A quiet bus on which nothing is in flight and which lets an event in. -/
structure Calm (r : Registry (Listener κ)) : Prop where
  quiet : r.Quiet
  idle : r.inFlight = []
  room : 1 ≤ r.maxDepth

theorem Calm.addAll {r : Registry (Listener κ)} (h : r.Calm) {ls : List (String × Listener κ)}
    (hls : ∀ l ∈ ls, l.2.isBinding = true) : (r.addAll ls).Calm where
  quiet := Page.quiet_addAll h.quiet hls
  idle := (r.inFlight_addAll ls).trans h.idle
  room := by
    rw [r.maxDepth_addAll ls]
    exact h.room

theorem enter_of_calm {r : Registry (Listener κ)} (h : r.Calm) (event : String)
    (failure : BusError) : r.enter event ≠ .error failure := by
  intro he
  rcases enter_eq_error he with ⟨hin, -⟩ | ⟨-, hdeep, -⟩
  · rw [h.idle] at hin
    cases hin
  · rw [h.idle] at hdeep
    exact absurd h.room (Nat.not_le_of_lt (Nat.lt_succ_of_le hdeep))

end Registry

namespace Page

def QuietOn (b : BusId) (p : Page κ σ) : Prop := ∀ r, p.bus? b = some r → r.Quiet

def CalmOn (b : BusId) (p : Page κ σ) : Prop := ∀ r, p.bus? b = some r → r.Calm

theorem calmOn_of_bus? {b : BusId} {p : Page κ σ} {r : Registry (Listener κ)} (hr : p.bus? b = some r)
    (hcalm : r.Calm) : p.CalmOn b := fun _ hr' => Option.some.inj (hr.symm.trans hr') ▸ hcalm

variable {b : BusId} {m : ModelId} {e : ElementId} {p q : Page κ σ}

/-- From `p` to `q` a value was stored, and the listeners `ls` received it. -/
structure Wrote (m : ModelId) (key : String) (value : Value) (ls : List (Listener κ))
    (p q : Page κ σ) : Prop where
  rest : q = { p.store m key value with elements := q.elements }
  element : ∀ c, (∀ l ∈ ls, l.element? ≠ some c) → q.element? c = p.element? c
  attributes : ∀ {c d}, p.element? c = some d → ∃ (d' : PageElement κ) (names : List String),
    q.element? c = some d' ∧
    (∀ n ∈ names, ∃ l ∈ ls, l.propertyOn c = some n) ∧
    d'.attributes = names.foldl (fun a n => a.setProperty n value) d.attributes
  size : q.elements.size = p.elements.size
  children : NoNewChildren p q

theorem Wrote.bus? {key : String} {value : Value} {ls : List (Listener κ)}
    (h : Wrote m key value ls p q) (c : BusId) : q.bus? c = p.bus? c := by
  rw [h.rest]
  rfl

theorem Wrote.model? {key : String} {value : Value} {ls : List (Listener κ)}
    (h : Wrote m key value ls p q) (n : ModelId) : q.model? n = (p.store m key value).model? n := by
  rw [h.rest]
  rfl

theorem element?_receiveAll_of_apart {value : Value} {ls : List (Listener κ)} {c : ElementId}
    (h : ∀ l ∈ ls, l.element? ≠ some c) : (p.receiveAll value ls).element? c = p.element? c := by
  induction ls generalizing p with
  | nil => rfl
  | cons l ls ih =>
    rw [receiveAll_cons, ih fun k hk => h k (List.mem_cons_of_mem l hk)]
    have hl := h l List.mem_cons_self
    cases l with
    | text x m template names changed =>
      have hx : x.target ≠ c := fun hxc => hl (congrArg some hxc)
      rw [receive_text]
      split
      · exact element?_modifyElement_of_ne hx _
      · rfl
    | property x name =>
      have hx : x.target ≠ c := fun hxc => hl (congrArg some hxc)
      rw [receive_property]
      split
      · exact element?_modifyElement_of_ne hx _
      · rfl
    | callback code => rfl

/-- A listener writes at most the property that it listens for, and that one only if the element is
alive. -/
theorem attributes_receive (value : Value) {c : ElementId} {d : PageElement κ}
    (hd : p.element? c = some d) (l : Listener κ) :
    ∃ d', (p.receive value l).element? c = some d' ∧ (d'.attributes = d.attributes ∨
      ∃ name, l.propertyOn c = some name ∧ d'.attributes = d.attributes.setProperty name value) := by
  cases l with
  | text x m template names changed =>
    rw [receive_text]
    split
    · by_cases hx : x.target = c
      · subst hx
        exact ⟨_, element?_modifyElement_self hd _, Or.inl rfl⟩
      · exact ⟨d, (element?_modifyElement_of_ne hx _).trans hd, Or.inl rfl⟩
    · exact ⟨d, hd, Or.inl rfl⟩
  | property x name =>
    rw [receive_property]
    split
    · by_cases hx : x.target = c
      · subst hx
        exact ⟨_, element?_modifyElement_self hd _, Or.inr ⟨name, if_pos rfl, rfl⟩⟩
      · exact ⟨d, (element?_modifyElement_of_ne hx _).trans hd, Or.inl rfl⟩
    · exact ⟨d, hd, Or.inl rfl⟩
  | callback code => exact ⟨d, hd, Or.inl rfl⟩

/-- Some of the properties that listeners listen for are written, one after the other. -/
theorem attributes_receiveAll_written (value : Value) {c : ElementId} {d : PageElement κ}
    (hd : p.element? c = some d) (ls : List (Listener κ)) :
    ∃ (d' : PageElement κ) (names : List String), (p.receiveAll value ls).element? c = some d' ∧
      (∀ n ∈ names, ∃ l ∈ ls, l.propertyOn c = some n) ∧
      d'.attributes = names.foldl (fun a n => a.setProperty n value) d.attributes := by
  induction ls generalizing p d with
  | nil => exact ⟨d, [], hd, nofun, rfl⟩
  | cons l ls ih =>
    obtain ⟨d₁, hd₁, hone⟩ := attributes_receive value hd l
    obtain ⟨d₂, names, hd₂, hnames, hattr⟩ := ih hd₁
    have hlater : ∀ n ∈ names, ∃ k ∈ l :: ls, k.propertyOn c = some n := fun n hn => by
      obtain ⟨k, hk, hon⟩ := hnames n hn
      exact ⟨k, List.mem_cons_of_mem l hk, hon⟩
    rcases hone with hsame | ⟨name, hname, hset⟩
    · exact ⟨d₂, names, hd₂, hlater, hsame ▸ hattr⟩
    · refine ⟨d₂, name :: names, hd₂, fun n hn => ?_, by rw [hattr, hset, List.foldl_cons]⟩
      rcases List.mem_cons.mp hn with rfl | hn
      · exact ⟨l, List.mem_cons_self, hname⟩
      · exact hlater n hn

theorem Tied.quietOn (h : Tied b m e p q) (hp : p.QuietOn b) : q.QuietOn b := by
  intro r hr
  cases hb : p.bus? b with
  | none =>
    rw [h.absent hb] at hr
    cases hr
  | some r₀ =>
    obtain ⟨ls, hls, hties⟩ := h.registry r₀ hb
    cases hls.symm.trans hr
    exact quiet_addAll (hp r₀ hb) fun x hx => Listener.isBinding_of_element? (hties x hx).1

theorem Tied.calmOn (h : Tied b m e p q) {c : BusId} (hp : p.CalmOn c) : q.CalmOn c := by
  intro r hr
  by_cases hc : c = b
  · subst hc
    cases hb : p.bus? c with
    | none =>
      rw [h.absent hb] at hr
      cases hr
    | some r₀ =>
      obtain ⟨ls, hls, hties⟩ := h.registry r₀ hb
      cases hls.symm.trans hr
      exact (hp r₀ hb).addAll fun x hx => Listener.isBinding_of_element? (hties x hx).1
  · exact hp r ((h.buses c hc).symm.trans hr)

end Page

namespace Engine

open Page

variable {callbacks : Callbacks κ σ} {b : BusId} {m : ModelId} {e : ElementId} {p : Page κ σ}

/-- Publishing on a quiet bus: some of its listeners receive the value, and on a calm one it ends
well. -/
theorem publish_of_quiet (callbacks : Callbacks κ σ) (hq : p.QuietOn b) (event : String)
    (value : Value) :
    ∃ outcome ls, (∀ n, (ofFrames callbacks (n + 1)).publish b event value p
        = some (outcome, p.receiveAll value ls)) ∧
      (∀ l ∈ ls, ∃ r, p.bus? b = some r ∧ l ∈ r.heard event) ∧
      (p.CalmOn b → outcome = .ok ()) := by
  cases hb : p.bus? b with
  | none =>
    exact ⟨.ok (), [], fun n => publishWith_of_absent hb, fun _ h => absurd h List.not_mem_nil,
      fun _ => rfl⟩
  | some r =>
    have hquiet : ∀ n, publishWith callbacks (ofFrames callbacks n) b event value p = _ :=
      fun n => publishWith_quiet callbacks (ofFrames callbacks n) value (hq r hb) hb
    cases he : r.enter event with
    | error failure =>
      simp only [he] at hquiet
      exact ⟨.error failure, [], hquiet, fun _ h => absurd h List.not_mem_nil,
        fun hc => absurd he (Registry.enter_of_calm (hc r hb) event failure)⟩
    | ok entered =>
      simp only [he] at hquiet
      exact ⟨.ok (), r.heard event, hquiet, fun l hl => ⟨r, rfl, hl⟩, fun _ => rfl⟩

theorem write_of_quiet (callbacks : Callbacks κ σ) {d : Model} (hm : p.model? m = some d)
    (hq : p.QuietOn d.bus) (key : String) (value : Value) :
    ∃ outcome q ls, (∀ n, (ofFrames callbacks (n + 1)).write m key value p = some (outcome, q)) ∧
      Wrote m key value ls p q ∧
      (∀ l ∈ ls, ∃ r, p.bus? d.bus = some r ∧ l ∈ r.heard (d.event key)) ∧
      (p.CalmOn d.bus → outcome = .ok ()) := by
  by_cases hk : key ∈ d.observed
  · have hq' : ((p.store m key value).hold (.model m)).QuietOn d.bus := hq
    obtain ⟨outcome, ls, hpub, hheard, hok⟩ := publish_of_quiet callbacks hq' (d.event key) value
    have hwrote : Wrote m key value ls p
        ((((p.store m key value).hold (.model m)).receiveAll value ls).release (.model m)) := by
      refine ⟨?_, fun c hc => element?_receiveAll_of_apart hc,
        fun {c c'} hc => attributes_receiveAll_written value (p := (p.store m key value).hold _) hc ls,
        size_receiveAll .., (shrinks_receiveAll value _ ls).noNewChildren⟩
      rw [receiveAll_eq]
      simp only [release, hold, List.erase_cons_head]
    refine ⟨outcome, _, ls, fun n => ?_, hwrote, hheard, hok⟩
    rw [write_of_observed hm hk]
    exact Run.holding_of_eq (hpub n)
  · exact ⟨.ok (), p.store m key value, [], fun n => write_of_silent hm hk,
      ⟨rfl, fun _ _ => rfl, fun {_ _} hc => ⟨_, [], hc, nofun, rfl⟩, rfl, .refl p⟩,
      fun _ h => absurd h List.not_mem_nil, fun _ => rfl⟩

theorem bindSlots_of_quiet (callbacks : Callbacks κ σ) (hq : p.QuietOn b) (template : String)
    (all : List String) {names : List String} (hnames : ∀ n ∈ names, Template.IsName n) :
    ∃ outcome q, (∀ n, (ofFrames callbacks (n + 1)).bindSlots b m e template all names p
        = some (outcome, q)) ∧ Tied b m e p q ∧ (p.CalmOn b → outcome.isOk = true) := by
  induction names generalizing p with
  | nil => exact ⟨.ok false, p, fun _ => rfl, .refl b m e p, fun _ => rfl⟩
  | cons name rest ih =>
    have hrest := fun n hn => hnames n (List.mem_cons_of_mem name hn)
    by_cases hk : p.hasKey m name = true
    · have hties := ties_eventOf hk (hnames name List.mem_cons_self)
        (rfl : (.text (.weak e) (.weak m) template all name : Listener κ).element? = some e)
      have hsub : Tied b m e p _ := .subscribe hties
      obtain ⟨outcome, ls, hpub, -, hok⟩ := publish_of_quiet callbacks (hsub.quietOn hq)
        (p.eventOf m name) (p.valueOf m name)
      have hrec := hsub.trans (.of_elements (receiveAll_eq (p.valueOf m name) _ ls)
        (shrinks_receiveAll _ _ ls).noNewChildren)
      cases outcome with
      | error failure =>
        refine ⟨.error failure, _, fun n => ?_, hrec, fun hc => ?_⟩
        · rw [bindSlots_cons_of_key hk, Run.bind_of_eq (hpub n)]
          rfl
        · cases hok (hsub.calmOn hc)
      | ok u =>
        obtain ⟨bound, q, hbind, htied, hgood⟩ := ih (hrec.quietOn hq) hrest
        refine ⟨bound.map fun _ => true, q, fun n => ?_, hrec.trans htied, fun hc => ?_⟩
        · rw [bindSlots_cons_of_key hk, Run.bind_of_eq (hpub n)]
          exact Run.bind_of_eq (hbind n) _
        · have hbound := hgood (hrec.calmOn hc)
          cases bound with
          | error failure => cases hbound
          | ok x => rfl
    · have hkey : p.hasKey m name = false := by simpa using hk
      obtain ⟨outcome, q, hbind, htied, hgood⟩ := ih hq hrest
      exact ⟨outcome, q, fun n => (bindSlots_cons_of_not_key hkey).trans (hbind n), htied, hgood⟩

theorem bindText_of_quiet (callbacks : Callbacks κ σ) (hq : p.QuietOn b) :
    ∃ outcome q, (∀ n, (ofFrames callbacks (n + 1)).bindText b m e p = some (outcome, q)) ∧
      Tied b m e p q ∧ (p.CalmOn b → outcome.isOk = true) := by
  cases ht : p.textOf? e with
  | none =>
    refine ⟨.ok none, p, fun n => ?_, .refl b m e p, fun _ => rfl⟩
    rw [bindText, Run.get_bind, ht]
    rfl
  | some template =>
    cases hn : Template.names? template with
    | none =>
      refine ⟨.ok none, p, fun n => ?_, .refl b m e p, fun _ => rfl⟩
      rw [bindText, Run.get_bind, ht]
      simp only [hn]
      rfl
    | some names =>
      obtain ⟨bound, q, hbind, htied, hgood⟩ := bindSlots_of_quiet callbacks (m := m) (e := e) hq
        template names (isName_of_names? hn)
      refine ⟨bound.map fun x => if x then some ⟨e, .text, template, names⟩ else none, q,
        fun n => ?_, htied, fun hc => ?_⟩
      · rw [bindText, Run.get_bind, ht]
        simp only [hn]
        exact Run.bind_of_eq (hbind n) _
      · have hbound := hgood hc
        cases bound with
        | error failure => cases hbound
        | ok x => rfl

theorem bindElement_of_quiet (callbacks : Callbacks κ σ) (b : BusId) (m : ModelId) (e : ElementId)
    (hq : p.QuietOn b) :
    ∃ outcome q, (∀ n, (ofFrames callbacks (n + 1)).bindElement b m e p = some (outcome, q)) ∧
      Tied b m e p q ∧ (p.CalmOn b → outcome.isOk = true) := by
  have hq' : ((p.hold (.element e)).hold (.model m)).QuietOn b := hq
  obtain ⟨text, q, htext, htied, hgood⟩ := bindText_of_quiet callbacks (m := m) (e := e) hq'
  -- what is held is let go again
  have hreleased : ∀ {s : Page κ σ}, Tied b m e ((p.hold (.element e)).hold (.model m)) s →
      Tied b m e p ((s.release (.model m)).release (.element e)) := by
    intro s hs
    have hrest := hs.rest
    refine ⟨?_, hs.registry, hs.absent, hs.buses, hs.children⟩
    rw [hrest]
    simp only [release, hold, List.erase_cons_head]
  cases text with
  | error failure =>
    refine ⟨.error failure, _, fun n => ?_, hreleased htied, fun hc => ?_⟩
    · exact Run.holding_of_eq (Run.holding_of_eq (Run.bind_of_eq (htext n) _))
    · cases hgood hc
  | ok text =>
    have hall := hreleased (htied.trans (tied_bindAttributes (q.attributesOf e).entries))
    exact ⟨.ok (text.toList ++ (q.bindAttributes b m e (q.attributesOf e).entries).1), _,
      fun n => Run.holding_of_eq (Run.holding_of_eq (Run.bind_of_eq (htext n) _)), hall, fun _ => rfl⟩

end Engine

end Bindery
