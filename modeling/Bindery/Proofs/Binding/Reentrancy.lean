import Bindery.Proofs.Binding.Sync

/-!
# Calls within calls

Whatever the strict engine carries out leads `Onward`.  A write stores a value and announces it, and
the listeners that are called may write, publish and fire events themselves.  But an event in flight is
not published again without a failure, so a value in flight is not written until its delivery ends,
and every listener of a text finds in the model the value that is announced to it.

* `Page.Announces`      what is announced on the bus of the bindings is what is stored
* `Engine.Steady`       an engine whose calls lead onward
* `onward_program`      then a mild program leads onward
* `onward_deliver`      and a text whose turn comes is in sync when its delivery ends
* `steady_strict`       the strict engine is one, with any number of frames
-/

namespace Bindery

namespace Page

variable {κ σ : Type} {b : BusId} {isChange : String → Prop} {bs : List Binding} {β : Binding}
  {p q s : Page κ σ} {x : BusId} {event : String} {value : Value}

/-- If an event of the bus of the bindings announces a write, then of this value, and the model is
held. -/
def Announces (b : BusId) (x : BusId) (event : String) (value : Value) (p : Page κ σ) : Prop :=
  x = b → ∀ {m d k}, p.model? m = some d → d.bus = b → k ∈ d.observed → d.event k = event →
    d.get? k = some value ∧ .model m ∈ p.held

theorem Announces.onward (ha : p.Announces b x event value) (ho : Onward b bs p q)
    {r : Registry (Listener κ)} (hb : p.bus? x = some r) (hf : event ∈ r.inFlight) :
    q.Announces b x event value := by
  intro hx m d' k hm' hbus hk he
  obtain ⟨d, hm, hext⟩ := ho.model_back hm'
  have hbus' : d.bus = b := hext.bus.symm.trans hbus
  have hk' : k ∈ d.observed := hext.observed ▸ hk
  have he' : d.event k = event := (hext.event k).symm.trans he
  obtain ⟨hv, hh⟩ := ha hx hm hbus' hk' he'
  have hsame := ho.frozen (hx ▸ hb) hm hbus' hk' (he' ▸ hf)
  rw [lookup_of_model? hm, lookup_of_model? hm'] at hsame
  exact ⟨hsame.trans hv, ho.held ▸ hh⟩

theorem Sound.announces (hs : Sound b isChange bs p) {m : ModelId} {d : Model} {key : String}
    (hm : p.model? m = some d) (hk : key ∈ d.observed) (hv : d.get? key = some value)
    (hheld : .model m ∈ p.held) : p.Announces b d.bus (d.event key) value := by
  intro hbus n d' k hn hbus' hk' hev
  have hnm : n = m := hs.distinct hn hm hbus' hbus hk' hk hev
  subst hnm
  cases hm.symm.trans hn
  have hkk : k = key := d.event_injective hev
  subst hkk
  exact ⟨hv, hheld⟩

theorem onward_following {callbacks : Callbacks κ σ} {engine : Engine κ σ} {name : String}
    {a : Outcome} (hs : Sound b isChange bs p) (hplain : p.isPlain = true)
    (ha : p.Announces b x event value) (hβ : p.Belongs b bs x event β name)
    (h : Engine.notify callbacks engine (.following β name) value p = some (a, q)) :
    Onward b bs p q ∧ (q.Relevant β → q.InSync β) := by
  obtain ⟨d, hd, hbus, hobs, hev⟩ := hβ.model
  obtain ⟨el, hel⟩ := hβ.element
  obtain ⟨hv, hheld⟩ := ha hβ.bus hd hbus hobs hev.symm
  have hlive := modelAlive_of_held hheld
  have hcall : q = if p.elementAlive β.element && p.modelAlive β.model then p.setText β.element
      (Engine.renderedText p β.model β.template (Template.names β.template) name value) else p := by
    rw [Engine.notify_of_isBinding callbacks engine value rfl p] at h
    cases h
    exact receive_text ..
  rw [hlive, Bool.and_true] at hcall
  by_cases halive : p.elementAlive β.element = true
  · rw [if_pos halive] at hcall
    subst hcall
    have hshrinks := Shrinks.setText p β.element
      (Engine.renderedText p β.model β.template (Template.names β.template) name value)
    -- every other name of the template has the value that is stored
    have hsync : ∀ {t : Page κ σ}, t = p.setText β.element
        (Engine.renderedText p β.model β.template (Template.names β.template) name value) →
        t.Relevant β → t.InSync β := by
      rintro t rfl hrel
      have hvalues : ∀ n ∈ Template.names β.template, ∀ v, p.lookup β.model n = some v → v.Plain := by
        intro n hn v hnv
        rw [lookup_of_model? hd] at hnv
        rcases hrel.settled d hd n hn with ho | hc
        · exact plain_of_isPlain hplain hd ho hnv
        · rw [Model.contains_eq, hnv] at hc
          cases hc
      have hfill : Template.render β.template (Template.names β.template) name value (p.lookup β.model)
          = Template.fill (p.lookup β.model) β.template :=
        Template.render_eq_fill hrel.tidy hvalues hβ.named ((lookup_of_model? hd name).trans hv)
      unfold InSync
      rw [textContent_setText hel]
      exact hfill
    refine ⟨Onward.of_elements rfl hshrinks fun γ hγ hrel hin => ?_, hsync rfl⟩
    rcases hs.apart γ hγ β hβ.mem with rfl | ⟨hne, hout⟩
    · exact hsync rfl hrel
    · unfold InSync at hin ⊢
      rw [show (p.setText β.element _).textContent γ.element = p.textContent γ.element from
        textContent_modifyElement (Ne.symm hne) hout _]
      exact hin
  · rw [if_neg halive] at hcall
    subst hcall
    exact ⟨Onward.refl b bs q, fun hrel => absurd hrel.alive halive⟩

/-! ## Values stored -/

theorem isPlain_iff : p.isPlain = true ↔ ∀ m d, p.model? m = some d → d.isPlain = true := by
  unfold isPlain
  rw [Array.all_eq_true']
  constructor
  · exact fun h m d hm => h d (Array.mem_of_getElem? hm)
  · intro h d hd
    obtain ⟨i, hi⟩ := Array.getElem?_of_mem hd
    exact h ⟨i⟩ d hi

section

variable {m : ModelId} {d : Model} {key : String}

theorem model?_store_back (hm : p.model? m = some d) {n : ModelId} {d'' : Model}
    (hn : (p.store m key value).model? n = some d'') :
    ∃ d', p.model? n = some d' ∧ d'.Extends d'' := by
  by_cases h : m = n
  · subst h
    cases (model?_store_self hm key value).symm.trans hn
    exact ⟨d, hm, Model.Extends.store d key value⟩
  · exact ⟨d'', (model?_store_of_ne h key value).symm.trans hn, Model.Extends.refl d''⟩

theorem Sound.store (hs : Sound b isChange bs p) (hm : p.model? m = some d) (key : String)
    (value : Value) : Sound b isChange bs (p.store m key value) := by
  refine hs.carry (Grown.store p m key value) (model?_store_back hm) ?_
    (fun hb hl _ => Or.inl ⟨_, hb, hl⟩)
    (fun hd => ⟨_, hd⟩) (Inside.of_elements (p := p) (q := p.store m key value) rfl)
  obtain ⟨r, hr⟩ := hs.bus
  exact ⟨r, hr, fun event hf => hs.inFlight hr hf⟩

/-- What follows after a value was stored leads onward from before, if the texts that show the value
are in sync at the end. -/
theorem Onward.of_store (hm : p.model? m = some d) (ho : Onward b bs (p.store m key value) q)
    (hplain : p.isPlain = true → (p.store m key value).isPlain = true)
    (hidle : ∀ r, p.bus? b = some r → d.bus = b → key ∈ d.observed → d.event key ∉ r.inFlight)
    (hsync : ∀ β ∈ bs, p.Registered b β → β.model = m → key ∈ Template.names β.template →
      q.Relevant β → q.InSync β) : Onward b bs p q where
  grown := (Grown.store p m key value).trans ho.grown
  noModel {n} hn := by
    refine ho.noModel ?_
    rw [model?_store_of_ne (fun h => ?_)]
    · exact hn
    · rw [← h, hm] at hn
      cases hn
  bus hb := ho.bus hb
  texts hb hl ht := ho.texts hb hl ht
  held := ho.held
  shrinks := { ho.shrinks with }
  plain hp := ho.plain (hplain hp)
  frozen {r n d' k} hb hn hbus hk hf := by
    obtain ⟨d₁, h₁, e₁⟩ := Grown.store p m key value _ _ hn
    have hq := ho.frozen hb h₁ (e₁.bus.trans hbus) (e₁.observed ▸ hk) ((e₁.event k).symm ▸ hf)
    rw [hq]
    by_cases h : m = n
    · subst h
      cases hm.symm.trans hn
      have hne : k ≠ key := by
        rintro rfl
        exact hidle r hb hbus hk hf
      rw [lookup_of_model? hm, lookup_of_model? (model?_store_self hm key value)]
      exact d.get?_written_of_ne hne value
    · unfold lookup
      rw [model?_store_of_ne h]
  synced β hβ hreg hrel hin := by
    by_cases hshown : β.model = m ∧ key ∈ Template.names β.template
    · exact hsync β hβ hreg hshown.1 hshown.2 hrel
    · have hreg' : (p.store m key value).Registered b β := by
        obtain ⟨r, d', hb, hd', hall⟩ := hreg
        obtain ⟨d₁, h₁, e₁⟩ := Grown.store p m key value _ _ hd'
        refine ⟨r, d₁, hb, h₁, fun n hn hno => ?_⟩
        rw [e₁.event]
        exact hall n hn (e₁.observed ▸ hno)
      refine ho.synced β hβ hreg' hrel ?_
      unfold InSync at hin ⊢
      rw [textContent_of_sameChildren (p := p) (q := p.store m key value) rfl fun _ => rfl, hin]
      refine Template.fill_congr fun n hn => ?_
      by_cases h : m = β.model
      · have hne : n ≠ key := by
          rintro rfl
          exact hshown ⟨h.symm, hn⟩
        subst h
        rw [lookup_of_model? hm, lookup_of_model? (model?_store_self hm key value)]
        exact (d.get?_written_of_ne hne value).symm
      · unfold lookup
        rw [model?_store_of_ne h]

end

/-! ## Events published -/

/-- What holds when an event was published and nothing failed. -/
structure Published (b : BusId) (bs : List Binding) (x : BusId) (event : String) (p q : Page κ σ) :
    Prop where
  onward : Onward b bs p q
  plain : p.isPlain = true
  idle : x = b → ∀ r, p.bus? b = some r → event ∉ r.inFlight
  /-- the texts that listen are in sync -/
  called : x = b → ∀ β ∈ bs, p.Registered b β → ∀ d n, p.model? β.model = some d →
    n ∈ Template.names β.template → n ∈ d.observed → d.event n = event → q.Relevant β → q.InSync β

end Page

namespace Engine

open Page

variable {κ σ α : Type} {b : BusId} {isChange : String → Prop} {bs : List Binding}
  {callbacks : Callbacks κ σ} {engine : Engine κ σ} {p q : Page κ σ} {x : BusId} {event : String}
  {value : Value}

/-- Whatever the engine is asked for leads onward. -/
structure Steady (b : BusId) (isChange : String → Prop) (bs : List Binding) (engine : Engine κ σ) :
    Prop where
  publish : ∀ {x event value p a q}, Sound b isChange bs p → p.Announces b x event value →
    engine.publish x event value p = some (a, q) → a = .ok () ∧ Published b bs x event p q
  dispatch : ∀ {e kind p a q}, Sound b isChange bs p → engine.dispatch e kind p = some (a, q) →
    Onward b bs p q

theorem onward_write (he : Steady b isChange bs engine) (hs : Sound b isChange bs p) {m : ModelId}
    {key : String} {a : Outcome} (h : engine.write m key value p = some (a, q)) : Onward b bs p q := by
  cases hm : p.model? m with
  | none =>
    rw [write, Run.get_bind, hm] at h
    cases h
    exact Onward.refl b bs _
  | some d =>
    by_cases hk : key ∈ d.observed
    · rw [write_of_observed hm hk] at h
      obtain ⟨q', hp, rfl⟩ := Run.holding_eq_some.mp h
      have hs' : Sound b isChange bs ((p.store m key value).hold (.model m)) :=
        (hs.store hm key value).of_same rfl rfl rfl
      have hself : ((p.store m key value).hold (.model m)).model? m
          = some { d with values := d.values.set key value } := model?_store_self hm key value
      have hann := hs'.announces hself hk (d.get?_written_self key value) List.mem_cons_self
      obtain ⟨-, hpub⟩ := he.publish hs' hann hp
      refine Onward.of_store hm hpub.onward.holding (fun _ => hpub.plain) ?_ ?_
      · exact fun r hr hbus _ => hpub.idle hbus r hr
      · intro β hβ hreg hβm hn hrel
        obtain ⟨d', hd', hbus⟩ := hs.models β hβ
        rw [hβm] at hd'
        cases hm.symm.trans hd'
        have hself : ((p.store m key value).hold (.model m)).model? β.model
            = some { d with values := d.values.set key value } := by
          rw [hβm]
          exact model?_store_self hm key value
        have hreg' : ((p.store m key value).hold (.model m)).Registered b β := by
          obtain ⟨r, d₁, hb, hd₁, hall⟩ := hreg
          rw [hβm] at hd₁
          cases hm.symm.trans hd₁
          exact ⟨r, _, hb, hself, hall⟩
        have hin := hpub.called hbus β hβ hreg' _ key hself hn hk rfl (relevant_of_release hrel)
        exact hin.of_same rfl rfl
    · rw [write_of_silent hm hk] at h
      cases h
      refine Onward.of_store hm (Onward.refl b bs _) (fun hp => ?_) (fun _ _ _ hko => absurd hko hk) ?_
      · rw [isPlain_iff] at hp ⊢
        intro n d' hn
        by_cases hmn : m = n
        · subst hmn
          cases (model?_store_self hm key value).symm.trans hn
          have hd := List.all_eq_true.mp (hp m d hm)
          refine List.all_eq_true.mpr fun k hko => ?_
          rw [d.get?_written_of_ne fun hkk : k = key => hk (hkk ▸ hko)]
          exact hd k hko
        · exact hp n d' ((model?_store_of_ne hmn key value).symm.trans hn)
      · intro β hβ _ hβm hn hrel
        have hself : (p.store m key value).model? β.model
            = some { d with values := d.values.set key value } := by
          rw [hβm]
          exact model?_store_self hm key value
        rcases hrel.settled _ hself key hn with ho | hc
        · exact absurd ho hk
        · rw [Model.contains_eq, d.get?_written_self] at hc
          cases hc

theorem onward_call (he : Steady b isChange bs engine) (hs : Sound b isChange bs p) {c : Call κ}
    (hc : c.Mild b isChange) {a : c.Answer} (h : c.run engine p = some (a, q)) : Onward b bs p q := by
  cases c with
  | subscribe x event code =>
    have hq : q = (p.subscribe x event (.callback code)).2 :=
      (congrArg Prod.snd (Option.some.inj h)).symm
    rw [hq]
    exact onward_subscribe p x event rfl fun h => nomatch h
  | publish x event value =>
    refine (he.publish hs ?_ h).2.onward
    intro hx m d k hm hbus hk hev
    exact absurd (hev ▸ hs.changes hm hbus hk) (hc hx)
  | write m key value => exact onward_write he hs h
  | setAttribute e name value =>
    cases h
    exact onward_modifyElement p e fun _ => rfl
  | removeAttribute e name =>
    cases h
    exact onward_modifyElement p e fun _ => rfl
  | setProperty e name value =>
    cases h
    exact onward_modifyElement p e fun _ => rfl
  | listen e kind code =>
    cases h
    exact onward_modifyElement p e fun _ => rfl
  | dispatch e kind => exact he.dispatch hs h
  | _ => exact absurd hc id

theorem onward_program (he : Steady b isChange bs engine) (hs : Sound b isChange bs p)
    {program : Program κ σ α} (ht : program.Tame (Call.Mild b isChange)) {a : α}
    (h : program.run engine p = some (a, q)) : Onward b bs p q := by
  induction program generalizing p with
  | done a =>
    cases h
    exact Onward.refl b bs _
  | inspect next ih => exact ih p hs (ht p) h
  | amend f next ih =>
    have ho : Onward b bs p { p with host := f p.host } := onward_host p f
    exact ho.trans (ih (hs.onward ho) ht h)
  | call c next ih =>
    obtain ⟨answer, q₁, h₁, h₂⟩ := Run.bind_eq_some.mp h
    have ho := onward_call he hs ht.1 h₁
    exact ho.trans (ih answer (hs.onward ho) (ht.2 answer) h₂)

theorem onward_handle (he : Steady b isChange bs engine) (hc : callbacks.Tame (Call.Mild b isChange))
    (hs : Sound b isChange bs p) {e : ElementId} {handler : Handler κ} {a : Outcome}
    (h : handle callbacks engine e handler p = some (a, q)) : Onward b bs p q := by
  cases handler with
  | writeBack m property key control =>
    rw [handle, Run.get_bind] at h
    split at h
    · exact onward_write he hs h
    · cases h
      exact Onward.refl b bs _
  | callback code => exact onward_program he hs (hc.onEvent code e) h

theorem onward_handleAll (he : Steady b isChange bs engine)
    (hc : callbacks.Tame (Call.Mild b isChange)) (hs : Sound b isChange bs p) {e : ElementId}
    {handlers : List (Handler κ)} {a : Outcome}
    (h : handleAll callbacks engine e handlers p = some (a, q)) : Onward b bs p q := by
  induction handlers generalizing p with
  | nil =>
    cases h
    exact Onward.refl b bs _
  | cons handler rest ih =>
    obtain ⟨outcome, q₁, h₁, h₂⟩ := Run.bind_eq_some.mp h
    have ho := onward_handle he hc hs h₁
    cases outcome with
    | ok u => exact ho.trans (ih (hs.onward ho) h₂)
    | error failure =>
      cases h₂
      exact ho

theorem onward_dispatchWith (he : Steady b isChange bs engine)
    (hc : callbacks.Tame (Call.Mild b isChange)) (hs : Sound b isChange bs p) {e : ElementId}
    {kind : EventKind} {a : Outcome} (h : dispatchWith callbacks engine e kind p = some (a, q)) :
    Onward b bs p q := by
  obtain ⟨q', h', rfl⟩ := Run.holding_eq_some.mp h
  rw [Run.get_bind] at h'
  have hs' : Sound b isChange bs (p.hold (.element e)) := hs.of_same rfl rfl rfl
  exact (onward_handleAll he hc hs' h').holding

/-! ## Deliveries -/

theorem onward_notify (he : Steady b isChange bs engine) (hc : callbacks.Tame (Call.Mild b isChange))
    (hs : Sound b isChange bs p) (hplain : p.isPlain = true) (ha : p.Announces b x event value)
    {r : Registry (Listener κ)} (hb : p.bus? x = some r) {l : Listener κ} (hl : l ∈ r.heard event)
    {a : Outcome} (h : notify callbacks engine l value p = some (a, q)) :
    Onward b bs p q ∧ ∀ β name, l = .following β name → q.Relevant β → q.InSync β := by
  cases l with
  | text e m template names changed =>
    obtain ⟨β, name, hβ, hbelongs⟩ := hs.texts hb hl rfl
    rw [hβ] at h ⊢
    have hf := onward_following hs hplain ha hbelongs h
    refine ⟨hf.1, fun γ n hγ => ?_⟩
    have hsame : β = γ := by
      unfold Listener.following at hγ
      cases β
      cases γ
      cases hγ
      rfl
    exact hsame ▸ hf.2
  | property e name =>
    rw [notify_of_isBinding callbacks engine value rfl p] at h
    cases h
    refine ⟨?_, fun γ n hγ => nomatch hγ⟩
    rw [receive_property]
    split
    · exact onward_modifyElement p e.target fun _ => rfl
    · exact Onward.refl b bs p
  | callback code =>
    exact ⟨onward_program he hs (hc.onPublish code value) h, fun γ n hγ => nomatch hγ⟩

/-- The turns that are left of a delivery.  A text whose turn comes is in sync at the end, as whatever
is called after it leads onward. -/
theorem onward_deliver (he : Steady b isChange bs engine) (hc : callbacks.Tame (Call.Mild b isChange))
    (hs : Sound b isChange bs p) (hplain : p.isPlain = true) (ha : p.Announces b x event value)
    {r : Registry (Listener κ)} (hb : p.bus? x = some r) (hf : event ∈ r.inFlight) {generation : Nat}
    {turns : List Nat}
    (h : deliver callbacks engine x event generation value turns p = some (.ok (), q)) :
    Onward b bs p q ∧ ∀ β ∈ bs, ∀ name, ∀ i ∈ turns, p.Registered b β →
      r.slot? event generation i = some (some (.following β name)) → q.Relevant β → q.InSync β := by
  induction turns generalizing p r with
  | nil =>
    cases h
    exact ⟨Onward.refl b bs _, fun _ _ _ i hi => absurd hi List.not_mem_nil⟩
  | cons i rest ih =>
    cases hslot : r.slot? event generation i with
    | none =>
      rw [deliver_of_gone hb hslot] at h
      cases h
      refine ⟨Onward.refl b bs _, fun _ _ _ j _ _ hj => ?_⟩
      rw [Registry.slot?_eq_none hslot j] at hj
      cases hj
    | some slot =>
      cases slot with
      | none =>
        rw [deliver_of_empty hb hslot] at h
        obtain ⟨ho, hcalled⟩ := ih hs hplain ha hb hf h
        refine ⟨ho, fun β hβ name j hj hreg hjs => ?_⟩
        rcases List.mem_cons.mp hj with rfl | hj
        · rw [hslot] at hjs
          cases hjs
        · exact hcalled β hβ name j hj hreg hjs
      | some l =>
        have hl : l ∈ r.heard event := by
          cases hch : r.channel? event with
          | none =>
            rw [Registry.slot?_of_none hch] at hslot
            cases hslot
          | some c =>
            rw [Registry.slot?_of_some hch] at hslot
            split at hslot
            · rw [Option.some.injEq, Option.join_eq_some_iff] at hslot
              rw [Registry.mem_heard, Registry.slotsOf_of_some hch]
              exact List.mem_of_getElem? hslot
            · cases hslot
        rw [deliver, Run.get_bind, hb, Option.bind_some, hslot] at h
        obtain ⟨outcome, p₁, h₁, h₂⟩ := Run.bind_eq_some.mp h
        obtain ⟨ho₁, hsync₁⟩ := onward_notify he hc hs hplain ha hb hl h₁
        cases outcome with
        | error failure => cases h₂
        | ok u =>
          obtain ⟨r₁, hb₁, hk₁⟩ := ho₁.bus hb
          have hf₁ : event ∈ r₁.inFlight := by
            rw [hk₁.inFlight]
            exact hf
          obtain ⟨ho₂, hcalled⟩ := ih (hs.onward ho₁) (ho₁.plain hplain) (ha.onward ho₁ hb hf) hb₁
            hf₁ h₂
          refine ⟨ho₁.trans ho₂, fun β hβ name j hj hreg hjs hrel => ?_⟩
          rcases List.mem_cons.mp hj with rfl | hj
          · rw [hslot] at hjs
            cases hjs
            exact ho₂.synced β hβ (ho₁.registered hreg) hrel
              (hsync₁ β name rfl (ho₂.relevant hrel))
          · exact hcalled β hβ name j hj (ho₁.registered hreg) (hk₁.slot? hjs) hrel

theorem relevant_of_leave {β : Binding} (hr : (q.modifyBus x Registry.leave).Relevant β) :
    q.Relevant β :=
  hr.of_shrinks (Grown.of_models rfl)
    (SameLives.modifyBus (p := q) (b := x) (f := Registry.leave) fun _ _ => rfl).shrinks

theorem registered_enter {r : Registry (Listener κ)} (hb : p.bus? x = some r) {β : Binding}
    (hreg : p.Registered b β) :
    (p.modifyBus x fun _ => { r with inFlight := r.inFlight ++ [event] }).Registered b β := by
  obtain ⟨r', d, hb', hd, hall⟩ := hreg
  by_cases hx : x = b
  · subst hx
    cases hb.symm.trans hb'
    exact ⟨_, d, bus?_modifyBus_self hb _, hd, hall⟩
  · exact ⟨r', d, (bus?_modifyBus_of_ne hx _).trans hb', hd, hall⟩

/-- A delivery leads onward from the page on which its event came into flight; so does publishing the
event. -/
theorem onward_of_delivery {r : Registry (Listener κ)}
    (hb : p.bus? x = some r)
    (ho : Onward b bs (p.modifyBus x fun _ => { r with inFlight := r.inFlight ++ [event] }) q) :
    Onward b bs p (q.modifyBus x Registry.leave) := by
  have hnew : (p.modifyBus x fun _ => { r with inFlight := r.inFlight ++ [event] }).bus? x
      = some { r with inFlight := r.inFlight ++ [event] } := bus?_modifyBus_self hb _
  have hother : ∀ {y}, x ≠ y →
      (p.modifyBus x fun _ => { r with inFlight := r.inFlight ++ [event] }).bus? y = p.bus? y :=
    fun hne => bus?_modifyBus_of_ne hne _
  obtain ⟨s, hs, hk⟩ := ho.bus hnew
  have hleft : (q.modifyBus x Registry.leave).bus? x = some s.leave := bus?_modifyBus_self hs _
  have henter : SameLives p (p.modifyBus x fun _ => { r with inFlight := r.inFlight ++ [event] }) :=
    .modifyBus fun r' hr' => by
      cases hb.symm.trans hr'
      rfl
  have hleave : SameLives q (q.modifyBus x Registry.leave) := .modifyBus fun _ _ => rfl
  have hkept : r.Kept s.leave := by
    refine ⟨?_, hk.channel⟩
    show s.inFlight.dropLast = r.inFlight
    rw [hk.inFlight]
    exact List.dropLast_concat
  exact
    { grown := ho.grown
      noModel := ho.noModel
      bus := fun {y t} hy => by
        by_cases hxy : x = y
        · subst hxy
          cases hb.symm.trans hy
          exact ⟨s.leave, hleft, hkept⟩
        · obtain ⟨t', ht', hk'⟩ := ho.bus ((hother hxy).trans hy)
          exact ⟨t', (bus?_modifyBus_of_ne hxy _).trans ht', hk'⟩
      texts := fun {y t' other l} hy hl ht => by
        by_cases hxy : x = y
        · subst hxy
          cases hleft.symm.trans hy
          rcases ho.texts hs hl ht with ⟨t, ht', hl'⟩ | ⟨β, name, rfl, hβ⟩
          · cases hnew.symm.trans ht'
            exact Or.inl ⟨r, hb, hl'⟩
          · exact Or.inr ⟨β, name, rfl, hβ.of_same rfl rfl⟩
        · rcases ho.texts ((bus?_modifyBus_of_ne hxy _).symm.trans hy) hl ht with
            ⟨t, ht', hl'⟩ | ⟨β, name, rfl, hβ⟩
          · exact Or.inl ⟨t, (hother hxy).symm.trans ht', hl'⟩
          · exact Or.inr ⟨β, name, rfl, hβ.of_same rfl rfl⟩
      held := ho.held
      shrinks := (henter.shrinks.trans ho.shrinks).trans hleave.shrinks
      plain := ho.plain
      frozen := fun {t m d k} hbt hm hbus hko hf => by
        by_cases hxb : x = b
        · subst hxb
          cases hb.symm.trans hbt
          exact ho.frozen hnew hm hbus hko (List.mem_append_left _ hf)
        · exact ho.frozen ((hother hxb).trans hbt) hm hbus hko hf
      synced := fun β hβ hreg hrel hin => by
        have hin' : (p.modifyBus x fun _ => { r with inFlight := r.inFlight ++ [event] }).InSync β :=
          hin.of_same rfl rfl
        have hend := ho.synced β hβ (registered_enter hb hreg) (relevant_of_leave hrel) hin'
        exact hend.of_same rfl rfl }

/-- Publishing that ends well: either nobody listens, or a delivery goes through. -/
theorem published_of_publishWith (he : Steady b isChange bs engine)
    (hc : callbacks.Tame (Call.Mild b isChange)) (hs : Sound b isChange bs p)
    (hplain : p.isPlain = true) (ha : p.Announces b x event value)
    (h : publishWith callbacks engine x event value p = some (.ok (), q)) :
    Published b bs x event p q := by
  cases hb : p.bus? x with
  | none =>
    rw [publishWith_of_absent hb] at h
    cases h
    obtain ⟨r, hr⟩ := hs.bus
    refine ⟨Onward.refl b bs _, hplain, fun hx => ?_, fun hx => ?_⟩
    · rw [hx, hr] at hb
      cases hb
    · rw [hx, hr] at hb
      cases hb
  | some r =>
    cases hch : r.channel? event with
    | none =>
      rw [publishWith_of_silent hb (Registry.enter_of_none hch)] at h
      cases h
      refine ⟨Onward.refl b bs _, hplain, fun hx r' hr' hf => ?_, ?_⟩
      · rw [hx, hr'] at hb
        cases hb
        obtain ⟨c, hcs⟩ := hs.inFlight hr' hf
        rw [hch] at hcs
        cases hcs
      · rintro hx β hβ hreg d n hd hn hno rfl
        have hl := hreg.heard (hx ▸ hb) hd hn hno
        obtain ⟨c, hcs⟩ := Registry.exists_channel_of_mem_slotsOf (Registry.mem_heard.mp hl)
        rw [hch] at hcs
        cases hcs
    | some c =>
      have hent := Registry.enter_of_some hch
      by_cases hf : event ∈ r.inFlight
      · rw [if_pos hf] at hent
        rw [publishWith_of_refused hb hent] at h
        cases h
      · rw [if_neg hf] at hent
        by_cases hdeep : r.maxDepth ≤ r.inFlight.length
        · rw [if_pos hdeep] at hent
          rw [publishWith_of_refused hb hent] at h
          cases h
        · rw [if_neg hdeep] at hent
          obtain ⟨q₁, hrun, rfl⟩ := publishWith_eq_some_of_entered hb hent h
          have hnew := bus?_modifyBus_self hb fun _ => { r with inFlight := r.inFlight ++ [event] }
          obtain ⟨ho, hcalled⟩ := onward_deliver he hc (hs.enter hb hch) hplain ha hnew
            (List.mem_append_right _ (List.mem_singleton_self event)) hrun
          refine ⟨onward_of_delivery hb ho, hplain, fun hx r' hr' => ?_, ?_⟩
          · rw [hx, hr'] at hb
            cases hb
            exact hf
          · rintro hx β hβ hreg d n hd hn hno rfl hrel
            -- the binding has a place among the slots that are gone through
            have hl := hreg.heard (hx ▸ hb) hd hn hno
            rw [Registry.mem_heard, Registry.slotsOf_of_some hch] at hl
            obtain ⟨i, hi, hli⟩ := List.getElem_of_mem hl
            have hslot : r.slot? (d.event n) c.generation i = some (some (.following β n)) := by
              rw [Registry.slot?_of_some hch, if_pos rfl, List.getElem?_eq_getElem hi, hli]
              rfl
            have hend := hcalled β hβ n i (List.mem_range.mpr hi) (registered_enter hb hreg) hslot
              (relevant_of_leave hrel)
            exact hend.of_same rfl rfl

/-- The strict engine leads onward, with any number of frames. -/
theorem steady_strict (hc : callbacks.Tame (Call.Mild b isChange)) (frames : Nat) :
    Steady b isChange bs (strict callbacks frames) := by
  induction frames with
  | zero => exact ⟨fun _ _ h => (nomatch h), fun _ h => (nomatch h)⟩
  | succ frames ih =>
    refine ⟨fun {x event value p a q} hs ha h => ?_, fun hs h => onward_dispatchWith ih hc hs h⟩
    obtain ⟨rfl, hplain, hrun⟩ := strict_publish_eq_some h
    exact ⟨rfl, published_of_publishWith ih hc hs hplain ha hrun⟩

end Engine

end Bindery
