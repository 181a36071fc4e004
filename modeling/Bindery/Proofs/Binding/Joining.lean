import Bindery.Proofs.Binding.Reentrancy
import Bindery.Proofs.Binding.Replay

/-!
# A text bound among others

Binding a text leads onward as well.  While the slots of the text are joined one after the other, a
listener of it is called with some of its listeners still missing, and a write to one of the keys they
wait for is not shown.  The last replay makes up for that: when it begins, all listeners are there.

* `onward_bindAttributes`   attributes are bound without any text being written
* `onward_bindSlots`        a text is in sync after the last of its slots was joined
* `onward_bindElement`      so it is in sync when its element was bound
-/

namespace Bindery

namespace Page

variable {κ σ : Type} {b : BusId} {isChange : String → Prop} {bs : List Binding} {β : Binding}
  {p q : Page κ σ}

/-! ## Attributes -/

theorem onward_bindAttributes (p : Page κ σ) (x : BusId) (m : ModelId) (e : ElementId)
    (entries : List (String × String)) : Onward b bs p (p.bindAttributes x m e entries).2 :=
  bindAttributes_keeps (fun q _ _ _ _ h => h.trans (onward_modifyElement q e fun _ => rfl))
    (fun q _ _ h => h.trans (onward_modifyElement q e fun _ => rfl))
    (fun q event _ h => h.trans (onward_subscribe q x event rfl fun h => nomatch h))
    (Onward.refl b bs p) entries

/-! ## One more binding -/

theorem Sound.cons (hs : Sound b isChange bs p) {d : Model} (hm : p.model? β.model = some d)
    (hbus : d.bus = b) (ha : ∀ γ ∈ bs, γ.element ≠ β.element ∧ ¬ p.Inside γ.element β.element ∧
      ¬ p.Inside β.element γ.element) : Sound b isChange (β :: bs) p where
  bus := hs.bus
  texts hb hl ht := by
    obtain ⟨γ, name, rfl, hγ⟩ := hs.texts hb hl ht
    exact ⟨γ, name, rfl, hγ.bus, List.mem_cons_of_mem β hγ.mem, hγ.named, hγ.element, hγ.model⟩
  inFlight := hs.inFlight
  changes := hs.changes
  distinct := hs.distinct
  keys := hs.keys
  apart γ hγ δ hδ := by
    rcases List.mem_cons.mp hγ with rfl | hγ'
    · rcases List.mem_cons.mp hδ with rfl | hδ'
      · exact Or.inl rfl
      · exact Or.inr ⟨Ne.symm (ha δ hδ').1, (ha δ hδ').2.2⟩
    · rcases List.mem_cons.mp hδ with rfl | hδ'
      · exact Or.inr ⟨(ha γ hγ').1, (ha γ hγ').2.1⟩
      · exact hs.apart γ hγ' δ hδ'
  models γ hγ := by
    rcases List.mem_cons.mp hγ with rfl | hγ
    · exact ⟨d, hm, hbus⟩
    · exact hs.models γ hγ

theorem Subscribed.of_names {names more : List String} (h : p.Subscribed b names β) {d : Model}
    (hd : p.model? β.model = some d) (hall : ∀ n ∈ more, n ∈ d.observed → n ∈ names) :
    p.Subscribed b more β := by
  obtain ⟨r, d', hb, hd', hl⟩ := h
  cases hd.symm.trans hd'
  exact ⟨r, d, hb, hd, fun n hn ho => hl n (hall n hn ho) ho⟩

theorem subscribed_cons {names : List String} (name : String) (hf : p.Subscribed b names β) :
    (p.subscribe b (p.eventOf β.model name) (.following β name)).2.Subscribed b (name :: names) β := by
  obtain ⟨r, d, hb, hd, hall⟩ := hf
  rw [subscribe_of_some hb, eventOf_of_model? hd]
  refine ⟨_, d, bus?_modifyBus_self hb _, hd, fun n hn ho => ?_⟩
  rw [Registry.heard_subscribe]
  rcases List.mem_cons.mp hn with rfl | hn
  · rw [if_pos rfl]
    exact List.mem_append_right _ (List.mem_singleton_self _)
  · split
    · exact List.mem_append_left _ (hall n hn ho)
    · exact hall n hn ho

end Page

namespace Engine

open Page

variable {κ σ : Type} {b : BusId} {isChange : String → Prop} {bs : List Binding} {β : Binding}
  {engine other : Engine κ σ} {p q : Page κ σ}

/-- One slot joined: the name gets its listener, and its value is announced.  If no other listener is
missing, the text is in sync then. -/
theorem onward_joinSlot (he : Steady b isChange bs engine) (hs : Sound b isChange bs p) (hβ : β ∈ bs)
    (hheld : .model β.model ∈ p.held) (hel : ∃ d, p.element? β.element = some d) {d : Model}
    (hd : p.model? β.model = some d) {names : List String} (hsub : p.Subscribed b names β)
    {name : String} (hname : name ∈ Template.names β.template) (hno : name ∈ d.observed)
    (hp : engine.publish b (p.eventOf β.model name) (p.valueOf β.model name)
      (p.subscribe b (p.eventOf β.model name) (.following β name)).2 = some (.ok (), q)) :
    Onward b bs p q ∧ q.Subscribed b (name :: names) β ∧
      ((∀ n ∈ Template.names β.template, n ∈ d.observed → n ∈ name :: names) →
        q.Relevant β → q.InSync β) := by
  obtain ⟨d', hd', hbus⟩ := hs.models β hβ
  cases hd.symm.trans hd'
  have hsub₀ := subscribed_cons name hsub
  have ho₀ : Onward b bs p (p.subscribe b (p.eventOf β.model name) (.following β name)).2 :=
    onward_subscribe p b _ rfl fun _ => ⟨β, name, rfl, rfl, hβ, hname, hel, d, hd, hbus, hno,
      eventOf_of_model? hd name⟩
  have hd₀ : (p.subscribe b (p.eventOf β.model name) (.following β name)).2.model? β.model
      = some d := (model?_subscribe ..).trans hd
  have hv : d.get? name = some (p.valueOf β.model name) := by
    obtain ⟨v, hv⟩ := Option.isSome_iff_exists.mp (hs.keys hd hno)
    have hget : d.get? name = some v := hv
    rw [valueOf_of_model? hd, hget]
    rfl
  have hs₀ := hs.onward ho₀
  have hann := hs₀.announces hd₀ hno hv (ho₀.held ▸ hheld)
  rw [← eventOf_of_model? hd, hbus] at hann
  obtain ⟨-, hpub⟩ := he.publish hs₀ hann hp
  refine ⟨ho₀.trans hpub.onward, hpub.onward.subscribed hsub₀, fun hall hrel => ?_⟩
  exact hpub.called rfl β hβ (hsub₀.of_names hd₀ hall) d name hd₀ hname hno
    (eventOf_of_model? hd name).symm hrel

/-- The slots that are left of a text.  `names` have their listeners. -/
theorem onward_bindSlots (he : Steady b isChange bs engine) (hg : Below engine other)
    (hs : Sound b isChange bs p) (hβ : β ∈ bs) (hheld : .model β.model ∈ p.held)
    (hel : ∃ d, p.element? β.element = some d) (hset : q.Settled β.model β.template)
    {names rest : List String} (hsub : p.Subscribed b names β)
    (hrest : ∀ n ∈ rest, n ∈ Template.names β.template)
    (hall : ∀ n ∈ Template.names β.template, n ∈ names ∨ n ∈ rest) {bound : Bool}
    (h : engine.bindSlots b β.model β.element β.template (Template.names β.template) rest p
      = some (.ok bound, q)) :
    Onward b bs p q ∧ q.Registered b β ∧
      ((∃ n ∈ rest, p.hasKey β.model n = true) → q.Relevant β → q.InSync β) := by
  induction rest generalizing p names bound with
  | nil =>
    cases h
    refine ⟨Onward.refl b bs _, ?_, fun hk => ?_⟩
    · obtain ⟨d, hd, -⟩ := hs.models β hβ
      exact hsub.of_names hd fun n hn _ => (hall n hn).resolve_right List.not_mem_nil
    · obtain ⟨n, hn, -⟩ := hk
      exact absurd hn List.not_mem_nil
  | cons name rest ih =>
    have hname := hrest name List.mem_cons_self
    have hrest' : ∀ n ∈ rest, n ∈ Template.names β.template :=
      fun n hn => hrest n (List.mem_cons_of_mem name hn)
    have hall' : ∀ n ∈ Template.names β.template, n ∈ name :: names ∨ n ∈ rest := by
      intro n hn
      rcases hall n hn with hn | hn
      · exact Or.inl (List.mem_cons_of_mem name hn)
      · rcases List.mem_cons.mp hn with rfl | hn
        · exact Or.inl List.mem_cons_self
        · exact Or.inr hn
    obtain ⟨d, hd, -⟩ := hs.models β hβ
    by_cases hk : d.contains name = true
    · -- until the end, a key in the template is one that announces its writes
      have hno : name ∈ d.observed := by
        have hsettled := hset.of_grown
          (below_bindSlots hg b β.model β.element β.template _ _ p _ q h).2
        rcases hsettled d hd name hname with ho | hc
        · exact ho
        · rw [hk] at hc
          cases hc
      obtain ⟨-, p₁, bound', hp, h⟩ := bindSlots_cons_eq_some ((hasKey_of_model? hd name).trans hk) h
      obtain ⟨ho₁, hsub₁, hin₁⟩ := onward_joinSlot he hs hβ hheld hel hd hsub hname hno hp
      have hel₁ : ∃ d, p₁.element? β.element = some d := by
        obtain ⟨el, hel⟩ := hel
        exact exists_element_of_size ho₁.shrinks.size hel
      obtain ⟨ho, hreg, hsync⟩ := ih (hs.onward ho₁) (ho₁.held ▸ hheld) hel₁ hsub₁ hrest' hall' h
      refine ⟨ho₁.trans ho, hreg, fun _ hrel => ?_⟩
      by_cases hmore : ∃ n ∈ rest, p₁.hasKey β.model n = true
      · exact hsync hmore hrel
      · -- the last key: every name that announces its writes has its listener by now
        obtain ⟨d₁, hd₁, hext⟩ := ho₁.grown β.model d hd
        have hlast : ∀ n ∈ Template.names β.template, n ∈ d.observed → n ∈ name :: names := by
          intro n hn ho
          rcases hall' n hn with hn | hn
          · exact hn
          · have hk₁ := hext.keys n (hs.keys hd ho)
            exact absurd ⟨n, hn, (hasKey_of_model? hd₁ n).trans hk₁⟩ hmore
        have hreg₁ : p₁.Registered b β :=
          hsub₁.of_names hd₁ fun n hn ho => hlast n hn (hext.observed ▸ ho)
        exact ho.synced β hβ hreg₁ hrel (hin₁ hlast (ho.relevant hrel))
    · have hkey : p.hasKey β.model name = false := by
        rw [hasKey_of_model? hd]
        exact Bool.not_eq_true _ ▸ hk
      rw [bindSlots_cons_of_not_key hkey] at h
      have hsub' : p.Subscribed b (name :: names) β := by
        refine hsub.of_names hd fun n hn ho => ?_
        rcases List.mem_cons.mp hn with rfl | hn
        · exact absurd (hs.keys hd ho) hk
        · exact hn
      obtain ⟨ho, hreg, hsync⟩ := ih hs hheld hel hsub' hrest' hall' h
      refine ⟨ho, hreg, fun hex => hsync ?_⟩
      obtain ⟨n, hn, hnk⟩ := hex
      rcases List.mem_cons.mp hn with rfl | hn
      · rw [hkey] at hnk
        cases hnk
      · exact ⟨n, hn, hnk⟩

theorem onward_bindText (he : Steady b isChange bs engine) (hg : Below engine other)
    (hs : Sound b isChange bs p) (hβ : β ∈ bs) (hheld : .model β.model ∈ p.held)
    (htext : p.textContent β.element = β.template) (hel : ∃ d, p.element? β.element = some d)
    (hset : q.Settled β.model β.template) {text : Option Target}
    (h : engine.bindText b β.model β.element p = some (.ok text, q)) :
    Onward b bs p q ∧ q.Registered b β ∧ (q.Relevant β → q.InSync β) := by
  obtain ⟨bound, hslots, -⟩ := bindText_eq_some h
  rw [htext] at hslots
  obtain ⟨r, hr⟩ := hs.bus
  obtain ⟨d, hd, -⟩ := hs.models β hβ
  have hnone : p.Subscribed b [] β := ⟨r, d, hr, hd, fun n hn => absurd hn List.not_mem_nil⟩
  obtain ⟨ho, hreg, hsync⟩ := onward_bindSlots he hg hs hβ hheld hel hset hnone (fun _ hn => hn)
    (fun _ hn => Or.inr hn) hslots
  refine ⟨ho, hreg, fun hrel => ?_⟩
  by_cases hex : ∃ n ∈ Template.names β.template, p.hasKey β.model n = true
  · exact hsync hex hrel
  · have hkeys : ∀ n ∈ Template.names β.template, d.contains n = false := by
      intro n hn
      rw [← hasKey_of_model? hd]
      exact Bool.not_eq_true _ ▸ fun hk => hex ⟨n, hn, hk⟩
    have hreg₀ : p.Registered b β := by
      refine hnone.of_names hd fun n hn ho => ?_
      have hk := hs.keys hd ho
      rw [hkeys n hn] at hk
      cases hk
    refine ho.synced β hβ hreg₀ hrel ?_
    unfold InSync
    rw [htext, Template.fill_of_none fun n hn => ?_]
    rw [lookup_of_model? hd]
    have hn := hkeys n hn
    rw [Model.contains_eq, Option.isSome_eq_false_iff] at hn
    exact Option.isNone_iff_eq_none.mp hn

theorem below_bindElement (h : Below engine other) (b : BusId) (m : ModelId) (e : ElementId) :
    (engine.bindElement b m e).Below (other.bindElement b m e) := by
  apply Run.Below.holding
  apply Run.Below.holding
  apply (below_bindText h b m e).bind
  intro outcome
  cases outcome with
  | ok text =>
    intro p a q hr
    have hattrs : Onward b [] p (p.bindAttributes b m e (p.attributesOf e).entries).2 :=
      onward_bindAttributes ..
    have hq : (p.bindAttributes b m e (p.attributesOf e).entries).2 = q :=
      congrArg Prod.snd (Option.some.inj hr)
    exact ⟨hr, hq ▸ hattrs.grown⟩
  | error failure => exact Run.Below.pure _

theorem onward_bindElement (he : Steady b isChange bs engine) (hg : Below engine other)
    (hs : Sound b isChange bs p) (hβ : β ∈ bs) (htext : p.textContent β.element = β.template)
    (hel : ∃ d, p.element? β.element = some d) (hset : q.Settled β.model β.template)
    {targets : List Target}
    (h : engine.bindElement b β.model β.element p = some (.ok targets, q)) :
    Onward b bs p q ∧ q.Registered b β ∧ (q.Relevant β → q.InSync β) := by
  obtain ⟨text, p₁, htarget, -, rfl⟩ := bindElement_eq_some h
  have hattrs : Onward b bs p₁
      (p₁.bindAttributes b β.model β.element (p₁.attributesOf β.element).entries).2 :=
    onward_bindAttributes ..
  generalize (p₁.bindAttributes b β.model β.element (p₁.attributesOf β.element).entries).2 = p₂
    at hattrs hset
  have hset₂ : p₂.Settled β.model β.template := hset
  have htext₀ : ((p.hold (.element β.element)).hold (.model β.model)).textContent β.element
      = β.template := by
    rw [textContent_hold, textContent_hold, htext]
  have hs₀ : Sound b isChange bs ((p.hold (.element β.element)).hold (.model β.model)) :=
    hs.of_same rfl rfl rfl
  obtain ⟨ho, hreg, hsync⟩ := onward_bindText he hg hs₀ hβ List.mem_cons_self htext₀ hel
    (hset₂.of_grown hattrs.grown) htarget
  refine ⟨(ho.trans hattrs).holding.holding, hattrs.registered hreg, fun hrel => ?_⟩
  have hrel₂ : p₂.Relevant β := relevant_of_release (relevant_of_release hrel)
  have hin := hattrs.synced β hβ hreg hrel₂ (hsync (hattrs.relevant hrel₂))
  exact hin.of_same rfl rfl

end Engine

end Bindery
