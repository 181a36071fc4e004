import Bindery.Proofs.Bus.Channels
import Bindery.Proofs.Engine.Strict
import Bindery.Proofs.Page.Content

/-!
# Texts in sync

The text of a bound element is in sync if it is the template filled with the values of now.  While
values are written and announced, code that is called may write again, so a text is not in sync at
every moment.  `Onward` collects what holds from the beginning of any call to its end, however much is
called in between: nothing is taken away, what is in flight stays in flight, the values in flight stay
what they are, and a text in sync is in sync again.

* `Binding`, `Page.InSync`   a bound text, and that it shows the values of now
* `Page.Relevant`            the bound texts of which something is said
* `Page.Sound`               listeners of texts belong to bindings
* `Page.Onward`              from the beginning of a call to its end
-/

namespace Bindery

structure Binding where
  element : ElementId
  model : ModelId
  template : String

/-! ## Registries that grow -/

namespace Registry

variable {L : Type} {r s t : Registry L}

/-- No listener was taken away, and the same events are in flight. -/
structure Kept (r s : Registry L) : Prop where
  inFlight : s.inFlight = r.inFlight
  channel : ∀ {event c}, r.channel? event = some c →
    ∃ c', s.channel? event = some c' ∧ c'.generation = c.generation ∧ c.slots <+: c'.slots

namespace Kept

theorem refl (r : Registry L) : Kept r r := ⟨rfl, fun h => ⟨_, h, rfl, List.prefix_rfl⟩⟩

theorem trans (h : Kept r s) (k : Kept s t) : Kept r t where
  inFlight := k.inFlight.trans h.inFlight
  channel hc := by
    obtain ⟨c₁, h₁, hg₁, hp₁⟩ := h.channel hc
    obtain ⟨c₂, h₂, hg₂, hp₂⟩ := k.channel h₁
    exact ⟨c₂, h₂, hg₂.trans hg₁, hp₁.trans hp₂⟩

theorem subscribe (r : Registry L) (event : String) (l : L) : Kept r (r.subscribe event l).2 where
  inFlight := inFlight_subscribe r event l
  channel {other c} hc := by
    rw [channel?_subscribe]
    by_cases h : event = other
    · subst h
      refine ⟨_, if_pos rfl, generationFor_of_some hc, ?_⟩
      rw [slotsOf_of_some hc]
      exact List.prefix_append _ _
    · exact ⟨c, (if_neg h).trans hc, rfl, List.prefix_rfl⟩

theorem heard (h : Kept r s) {event : String} {l : L} (hl : l ∈ r.heard event) :
    l ∈ s.heard event := by
  rw [mem_heard] at hl ⊢
  obtain ⟨c, hc⟩ := exists_channel_of_mem_slotsOf hl
  obtain ⟨c', hc', -, hp⟩ := h.channel hc
  rw [slotsOf_of_some hc] at hl
  rw [slotsOf_of_some hc']
  exact hp.subset hl

/-- A listener is still at its place. -/
theorem slot? (h : Kept r s) {event : String} {generation i : Nat} {l : L}
    (hl : r.slot? event generation i = some (some l)) :
    s.slot? event generation i = some (some l) := by
  cases hc : r.channel? event with
  | none =>
    rw [slot?_of_none hc] at hl
    cases hl
  | some c =>
    obtain ⟨c', hc', hg, hp⟩ := h.channel hc
    rw [slot?_of_some hc] at hl
    rw [slot?_of_some hc', hg]
    split at hl
    · rename_i hgen
      rw [if_pos hgen]
      rw [Option.some.injEq, Option.join_eq_some_iff] at hl
      obtain ⟨rest, hrest⟩ := hp
      rw [← hrest, List.getElem?_append_left (List.getElem?_eq_some_iff.mp hl).1, hl]
      rfl
    · cases hl

end Kept

end Registry

namespace Listener

variable {κ : Type}

def fillsText : Listener κ → Bool
  | text .. => true
  | _ => false

/-- The listener by which a binding follows one of its names. -/
def following (β : Binding) (name : String) : Listener κ :=
  .text (.weak β.element) (.weak β.model) β.template (Template.names β.template) name

end Listener

namespace Page

variable {κ σ : Type} {b : BusId} {bs : List Binding} {β : Binding} {p q s : Page κ σ}

def lookup (p : Page κ σ) (m : ModelId) (key : String) : Option Value := (p.model? m).bind (·.get? key)

theorem lookup_of_model? {m : ModelId} {d : Model} (hm : p.model? m = some d) (key : String) :
    p.lookup m key = d.get? key := by
  unfold lookup
  rw [hm]
  rfl

/-- The text is the template filled with the values of now. -/
def InSync (p : Page κ σ) (β : Binding) : Prop :=
  p.textContent β.element = Template.fill (p.lookup β.model) β.template

/-- Every name in the template announces its writes, or is no key at all. -/
def Settled (p : Page κ σ) (m : ModelId) (template : String) : Prop :=
  ∀ d, p.model? m = some d →
    ∀ n ∈ Template.names template, n ∈ d.observed ∨ d.contains n = false

instance (p : Page κ σ) (m : ModelId) (template : String) : Decidable (p.Settled m template) :=
  inferInstanceAs (Decidable (∀ d ∈ p.model? m, ∀ n ∈ Template.names template,
    n ∈ d.observed ∨ d.contains n = false))

theorem Settled.of_grown {m : ModelId} {template : String} (h : q.Settled m template)
    (hg : p.Grown q) : p.Settled m template := by
  intro d hd n hn
  obtain ⟨d', hd', he⟩ := hg m d hd
  rcases h d' hd' n hn with ho | hc
  · exact Or.inl (he.observed ▸ ho)
  · right
    cases hk : d.contains n with
    | false => rfl
    | true =>
      rw [he.keys n hk] at hc
      cases hc

/-- The binding is one of which something is said. -/
structure Relevant (p : Page κ σ) (β : Binding) : Prop where
  tidy : Template.Tidy β.template
  settled : p.Settled β.model β.template
  alive : p.elementAlive β.element = true

theorem Relevant.of_shrinks (h : q.Relevant β) (hg : p.Grown q) (hs : Shrinks p q) : p.Relevant β where
  tidy := h.tidy
  settled := h.settled.of_grown hg
  alive := elementAlive_of_shrinks hs h.alive

/-- There is a listener for each of these names that announces its writes. -/
def Subscribed (b : BusId) (names : List String) (p : Page κ σ) (β : Binding) : Prop :=
  ∃ r d, p.bus? b = some r ∧ p.model? β.model = some d ∧
    ∀ n ∈ names, n ∈ d.observed → Listener.following β n ∈ r.heard (d.event n)

/-- There is a listener for every name in the template that announces its writes. -/
def Registered (b : BusId) (p : Page κ σ) (β : Binding) : Prop :=
  Subscribed b (Template.names β.template) p β

theorem Registered.heard (h : p.Registered b β) {r : Registry (Listener κ)} (hb : p.bus? b = some r)
    {d : Model} (hd : p.model? β.model = some d) {n : String} (hn : n ∈ Template.names β.template)
    (ho : n ∈ d.observed) : Listener.following β n ∈ r.heard (d.event n) := by
  obtain ⟨r', d', hb', hd', hall⟩ := h
  cases hb.symm.trans hb'
  cases hd.symm.trans hd'
  exact hall n hn ho

/-- Where a listener of a text may stand. -/
structure Belongs (b : BusId) (bs : List Binding) (p : Page κ σ) (x : BusId) (event : String)
    (β : Binding) (name : String) : Prop where
  bus : x = b
  mem : β ∈ bs
  named : name ∈ Template.names β.template
  element : ∃ d, p.element? β.element = some d
  model : ∃ d, p.model? β.model = some d ∧ d.bus = b ∧ name ∈ d.observed ∧ event = d.event name

/-- A listener still stands where it may, if models have grown and elements are still there. -/
theorem Belongs.carry {x : BusId} {event name : String} (h : p.Belongs b bs x event β name)
    (hg : p.Grown q) (he : ∀ {e d}, p.element? e = some d → ∃ d', q.element? e = some d') :
    q.Belongs b bs x event β name where
  bus := h.bus
  mem := h.mem
  named := h.named
  element := by
    obtain ⟨d, hd⟩ := h.element
    exact he hd
  model := by
    obtain ⟨d, hd, hbus, ho, hev⟩ := h.model
    obtain ⟨d', hd', hext⟩ := hg β.model d hd
    exact ⟨d', hd', hext.bus.trans hbus, hext.observed ▸ ho, hev.trans (hext.event name).symm⟩

theorem Belongs.of_same {x : BusId} {event name : String} (h : p.Belongs b bs x event β name)
    (hm : q.models = p.models) (he : q.elements = p.elements) : q.Belongs b bs x event β name := by
  refine h.carry (Grown.of_models hm) fun {e d} hd => ⟨d, ?_⟩
  unfold element? at hd ⊢
  rw [he]
  exact hd

/-! ## Onward -/

/-- What holds from the beginning of a call to its end. -/
structure Onward (b : BusId) (bs : List Binding) (p q : Page κ σ) : Prop where
  grown : p.Grown q
  noModel : ∀ {m}, p.model? m = none → q.model? m = none
  bus : ∀ {x r}, p.bus? x = some r → ∃ r', q.bus? x = some r' ∧ r.Kept r'
  /-- listeners of texts were added for bindings only -/
  texts : ∀ {x r' event l}, q.bus? x = some r' → l ∈ r'.heard event → l.fillsText = true →
    (∃ r, p.bus? x = some r ∧ l ∈ r.heard event) ∨
      ∃ β name, l = .following β name ∧ q.Belongs b bs x event β name
  held : q.held = p.held
  shrinks : Shrinks p q
  plain : p.isPlain = true → q.isPlain = true
  /-- a value in flight stays what it is -/
  frozen : ∀ {r m d k}, p.bus? b = some r → p.model? m = some d → d.bus = b → k ∈ d.observed →
    d.event k ∈ r.inFlight → q.lookup m k = p.lookup m k
  synced : ∀ β ∈ bs, p.Registered b β → q.Relevant β → p.InSync β → q.InSync β

namespace Onward

theorem model_back (h : Onward b bs p q) {m : ModelId} {d' : Model} (hm : q.model? m = some d') :
    ∃ d, p.model? m = some d ∧ d.Extends d' := by
  cases hp : p.model? m with
  | none =>
    rw [h.noModel hp] at hm
    cases hm
  | some d =>
    obtain ⟨d₁, hd₁, he⟩ := h.grown m d hp
    cases hd₁.symm.trans hm
    exact ⟨d, rfl, he⟩

theorem relevant (h : Onward b bs p q) (hr : q.Relevant β) : p.Relevant β :=
  hr.of_shrinks h.grown h.shrinks

theorem subscribed (h : Onward b bs p q) {names : List String} (hf : p.Subscribed b names β) :
    q.Subscribed b names β := by
  obtain ⟨r, d, hb, hm, hall⟩ := hf
  obtain ⟨r', hb', hk⟩ := h.bus hb
  obtain ⟨d', hm', he⟩ := h.grown β.model d hm
  refine ⟨r', d', hb', hm', fun n hn ho => ?_⟩
  rw [he.event]
  exact hk.heard (hall n hn (he.observed ▸ ho))

theorem registered (h : Onward b bs p q) (hr : p.Registered b β) : q.Registered b β := h.subscribed hr

theorem refl (b : BusId) (bs : List Binding) (p : Page κ σ) : Onward b bs p p where
  grown := Grown.refl p
  noModel h := h
  bus h := ⟨_, h, Registry.Kept.refl _⟩
  texts h hl _ := Or.inl ⟨_, h, hl⟩
  held := rfl
  shrinks := Shrinks.refl p
  plain h := h
  frozen _ _ _ _ _ := rfl
  synced _ _ _ _ h := h

theorem trans (h : Onward b bs p q) (k : Onward b bs q s) : Onward b bs p s where
  grown := h.grown.trans k.grown
  noModel hm := k.noModel (h.noModel hm)
  bus hb := by
    obtain ⟨r₁, h₁, k₁⟩ := h.bus hb
    obtain ⟨r₂, h₂, k₂⟩ := k.bus h₁
    exact ⟨r₂, h₂, k₁.trans k₂⟩
  texts hb hl ht := by
    rcases k.texts hb hl ht with ⟨r₁, h₁, hl₁⟩ | hnew
    · rcases h.texts h₁ hl₁ ht with hold | ⟨β, name, rfl, hβ⟩
      · exact Or.inl hold
      · exact Or.inr ⟨β, name, rfl, hβ.carry k.grown (exists_element_of_size k.shrinks.size)⟩
    · exact Or.inr hnew
  held := k.held.trans h.held
  shrinks := h.shrinks.trans k.shrinks
  plain hp := k.plain (h.plain hp)
  frozen hb hm hbus hk hf := by
    obtain ⟨r₁, hb₁, k₁⟩ := h.bus hb
    obtain ⟨d₁, hm₁, e₁⟩ := h.grown _ _ hm
    rw [← h.frozen hb hm hbus hk hf]
    refine k.frozen hb₁ hm₁ (e₁.bus.trans hbus) (e₁.observed ▸ hk) ?_
    rw [e₁.event, k₁.inFlight]
    exact hf
  synced β hβ hreg hrel hs :=
    k.synced β hβ (h.registered hreg) hrel (h.synced β hβ hreg (k.relevant hrel) hs)

theorem of_models (hm : q.models = p.models)
    (hb : ∀ {x r}, p.bus? x = some r → ∃ r', q.bus? x = some r' ∧ r.Kept r')
    (ht : ∀ {x r' event l}, q.bus? x = some r' → l ∈ r'.heard event → l.fillsText = true →
      (∃ r, p.bus? x = some r ∧ l ∈ r.heard event) ∨
        ∃ β name, l = .following β name ∧ q.Belongs b bs x event β name)
    (hh : q.held = p.held) (hs : Shrinks p q)
    (hsync : ∀ β ∈ bs, q.Relevant β → p.InSync β → q.InSync β) : Onward b bs p q := by
  have hmodel := model?_of_models hm
  exact
    { grown := Grown.of_models hm
      noModel := fun h => (hmodel _).trans h
      bus := hb
      texts := ht
      held := hh
      shrinks := hs
      plain := fun h => by
        unfold isPlain
        rw [hm]
        exact h
      frozen := fun _ _ _ _ _ => by
        unfold lookup
        rw [hmodel]
      synced := fun β hβ _ hrel hp => hsync β hβ hrel hp }

theorem of_elements (hq : q = { p with elements := q.elements }) (hs : Shrinks p q)
    (hsync : ∀ β ∈ bs, q.Relevant β → p.InSync β → q.InSync β) : Onward b bs p q := by
  have hbus : ∀ x, q.bus? x = p.bus? x := by
    intro x
    rw [hq]
    rfl
  refine of_models (by rw [hq]) (fun {x r} h => ⟨r, (hbus x).trans h, Registry.Kept.refl r⟩) ?_
    (by rw [hq]) hs hsync
  intro x r' event l hb hl _
  exact Or.inl ⟨r', (hbus x).symm.trans hb, hl⟩

end Onward

/-! ## What keeps texts as they are -/

theorem inSync_of_sameChildren (hm : q.models = p.models) (hsize : q.elements.size = p.elements.size)
    (h : ∀ c, SameChildren p q c) (hs : p.InSync β) : q.InSync β := by
  unfold InSync lookup model? at hs ⊢
  rw [textContent_of_sameChildren hsize h, hm]
  exact hs

theorem InSync.of_same (hs : p.InSync β) (hm : q.models = p.models) (he : q.elements = p.elements) :
    q.InSync β := by
  refine inSync_of_sameChildren hm (congrArg Array.size he) (fun c => ?_) hs
  unfold SameChildren element?
  rw [he]

theorem onward_modifyElement (p : Page κ σ) (e : ElementId) {f : PageElement κ → PageElement κ}
    (hf : ∀ d, (f d).children = d.children) : Onward b bs p (p.modifyElement e f) := by
  refine Onward.of_elements rfl (Shrinks.modifyElement p e fun d c hc => hf d ▸ hc) ?_
  intro β _ _ hs
  exact inSync_of_sameChildren (p := p) rfl (size_modifyElement ..)
    (sameChildren_modifyElement e hf) hs

theorem onward_host (p : Page κ σ) (f : σ → σ) : Onward b bs p { p with host := f p.host } := by
  refine Onward.of_models rfl (fun {x r} h => ⟨r, h, Registry.Kept.refl r⟩) ?_ rfl
    (SameLives.shrinks ⟨rfl, rfl, rfl, fun _ => rfl⟩) ?_
  · intro x r' event l hb hl _
    exact Or.inl ⟨r', hb, hl⟩
  · intro β _ _ hs
    exact hs.of_same rfl rfl

/-- A bus changed, and got listeners of texts for bindings only.  Those that are new captured nothing
strongly. -/
theorem onward_modifyBus {x : BusId} {r : Registry (Listener κ)} (hb : p.bus? x = some r)
    {r' : Registry (Listener κ)} (hk : r.Kept r')
    (hkeeps : ∀ l ∈ r'.listeners, l ∈ r.listeners ∨ l.keeps = [])
    (hl : ∀ event, ∀ l ∈ r'.heard event, l.fillsText = true →
      l ∈ r.heard event ∨ ∃ β name, l = .following β name ∧ p.Belongs b bs x event β name) :
    Onward b bs p (p.modifyBus x fun _ => r') := by
  have hnew : (p.modifyBus x fun _ => r').bus? x = some r' := bus?_modifyBus_self hb _
  have hshrinks : Shrinks p (p.modifyBus x fun _ => r') := .modifyBus fun s hs => by
    cases hb.symm.trans hs
    exact hkeeps
  refine Onward.of_models rfl ?_ ?_ rfl hshrinks ?_
  · intro y s hs
    by_cases hy : x = y
    · subst hy
      cases hb.symm.trans hs
      exact ⟨r', hnew, hk⟩
    · exact ⟨s, (bus?_modifyBus_of_ne hy _).trans hs, Registry.Kept.refl s⟩
  · intro y s event l hs hm ht
    by_cases hy : x = y
    · subst hy
      cases hnew.symm.trans hs
      rcases hl event l hm ht with hold | ⟨β, name, rfl, hβ⟩
      · exact Or.inl ⟨r, hb, hold⟩
      · exact Or.inr ⟨β, name, rfl, hβ.of_same rfl rfl⟩
    · exact Or.inl ⟨s, (bus?_modifyBus_of_ne hy _).symm.trans hs, hm⟩
  · intro β _ _ hs
    exact hs.of_same rfl rfl

theorem onward_subscribe (p : Page κ σ) (x : BusId) (event : String) {l : Listener κ}
    (hkeeps : l.keeps = [])
    (hl : l.fillsText = true → ∃ β name, l = .following β name ∧ p.Belongs b bs x event β name) :
    Onward b bs p (p.subscribe x event l).2 := by
  cases hb : p.bus? x with
  | none =>
    rw [subscribe_of_none hb]
    exact Onward.refl b bs p
  | some r =>
    rw [subscribe_of_some hb]
    refine onward_modifyBus hb (Registry.Kept.subscribe r event l) (fun k hk => ?_)
      fun other k hk ht => ?_
    · rcases Registry.mem_listeners_of_subscribe hk with hk | rfl
      · exact Or.inl hk
      · exact Or.inr hkeeps
    rw [Registry.heard_subscribe] at hk
    split at hk
    · rename_i hother
      rcases List.mem_append.mp hk with hk | hk
      · exact Or.inl hk
      · rw [List.mem_singleton.mp hk] at ht ⊢
        exact Or.inr (hother ▸ hl ht)
    · exact Or.inl hk

theorem relevant_of_release {h : Handle} (hr : (q.release h).Relevant β) : q.Relevant β :=
  hr.of_shrinks (Grown.of_models rfl) (Shrinks.release q h)

theorem Onward.holding {h : Handle} (ho : Onward b bs (p.hold h) q) : Onward b bs p (q.release h) := by
  have hheld : (q.release h).held = p.held := by
    show q.held.erase h = _
    rw [ho.held]
    exact List.erase_cons_head ..
  exact
    { grown := ho.grown
      noModel := ho.noModel
      bus := ho.bus
      texts := fun hx hl ht => by
        rcases ho.texts hx hl ht with hold | ⟨β, name, rfl, hβ⟩
        · exact Or.inl hold
        · exact Or.inr ⟨β, name, rfl, hβ.of_same rfl rfl⟩
      held := hheld
      shrinks := { ho.shrinks with held := fun hm => hheld ▸ hm }
      plain := ho.plain
      frozen := ho.frozen
      synced := fun β hβ hreg hr hs => by
        have hp : (p.hold h).InSync β := hs.of_same rfl rfl
        exact (ho.synced β hβ hreg (relevant_of_release hr) hp).of_same rfl rfl }

/-! ## Pages on which texts are bound -/

structure Sound (b : BusId) (isChange : String → Prop) (bs : List Binding) (p : Page κ σ) : Prop where
  bus : ∃ r, p.bus? b = some r
  texts : ∀ {x r event l}, p.bus? x = some r → l ∈ r.heard event → l.fillsText = true →
    ∃ β name, l = Listener.following β name ∧ p.Belongs b bs x event β name
  /-- what is in flight has a channel -/
  inFlight : ∀ {r event}, p.bus? b = some r → event ∈ r.inFlight → ∃ c, r.channel? event = some c
  changes : ∀ {m d k}, p.model? m = some d → d.bus = b → k ∈ d.observed → isChange (d.event k)
  distinct : ∀ {m d m' d' k k'}, p.model? m = some d → p.model? m' = some d' → d.bus = b →
    d'.bus = b → k ∈ d.observed → k' ∈ d'.observed → d.event k = d'.event k' → m = m'
  keys : ∀ {m d k}, p.model? m = some d → k ∈ d.observed → d.contains k = true
  apart : ∀ β ∈ bs, ∀ γ ∈ bs, β = γ ∨ β.element ≠ γ.element ∧ ¬ p.Inside β.element γ.element
  models : ∀ β ∈ bs, ∃ d, p.model? β.model = some d ∧ d.bus = b

namespace Sound

variable {isChange : String → Prop}

/-- What a page on which texts are bound needs from one that was. -/
theorem carry (hs : Sound b isChange bs p)
    (hgrown : p.Grown q)
    (hback : ∀ {m d'}, q.model? m = some d' → ∃ d, p.model? m = some d ∧ d.Extends d')
    (hbus : ∃ r, q.bus? b = some r ∧ ∀ event ∈ r.inFlight, ∃ c, r.channel? event = some c)
    (htexts : ∀ {x r' event l}, q.bus? x = some r' → l ∈ r'.heard event → l.fillsText = true →
      (∃ r, p.bus? x = some r ∧ l ∈ r.heard event) ∨
        ∃ β name, l = .following β name ∧ q.Belongs b bs x event β name)
    (helement : ∀ {e d}, p.element? e = some d → ∃ d', q.element? e = some d')
    (hinside : ∀ {e c}, q.Inside e c → p.Inside e c) : Sound b isChange bs q where
  bus := by
    obtain ⟨r, hr, -⟩ := hbus
    exact ⟨r, hr⟩
  texts hb hl ht := by
    rcases htexts hb hl ht with ⟨r, hr, hl⟩ | hnew
    · obtain ⟨β, name, rfl, hβ⟩ := hs.texts hr hl ht
      exact ⟨β, name, rfl, hβ.carry hgrown helement⟩
    · exact hnew
  inFlight hb hf := by
    obtain ⟨r, hr, hall⟩ := hbus
    cases hb.symm.trans hr
    exact hall _ hf
  changes hm hbus hk := by
    obtain ⟨d, hd, he⟩ := hback hm
    rw [he.event]
    exact hs.changes hd (he.bus.symm.trans hbus) (he.observed ▸ hk)
  distinct hm hm' hbus hbus' hk hk' heq := by
    obtain ⟨d, hd, he⟩ := hback hm
    obtain ⟨d', hd', he'⟩ := hback hm'
    rw [he.event, he'.event] at heq
    exact hs.distinct hd hd' (he.bus.symm.trans hbus) (he'.bus.symm.trans hbus') (he.observed ▸ hk)
      (he'.observed ▸ hk') heq
  keys hm hk := by
    obtain ⟨d, hd, he⟩ := hback hm
    exact he.keys _ (hs.keys hd (he.observed ▸ hk))
  apart β hβ γ hγ := by
    rcases hs.apart β hβ γ hγ with he | ⟨hne, hin⟩
    · exact Or.inl he
    · exact Or.inr ⟨hne, fun hi => hin (hinside hi)⟩
  models β hβ := by
    obtain ⟨d, hd, hbus⟩ := hs.models β hβ
    obtain ⟨d', hd', he⟩ := hgrown _ d hd
    exact ⟨d', hd', he.bus.trans hbus⟩

theorem onward (hs : Sound b isChange bs p) (h : Onward b bs p q) : Sound b isChange bs q := by
  refine hs.carry h.grown h.model_back ?_ h.texts (exists_element_of_size h.shrinks.size)
    (·.of_shrinks h.shrinks)
  obtain ⟨r, hr⟩ := hs.bus
  obtain ⟨r', hr', hk⟩ := h.bus hr
  refine ⟨r', hr', fun event hf => ?_⟩
  rw [hk.inFlight] at hf
  obtain ⟨c, hc⟩ := hs.inFlight hr hf
  obtain ⟨c', hc', -⟩ := hk.channel hc
  exact ⟨c', hc'⟩

theorem of_same (hs : Sound b isChange bs p) (hm : q.models = p.models) (hb : q.buses = p.buses)
    (he : q.elements = p.elements) : Sound b isChange bs q := by
  have hbus := bus?_of_buses hb
  refine hs.carry (Grown.of_models hm) (fun {m d} hd => ⟨d, ?_, Model.Extends.refl d⟩) ?_
    (fun {x r event l} hr hl _ => Or.inl ⟨r, (hbus x).symm.trans hr, hl⟩)
    (exists_element_of_size (congrArg Array.size he)) (Inside.of_elements he)
  · exact (model?_of_models hm m).symm.trans hd
  · obtain ⟨r, hr⟩ := hs.bus
    exact ⟨r, (hbus b).trans hr, fun event hf => hs.inFlight hr hf⟩

theorem enter (hs : Sound b isChange bs p) {x : BusId} {r : Registry (Listener κ)} {event : String}
    {c : Channel (Listener κ)} (hb : p.bus? x = some r) (hc : r.channel? event = some c) :
    Sound b isChange bs
      (p.modifyBus x fun _ => { r with inFlight := r.inFlight ++ [event] }) := by
  have hnew : (p.modifyBus x fun _ => { r with inFlight := r.inFlight ++ [event] }).bus? x = _ :=
    bus?_modifyBus_self hb _
  refine hs.carry (Grown.of_models rfl) (fun hm => ⟨_, hm, Model.Extends.refl _⟩) ?_ ?_
    (fun hd => ⟨_, hd⟩) (Inside.of_elements (p := p) (q := p.modifyBus x _) rfl)
  · obtain ⟨s, hs'⟩ := hs.bus
    by_cases hx : x = b
    · subst hx
      refine ⟨_, hnew, fun other ho => ?_⟩
      rcases List.mem_append.mp ho with ho | ho
      · obtain ⟨c', hc'⟩ := hs.inFlight hb ho
        exact ⟨c', hc'⟩
      · rw [List.mem_singleton.mp ho]
        exact ⟨c, hc⟩
    · exact ⟨s, (bus?_modifyBus_of_ne hx _).trans hs', fun other ho => hs.inFlight hs' ho⟩
  · intro y s other l hy hl _
    by_cases hx : x = y
    · subst hx
      cases hnew.symm.trans hy
      exact Or.inl ⟨r, hb, hl⟩
    · exact Or.inl ⟨s, (bus?_modifyBus_of_ne hx _).symm.trans hy, hl⟩

end Sound

end Page

end Bindery
