import Bindery.Proofs.Binding.Tying
import Bindery.Proofs.Binding.WriteBack
import Bindery.Proofs.Markup.Names

/-!
# Pages on which elements were bound

Elements are bound to models, one after the other, on a bus on which nobody else listens.  In between
whatever may happen that leaves the bindings alone.  Who listens on the bus is then known, and so are
the handlers of a control that was bound.

* `Bond`                  an element as it was bound
* `Page.Gains`            what binding an element adds to a page
* `Page.Leaves`           what leaves bindings alone
* `Bonded`                pages on which elements were bound
* `bears_of_bonded`       who listens on them
-/

namespace Bindery

variable {κ σ : Type}

/-- An element that was bound to a model, both as they were. -/
structure Bond (κ : Type) where
  model : ModelId
  data : Model
  element : ElementId
  before : PageElement κ
  text : String
  /-- it had each attribute once, with the name in lower case -/
  sound : before.attributes.Sound
  /-- what announces its writes was a key -/
  known : ∀ k ∈ data.observed, data.contains k = true

namespace Bond

def slots (β : Bond κ) : List (String × String) := β.data.slots β.before.attributes.entries

/-- The listener by which the text follows a key. -/
def following (β : Bond κ) (key : String) : Listener κ :=
  .text (.weak β.element) (.weak β.model) β.text (Template.names β.text) key

def listeners (β : Bond κ) : List (String × Listener κ) :=
  (β.data.keysIn β.text).map (fun k => (β.data.event k, β.following k)) ++
    β.slots.map fun s => (β.data.event s.2, .property (.weak β.element) s.1)

def KeepsType (β : Bond κ) : Prop :=
  ∀ a ∈ β.before.attributes.entries, Text.lower a.1 = "type" → β.data.keysIn a.2 = []

def handlers (β : Bond κ) : List (EventKind × Handler κ) :=
  β.before.handlers ++
    writeBacks β.model (Control.classify β.before.tag β.before.attributes) β.slots

theorem isBinding_of_mem {β : Bond κ} {x : String × Listener κ} (h : x ∈ β.listeners) :
    x.2.isBinding = true := by
  rcases List.mem_append.mp h with h | h
  · obtain ⟨k, -, rfl⟩ := List.mem_map.mp h
    rfl
  · obtain ⟨s, -, rfl⟩ := List.mem_map.mp h
    rfl

theorem element_of_mem {β : Bond κ} {x : String × Listener κ} (h : x ∈ β.listeners) :
    x.2.element? = some β.element := by
  rcases List.mem_append.mp h with h | h
  · obtain ⟨k, -, rfl⟩ := List.mem_map.mp h
    rfl
  · obtain ⟨s, -, rfl⟩ := List.mem_map.mp h
    rfl

theorem text_mem_listeners {β : Bond κ} {event : String} {x : Captured ElementId}
    {m : Captured ModelId} {template : String} {names : List String} {changed : String}
    (h : (event, .text x m template names changed) ∈ β.listeners) :
    .text x m template names changed = β.following changed ∧
      changed ∈ β.data.keysIn β.text ∧ event = β.data.event changed := by
  rcases List.mem_append.mp h with h | h
  · obtain ⟨k, hk, heq⟩ := List.mem_map.mp h
    cases heq
    exact ⟨rfl, hk, rfl⟩
  · obtain ⟨s, -, heq⟩ := List.mem_map.mp h
    cases heq

theorem property_mem_listeners {β : Bond κ} {event : String} {x : Captured ElementId}
    {name : String} (h : (event, .property x name) ∈ β.listeners) :
    x = .weak β.element ∧ ∃ key, (name, key) ∈ β.slots ∧ event = β.data.event key := by
  rcases List.mem_append.mp h with h | h
  · obtain ⟨k, -, heq⟩ := List.mem_map.mp h
    cases heq
  · obtain ⟨s, hs, heq⟩ := List.mem_map.mp h
    cases heq
    exact ⟨rfl, s.2, hs, rfl⟩

theorem following_mem_listeners {β : Bond κ} {key : String} (h : key ∈ β.data.keysIn β.text) :
    (β.data.event key, β.following key) ∈ β.listeners :=
  List.mem_append_left _ (List.mem_map.mpr ⟨key, h, rfl⟩)

/-- A name in the text that announces its writes was a key. -/
theorem mem_keysIn_of_observed {β : Bond κ} {key : String} (h : key ∈ Template.names β.text)
    (hobserved : key ∈ β.data.observed) : key ∈ β.data.keysIn β.text :=
  Model.mem_keysIn.mpr ⟨h, β.known key hobserved⟩

theorem lower_of_mem_slots {β : Bond κ} {attr key : String} (h : (attr, key) ∈ β.slots) :
    Text.lower attr = attr := by
  obtain ⟨t, ht, -⟩ := Model.mem_slots.mp h
  exact β.sound.lower attr (List.mem_map.mpr ⟨_, ht, rfl⟩)

end Bond

/-- Those listen on the bus that were bound, and nobody else. -/
def Registry.Hears (r : Registry (Listener κ)) (bonds : List (Bond κ)) : Prop :=
  ∀ event l, l ∈ r.heard event ↔ ∃ β ∈ bonds, (event, l) ∈ β.listeners

namespace Page

variable {b : BusId} {β : Bond κ} {bonds : List (Bond κ)} {p q : Page κ σ}

/-! ## Binding one element -/

/-- From `p` to `q` an element was bound. -/
structure Gains (b : BusId) (β : Bond κ) (p q : Page κ σ) : Prop where
  models : q.models = p.models
  registry : ∀ r, p.bus? b = some r → q.bus? b = some (r.addAll β.listeners)
  element : ∃ d, q.element? β.element = some d
  handlers : β.KeepsType → ∀ d, q.element? β.element = some d → d.handlers = β.handlers
  others : ∀ {x d}, x ≠ β.element → p.element? x = some d →
    ∃ d', q.element? x = some d' ∧ d'.handlers = d.handlers

/-- The page on which an element is bound, which no listener writes yet. -/
structure Fits (p : Page κ σ) (β : Bond κ) : Prop where
  model : p.model? β.model = some β.data
  element : p.element? β.element = some β.before
  text : p.textContent β.element = β.text

theorem gains_of_bindElement {callbacks : Callbacks κ σ} {engine : Engine κ σ}
    (he : engine.Publishes callbacks) {r : Registry (Listener κ)} (hr : p.bus? b = some r)
    (hq : r.Quiet) (hfits : p.Fits β)
    (hnone : ∀ event, ∀ l ∈ r.heard event, l.propertyOn β.element = none) {targets : List Target}
    (h : engine.bindElement b β.model β.element p = some (.ok targets, q)) : p.Gains b β q := by
  obtain ⟨p₁, p₂, d₁, hs, hrep, ⟨hd₁, -, hhandlers⟩, hwired, hhs, rfl⟩ := stages_of_bindElement he hr hq
    hfits.model hfits.element hnone hfits.text h
  have hd₂ := hwired.element d₁ hd₁
  refine ⟨?_, fun r' hr' => ?_, ⟨_, hd₂⟩, fun htype d hd => ?_, fun {x d} hx hd => ?_⟩
  · show p₂.models = _
    rw [hwired.rest]
    show p₁.models = _
    rw [hrep.rest]
    rfl
  · cases hr.symm.trans hr'
    refine (hwired.registry _ (hrep.registry r hr)).trans ?_
    rw [← Registry.addAll_append]
    rfl
  · cases hd₂.symm.trans hd
    show d₁.handlers ++ hs = _
    rw [hhandlers, hhs htype]
    rfl
  · obtain ⟨d', hd', -, hh, -⟩ := hrep.element r x d hr hd
    exact ⟨d', (hwired.elements x hx).trans hd', hh⟩

/-! ## One after the other -/

/-- From `p` to `q` the listeners of the bus stay, and so do handlers, and the keys of models that
announce their writes. -/
structure Leaves (b : BusId) (p q : Page κ σ) : Prop where
  bus : ∀ {r}, p.bus? b = some r → ∃ r', q.bus? b = some r' ∧ r'.inFlight = r.inFlight ∧
    r'.maxDepth = r.maxDepth ∧ ∀ event, r'.heard event = r.heard event
  model : ∀ {m d}, p.model? m = some d → ∃ d', q.model? m = some d' ∧ d'.bus = d.bus ∧
    d'.name = d.name ∧ d'.observed = d.observed
  element : ∀ {x d}, p.element? x = some d → ∃ d', q.element? x = some d' ∧ d'.handlers = d.handlers

/-- A page on which elements were bound, and nobody else listens on the bus. -/
structure Bears (b : BusId) (bonds : List (Bond κ)) (p : Page κ σ) : Prop where
  registry : ∃ r, p.bus? b = some r ∧ r.Calm ∧ r.Hears bonds
  model : ∀ β ∈ bonds, ∃ d, p.model? β.model = some d ∧ d.bus = β.data.bus ∧
    d.name = β.data.name ∧ d.observed = β.data.observed
  element : ∀ β ∈ bonds, ∃ d, p.element? β.element = some d
  handlers : ∀ β ∈ bonds, β.KeepsType → ∀ d, p.element? β.element = some d → d.handlers = β.handlers
  once : ∀ β ∈ bonds, ∀ γ ∈ bonds, β.element = γ.element → β = γ

theorem Bears.leaves (h : p.Bears b bonds) (hl : p.Leaves b q) : q.Bears b bonds where
  registry := by
    obtain ⟨r, hr, hcalm, hheard⟩ := h.registry
    obtain ⟨r', hr', hflight, hdepth, hsame⟩ := hl.bus hr
    refine ⟨r', hr', ⟨fun event l hm => ?_, hflight.trans hcalm.idle, hdepth ▸ hcalm.room⟩,
      fun event l => ?_⟩
    · exact hcalm.quiet event l (hsame event ▸ hm)
    · rw [hsame]
      exact hheard event l
  model β hβ := by
    obtain ⟨d, hd, hbus, hname, hobserved⟩ := h.model β hβ
    obtain ⟨d', hd', hbus', hname', hobserved'⟩ := hl.model hd
    exact ⟨d', hd', hbus'.trans hbus, hname'.trans hname, hobserved'.trans hobserved⟩
  element β hβ := by
    obtain ⟨d, hd⟩ := h.element β hβ
    obtain ⟨d', hd', -⟩ := hl.element hd
    exact ⟨d', hd'⟩
  handlers β hβ htype d' hd' := by
    obtain ⟨d, hd⟩ := h.element β hβ
    obtain ⟨d'', hd'', hh⟩ := hl.element hd
    cases hd''.symm.trans hd'
    exact hh.trans (h.handlers β hβ htype d hd)
  once := h.once

theorem Bears.binds {callbacks : Callbacks κ σ} {frames : Nat} (h : p.Bears b bonds)
    (hfits : p.Fits β) (hfresh : ∀ γ ∈ bonds, γ.element ≠ β.element) {targets : List Target}
    (hrun : (Engine.ofFrames callbacks frames).bindElement b β.model β.element p
      = some (.ok targets, q)) : p.Gains b β q := by
  obtain ⟨r, hr, hcalm, hheard⟩ := h.registry
  refine gains_of_bindElement (Engine.publishes_ofFrames callbacks frames) hr hcalm.quiet hfits
    (fun event l hl => ?_) hrun
  obtain ⟨γ, hγ, hl⟩ := (hheard event l).mp hl
  have helement : l.element? = some γ.element := Bond.element_of_mem hl
  cases l with
  | property x name =>
    have hx : x.target = γ.element := Option.some.inj helement
    exact if_neg (hx ▸ hfresh γ hγ)
  | text x m template names changed => rfl
  | callback code => rfl

theorem Bears.gains (h : p.Bears b bonds) (hg : p.Gains b β q) (hfits : p.Fits β)
    (hfresh : ∀ γ ∈ bonds, γ.element ≠ β.element) : q.Bears b (β :: bonds) where
  registry := by
    obtain ⟨r, hr, hcalm, hheard⟩ := h.registry
    refine ⟨_, hg.registry r hr, hcalm.addAll fun x hx => Bond.isBinding_of_mem hx,
      fun event l => ?_⟩
    have hcons : (∃ γ ∈ β :: bonds, (event, l) ∈ γ.listeners) ↔
        (event, l) ∈ β.listeners ∨ ∃ γ ∈ bonds, (event, l) ∈ γ.listeners := by simp
    rw [heard_addAll, List.mem_append, hheard, hcons, or_comm]
    refine or_congr_left ⟨fun hl => ?_, fun hl => ?_⟩
    · obtain ⟨⟨event', l'⟩, hx, rfl⟩ := List.mem_map.mp hl
      obtain ⟨hx, he⟩ := List.mem_filter.mp hx
      exact of_decide_eq_true he ▸ hx
    · exact List.mem_map.mpr ⟨(event, l), List.mem_filter.mpr ⟨hl, decide_eq_true rfl⟩, rfl⟩
  model γ hγ := by
    have hmodel : ∀ m, q.model? m = p.model? m := model?_of_models hg.models
    rw [hmodel]
    rcases List.mem_cons.mp hγ with rfl | hγ
    · exact ⟨_, hfits.model, rfl, rfl, rfl⟩
    · exact h.model γ hγ
  element γ hγ := by
    rcases List.mem_cons.mp hγ with rfl | hγ
    · exact hg.element
    · obtain ⟨d, hd⟩ := h.element γ hγ
      obtain ⟨d', hd', -⟩ := hg.others (hfresh γ hγ) hd
      exact ⟨d', hd'⟩
  handlers γ hγ htype d' hd' := by
    rcases List.mem_cons.mp hγ with rfl | hγ
    · exact hg.handlers htype d' hd'
    · obtain ⟨d, hd⟩ := h.element γ hγ
      obtain ⟨d'', hd'', hh⟩ := hg.others (hfresh γ hγ) hd
      cases hd''.symm.trans hd'
      exact hh.trans (h.handlers γ hγ htype d hd)
  once γ hγ δ hδ he := by
    rcases List.mem_cons.mp hγ with hγ | hγ <;> rcases List.mem_cons.mp hδ with hδ | hδ
    · rw [hγ, hδ]
    · exact absurd (hγ ▸ he.symm) (hfresh δ hδ)
    · exact absurd (hδ ▸ he) (hfresh γ hγ)
    · exact h.once γ hγ δ hδ he

end Page

open Page

/-- Pages on which elements were bound on a bus, each once. -/
inductive Bonded (callbacks : Callbacks κ σ) (b : BusId) (start : Page κ σ) :
    List (Bond κ) → Page κ σ → Prop where
  | start : Bonded callbacks b start [] start
  | bind {p q : Page κ σ} {bonds : List (Bond κ)} (β : Bond κ) (frames : Nat) {targets : List Target} :
      Bonded callbacks b start bonds p → p.Fits β → (∀ γ ∈ bonds, γ.element ≠ β.element) →
      (Engine.ofFrames callbacks frames).bindElement b β.model β.element p = some (.ok targets, q) →
      Bonded callbacks b start (β :: bonds) q
  | meanwhile {p q : Page κ σ} {bonds : List (Bond κ)} :
      Bonded callbacks b start bonds p → p.Leaves b q → Bonded callbacks b start bonds q

def Page.Fresh (b : BusId) (p : Page κ σ) : Prop :=
  ∃ r, p.bus? b = some r ∧ r.inFlight = [] ∧ 1 ≤ r.maxDepth ∧ ∀ event, r.heard event = []

theorem bears_of_bonded {callbacks : Callbacks κ σ} {b : BusId} {start p : Page κ σ}
    {bonds : List (Bond κ)} (hstart : start.Fresh b) (h : Bonded callbacks b start bonds p) :
    p.Bears b bonds := by
  induction h with
  | start =>
    obtain ⟨r, hr, hidle, hroom, hnone⟩ := hstart
    refine ⟨⟨r, hr, ⟨fun event l hl => ?_, hidle, hroom⟩, fun event l => ?_⟩,
      fun _ hβ => absurd hβ List.not_mem_nil, fun _ hβ => absurd hβ List.not_mem_nil,
      fun _ hβ => absurd hβ List.not_mem_nil, fun _ hβ => absurd hβ List.not_mem_nil⟩
    · rw [hnone] at hl
      cases hl
    · rw [hnone]
      exact ⟨fun hl => absurd hl List.not_mem_nil, fun ⟨_, hβ, _⟩ => absurd hβ List.not_mem_nil⟩
  | bind β frames _ hfits hfresh hrun ih => exact ih.gains (ih.binds hfits hfresh hrun) hfits hfresh
  | meanwhile _ hl ih => exact ih.leaves hl

end Bindery
