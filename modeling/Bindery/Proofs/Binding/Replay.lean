import Bindery.Proofs.Binding.Wiring
import Bindery.Proofs.Engine.Quiet
import Bindery.Proofs.Page.Content

/-!
# Binding on a quiet bus

Binding the text of an element replays the value of each key in it.  On a bus whose listeners were all
made by binding, a replay changes what these listeners show and calls nothing else.

* `bindSlots_cons_eq_some`, `bindElement_eq_some`   binding that ended well, part by part
* `Page.Replayed`                                   new text listeners, and the values announced
* `replayed_bindText`                               what binding a text does on a quiet bus
* `stages_of_bindText`, `stages_of_bindElement`     and then the attributes
-/

namespace Bindery

namespace Engine

variable {κ σ : Type} {callbacks : Callbacks κ σ} {engine : Engine κ σ} {bus : BusId} {m : ModelId}
  {e : ElementId} {p q : Page κ σ}

/-- What the engine publishes is published by `publishWith`. -/
def Publishes (callbacks : Callbacks κ σ) (engine : Engine κ σ) : Prop :=
  ∀ bus event value p a, engine.publish bus event value p = some a →
    ∃ inner, publishWith callbacks inner bus event value p = some a

theorem publishes_ofFrames (callbacks : Callbacks κ σ) (frames : Nat) :
    (ofFrames callbacks frames).Publishes callbacks := by
  intro bus event value p a h
  cases frames with
  | zero => cases h
  | succ frames => exact ⟨ofFrames callbacks frames, h⟩

/-! ## Part by part -/

section

variable {template name : String} {names r : List String}

theorem bindSlots_cons_of_not_key (hk : p.hasKey m name = false) :
    engine.bindSlots bus m e template names (name :: r) p
      = engine.bindSlots bus m e template names r p := by
  rw [bindSlots, Run.get_bind, hk]
  rfl

theorem bindSlots_cons_of_key (hk : p.hasKey m name = true) :
    engine.bindSlots bus m e template names (name :: r) p
      = (engine.publish bus (p.eventOf m name) (p.valueOf m name) >>= fun outcome =>
          match outcome with
          | .error failure => pure (.error failure)
          | .ok () => engine.bindSlots bus m e template names r >>= fun bound =>
            pure (bound.map fun _ => true) : Run κ σ (Except BusError Bool))
        (p.subscribe bus (p.eventOf m name) (.text (.weak e) (.weak m) template names name)).2 := by
  rw [bindSlots, Run.get_bind, hk]
  rfl

theorem bindSlots_cons_eq_some (hk : p.hasKey m name = true) {b : Bool}
    (h : engine.bindSlots bus m e template names (name :: r) p = some (.ok b, q)) :
    b = true ∧ ∃ p₁ b', engine.publish bus (p.eventOf m name) (p.valueOf m name)
        (p.subscribe bus (p.eventOf m name) (.text (.weak e) (.weak m) template names name)).2 = some (.ok (), p₁) ∧
      engine.bindSlots bus m e template names r p₁ = some (.ok b', q) := by
  rw [bindSlots_cons_of_key hk] at h
  obtain ⟨outcome, p₁, hp, h⟩ := Run.bind_eq_some.mp h
  cases outcome with
  | error failure => cases h
  | ok u =>
    obtain ⟨rest, q', hr, h⟩ := Run.bind_eq_some.mp h
    rw [Run.pure_apply, Option.some.injEq, Prod.mk.injEq] at h
    obtain ⟨h, rfl⟩ := h
    cases rest with
    | error failure => cases h
    | ok b' => exact ⟨(Except.ok.inj h).symm, p₁, b', hp, hr⟩

end

theorem bindText_eq (engine : Engine κ σ) (bus : BusId) (m : ModelId) (e : ElementId) (p : Page κ σ) :
    engine.bindText bus m e p
      = (engine.bindSlots bus m e (p.textContent e) (Template.names (p.textContent e))
          (Template.names (p.textContent e)) p).map fun a => (a.1.map fun b =>
            if b then some ⟨e, .text, p.textContent e, Template.names (p.textContent e)⟩ else none, a.2) := by
  rw [bindText, Run.get_bind]
  unfold Page.textOf?
  dsimp only
  by_cases ht : p.textContent e = ""
  · rw [if_pos ht, ht, Template.names_empty]
    rfl
  · rw [if_neg ht]
    dsimp only
    unfold Template.names?
    cases hn : Template.names (p.textContent e) with
    | nil => rfl
    | cons name r =>
      rw [Option.map_eq_bind]
      rfl

theorem bindText_eq_some {text : Option Target}
    (h : engine.bindText bus m e p = some (.ok text, q)) :
    ∃ b, engine.bindSlots bus m e (p.textContent e) (Template.names (p.textContent e))
        (Template.names (p.textContent e)) p = some (.ok b, q) ∧
      text = if b then some ⟨e, .text, p.textContent e, Template.names (p.textContent e)⟩ else none := by
  rw [bindText_eq] at h
  obtain ⟨⟨outcome, q'⟩, hs, heq⟩ := Option.map_eq_some_iff.mp h
  obtain ⟨htext, rfl⟩ := Prod.mk.inj heq
  cases outcome with
  | error failure => cases htext
  | ok b => exact ⟨b, hs, (Except.ok.inj htext).symm⟩

/-- Binding an element is binding its text and then the attributes that it has by then. -/
theorem bindElement_eq_some {targets : List Target}
    (h : engine.bindElement bus m e p = some (.ok targets, q)) :
    ∃ text p₁, engine.bindText bus m e ((p.hold (.element e)).hold (.model m)) = some (.ok text, p₁) ∧
      targets = text.toList ++ (p₁.bindAttributes bus m e (p₁.attributesOf e).entries).1 ∧
      q = ((p₁.bindAttributes bus m e (p₁.attributesOf e).entries).2.release (.model m)).release
        (.element e) := by
  unfold bindElement at h
  obtain ⟨q₁, h₁, rfl⟩ := Run.holding_eq_some.mp h
  obtain ⟨q₂, h₂, rfl⟩ := Run.holding_eq_some.mp h₁
  obtain ⟨outcome, p₁, ht, h₃⟩ := Run.bind_eq_some.mp h₂
  cases outcome with
  | error failure => cases h₃
  | ok text =>
    cases h₃
    exact ⟨text, p₁, ht, rfl, rfl⟩

end Engine

/-! ## On a quiet bus -/

/-- The attributes of an element after values were announced to the listeners of a registry. -/
def Attributes.announced {κ : Type} (r : Registry (Listener κ)) (c : ElementId)
    (anns : List (String × Value)) (a : Attributes) : Attributes :=
  anns.foldl (fun a x =>
    ((r.heard x.1).filterMap (Listener.propertyOn c)).foldl (fun a n => a.setProperty n x.2) a) a

theorem Attributes.announced_of_none {κ : Type} {r : Registry (Listener κ)} {c : ElementId}
    (h : ∀ event, ∀ l ∈ r.heard event, l.propertyOn c = none) (anns : List (String × Value))
    (a : Attributes) : a.announced r c anns = a := by
  have hn : ∀ event, (r.heard event).filterMap (Listener.propertyOn c) = [] := fun event =>
    List.filterMap_eq_nil_iff.mpr (h event)
  unfold announced
  simp only [hn, List.foldl_nil]
  induction anns with
  | nil => rfl
  | cons x r ih => exact ih

namespace Page

variable {κ σ : Type} {bus : BusId} {p q s : Page κ σ}

/-- From `p` to `q` a bus got the listeners `ls`, which write no property, and `anns` were announced
on it. -/
structure Replayed (bus : BusId) (p q : Page κ σ) (ls : List (String × Listener κ))
    (anns : List (String × Value)) : Prop where
  rest : q = { p with buses := q.buses, elements := q.elements }
  quiet : ∀ l ∈ ls, l.2.isBinding = true ∧ ∀ c, l.2.propertyOn c = none
  registry : ∀ r, p.bus? bus = some r → q.bus? bus = some (r.addAll ls)
  buses : ∀ b, b ≠ bus → q.bus? b = p.bus? b
  element : ∀ r c d, p.bus? bus = some r → p.element? c = some d →
    ∃ d', q.element? c = some d' ∧ d'.tag = d.tag ∧ d'.handlers = d.handlers ∧
      (p.isRooted [c] = true → d'.attributes = d.attributes.announced r c anns) ∧
      ((∀ event, ∀ l ∈ (r.addAll ls).heard event, l.writesText c = false) → d'.children = d.children)
  size : q.elements.size = p.elements.size

theorem heard_addAll (r : Registry (Listener κ)) (ls : List (String × Listener κ)) (event : String) :
    (r.addAll ls).heard event = r.heard event ++ (ls.filter (·.1 = event)).map Prod.snd := by
  unfold Registry.heard
  rw [Registry.slotsOf_addAll, List.filterMap_append, List.filterMap_map]
  congr 1
  exact congrFun List.filterMap_eq_map _

theorem quiet_addAll {r : Registry (Listener κ)} (hq : r.Quiet) {ls : List (String × Listener κ)}
    (h : ∀ l ∈ ls, l.2.isBinding = true) : (r.addAll ls).Quiet := by
  intro event l hl
  rw [heard_addAll] at hl
  rcases List.mem_append.mp hl with hl | hl
  · exact hq event l hl
  · obtain ⟨x, hx, rfl⟩ := List.mem_map.mp hl
    exact h x (List.mem_filter.mp hx).1

theorem propertyOn_addAll (r : Registry (Listener κ)) {ls : List (String × Listener κ)}
    {c : ElementId} (h : ∀ l ∈ ls, l.2.propertyOn c = none) (event : String) :
    ((r.addAll ls).heard event).filterMap (Listener.propertyOn c)
      = (r.heard event).filterMap (Listener.propertyOn c) := by
  have hn : ((ls.filter (·.1 = event)).map Prod.snd).filterMap (Listener.propertyOn c) = [] := by
    rw [List.filterMap_eq_nil_iff]
    intro l hl
    obtain ⟨x, hx, rfl⟩ := List.mem_map.mp hl
    exact h x (List.mem_filter.mp hx).1
  rw [heard_addAll, List.filterMap_append, hn, List.append_nil]

namespace Replayed

theorem refl (bus : BusId) (p : Page κ σ) : Replayed bus p p [] [] where
  rest := rfl
  quiet _ h := absurd h List.not_mem_nil
  registry _ h := h
  buses _ _ := rfl
  element _ _ d _ hd := ⟨d, hd, rfl, rfl, fun _ => rfl, fun _ => rfl⟩
  size := rfl

theorem model? {ls : List (String × Listener κ)} {anns : List (String × Value)}
    (h : Replayed bus p q ls anns) (m : ModelId) : q.model? m = p.model? m := by
  rw [h.rest]
  rfl

theorem isRooted {ls : List (String × Listener κ)} {anns : List (String × Value)}
    (h : Replayed bus p q ls anns) (es : List ElementId) : q.isRooted es = p.isRooted es := by
  rw [h.rest]
  rfl

theorem trans {ls ms : List (String × Listener κ)} {xs ys : List (String × Value)}
    (h : Replayed bus p q ls xs) (k : Replayed bus q s ms ys) :
    Replayed bus p s (ls ++ ms) (xs ++ ys) where
  rest := by rw [k.rest, h.rest]
  quiet l hl := by
    rcases List.mem_append.mp hl with hl | hl
    · exact h.quiet l hl
    · exact k.quiet l hl
  registry r hr := by
    rw [k.registry _ (h.registry r hr), Registry.addAll_append]
  buses b hb := (k.buses b hb).trans (h.buses b hb)
  element r c d hr hd := by
    obtain ⟨d₁, hd₁, ht₁, hh₁, ha₁, hc₁⟩ := h.element r c d hr hd
    obtain ⟨d₂, hd₂, ht₂, hh₂, ha₂, hc₂⟩ := k.element _ c d₁ (h.registry r hr) hd₁
    refine ⟨d₂, hd₂, ht₂.trans ht₁, hh₂.trans hh₁, fun hroot => ?_, fun hw => ?_⟩
    · rw [ha₂ ((h.isRooted [c]).trans hroot), ha₁ hroot]
      unfold Attributes.announced
      rw [List.foldl_append]
      have hp := fun event => propertyOn_addAll r (fun l hl => (h.quiet l hl).2 c) event
      simp only [hp]
    · rw [Registry.addAll_append] at hw
      refine (hc₂ hw).trans (hc₁ fun event l hl => hw event l ?_)
      rw [heard_addAll]
      exact List.mem_append_left _ hl
  size := k.size.trans h.size

/-- One replay: a new listener and one announcement. -/
theorem step {r : Registry (Listener κ)} (hr : p.bus? bus = some r) (event : String)
    {l : Listener κ} (hl : l.isBinding = true) (hn : ∀ c, l.propertyOn c = none) (value : Value) :
    Replayed bus p ((p.subscribe bus event l).2.receiveAll value
      ((r.addAll [(event, l)]).heard event)) [(event, l)] [(event, value)] := by
  rw [Page.subscribe_of_some hr]
  have hb : (p.modifyBus bus fun _ => (r.subscribe event l).2).bus? bus
      = some (r.addAll [(event, l)]) := bus?_modifyBus_self hr _
  refine ⟨?_, fun x hx => ?_, fun r' hr' => ?_, fun b hne => ?_, fun r' c d hr' hd => ?_, ?_⟩
  · rw [receiveAll_eq]
    rfl
  · rw [List.mem_singleton.mp hx]
    exact ⟨hl, hn⟩
  · cases hr.symm.trans hr'
    exact (bus?_receiveAll ..).trans hb
  · exact (bus?_receiveAll ..).trans (bus?_modifyBus_of_ne (Ne.symm hne) _)
  · cases hr.symm.trans hr'
    obtain ⟨d', hd', ht, hh, ha, hc⟩ := element?_receiveAll value
      (p := p.modifyBus bus fun _ => (r.subscribe event l).2) hd ((r.addAll [(event, l)]).heard event)
    refine ⟨d', hd', ht, hh, fun hroot => ?_, fun hw => hc (hw event)⟩
    rw [ha hroot, propertyOn_addAll r fun x hx => by rw [List.mem_singleton.mp hx]; exact hn c]
    rfl
  · exact size_receiveAll ..

end Replayed

theorem bindSlots_cons_of_unknown {engine : Engine κ σ} {m : ModelId} {e : ElementId} {d : Model}
    {template name : String} {all rest : List String} (hm : p.model? m = some d)
    (hk : ¬ d.contains name = true) :
    engine.bindSlots bus m e template all (name :: rest) p
      = engine.bindSlots bus m e template all rest p := by
  refine Engine.bindSlots_cons_of_not_key ?_
  rw [hasKey_of_model? hm]
  simpa using hk

/-- Binding a slot that is a key, on a quiet bus, if it ends well: the value reaches all who wait for
it, the new listener last. -/
theorem bindSlots_cons_of_quiet {callbacks : Callbacks κ σ} {engine : Engine κ σ}
    (he : engine.Publishes callbacks) {m : ModelId} {e : ElementId} {template name : String}
    {all rest : List String} {d : Model} {r : Registry (Listener κ)} (hr : p.bus? bus = some r)
    (hq : r.Quiet) (hm : p.model? m = some d) (hk : d.contains name = true) {b : Bool}
    (h : engine.bindSlots bus m e template all (name :: rest) p = some (.ok b, q)) :
    b = true ∧ ∃ b', engine.bindSlots bus m e template all rest
      ((p.subscribe bus (d.event name) (.text (.weak e) (.weak m) template all name)).2.receiveAll
        ((d.get? name).getD .null)
        ((r.addAll [(d.event name, .text (.weak e) (.weak m) template all name)]).heard (d.event name)))
      = some (.ok b', q) := by
  obtain ⟨hb, p₁, b', hp, h⟩ := Engine.bindSlots_cons_eq_some ((hasKey_of_model? hm name).trans hk) h
  rw [eventOf_of_model? hm, valueOf_of_model? hm] at hp
  obtain ⟨inner, hp⟩ := he _ _ _ _ _ hp
  have hq₁ : (r.addAll [(d.event name, .text (.weak e) (.weak m) template all name)]).Quiet :=
    quiet_addAll hq fun x hx => by rw [List.mem_singleton.mp hx]; rfl
  have hbus : (p.subscribe bus (d.event name) (.text (.weak e) (.weak m) template all name)).2.bus? bus
      = some (r.addAll [(d.event name, .text (.weak e) (.weak m) template all name)]) := by
    rw [Page.subscribe_of_some hr]
    exact bus?_modifyBus_self hr _
  rw [Engine.receiveAll_of_publishWith callbacks inner _ hq₁ hbus hp] at h
  exact ⟨hb, b', h⟩

theorem replayed_bindSlots {callbacks : Callbacks κ σ} {engine : Engine κ σ}
    (he : engine.Publishes callbacks) {m : ModelId} {e : ElementId} {template : String}
    {all names : List String} {d : Model} {r : Registry (Listener κ)} (hr : p.bus? bus = some r)
    (hq : r.Quiet) (hm : p.model? m = some d) {b : Bool}
    (h : engine.bindSlots bus m e template all names p = some (.ok b, q)) :
    Replayed bus p q
      ((names.filter d.contains).map fun k => (d.event k, .text (.weak e) (.weak m) template all k))
      ((names.filter d.contains).map fun k => (d.event k, (d.get? k).getD .null)) := by
  induction names generalizing p r b with
  | nil =>
    cases h
    exact Replayed.refl bus _
  | cons name rest ih =>
    by_cases hk : d.contains name = true
    · obtain ⟨-, b', h⟩ := bindSlots_cons_of_quiet he hr hq hm hk h
      have hstep := Replayed.step hr (d.event name)
        (rfl : ((.text (.weak e) (.weak m) template all name : Listener κ)).isBinding = true) (fun _ => rfl)
        ((d.get? name).getD .null)
      have hq₁ : (r.addAll [(d.event name, .text (.weak e) (.weak m) template all name)]).Quiet :=
        quiet_addAll hq fun l hl => (hstep.quiet l hl).1
      rw [List.filter_cons_of_pos hk]
      exact hstep.trans (ih (hstep.registry r hr) hq₁ ((hstep.model? m).trans hm) h)
    · rw [bindSlots_cons_of_unknown hm hk] at h
      rw [List.filter_cons_of_neg hk]
      exact ih hr hq hm h

theorem replayed_bindText {callbacks : Callbacks κ σ} {engine : Engine κ σ}
    (he : engine.Publishes callbacks) {m : ModelId} {e : ElementId} {d : Model}
    {r : Registry (Listener κ)} (hr : p.bus? bus = some r) (hq : r.Quiet)
    (hm : p.model? m = some d) {text : Option Target}
    (h : engine.bindText bus m e p = some (.ok text, q)) :
    Replayed bus p q
      ((d.keysIn (p.textContent e)).map fun k =>
        (d.event k, .text (.weak e) (.weak m) (p.textContent e) (Template.names (p.textContent e)) k))
      ((d.keysIn (p.textContent e)).map fun k => (d.event k, (d.get? k).getD .null)) := by
  obtain ⟨b, h, -⟩ := Engine.bindText_eq_some h
  exact replayed_bindSlots he hr hq hm h

theorem stages_of_bindText {callbacks : Callbacks κ σ} {engine : Engine κ σ}
    (he : engine.Publishes callbacks) {m : ModelId} {e : ElementId} {d : Model}
    {r : Registry (Listener κ)} (hr : p.bus? bus = some r) (hq : r.Quiet) (hm : p.model? m = some d)
    {el : PageElement κ} (hel : p.element? e = some el)
    (hnone : ∀ event, ∀ l ∈ r.heard event, l.propertyOn e = none) {text : String}
    (htext : p.textContent e = text) {target : Option Target} {p₁ : Page κ σ}
    (h : engine.bindText bus m e ((p.hold (.element e)).hold (.model m)) = some (.ok target, p₁)) :
    p₁.attributesOf e = el.attributes ∧ ∃ el₁ hs,
      Replayed bus ((p.hold (.element e)).hold (.model m)) p₁
        ((d.keysIn text).map fun k => (d.event k, .text (.weak e) (.weak m) text (Template.names text) k))
        ((d.keysIn text).map fun k => (d.event k, (d.get? k).getD .null)) ∧
      (p₁.element? e = some el₁ ∧ el₁.attributes = el.attributes ∧ el₁.handlers = el.handlers) ∧
      el₁.tag = el.tag ∧
      Wired bus e p₁ (p₁.bindAttributes bus m e el.attributes.entries).2
        ((d.slots el.attributes.entries).map fun s => (d.event s.2, .property (.weak e) s.1)) hs
        (·.showAll d el.attributes.entries) ∧
      ((∀ a ∈ el.attributes.entries, Text.lower a.1 = "type" → d.keysIn a.2 = []) →
        hs = writeBacks m (Control.classify el.tag el.attributes) (d.slots el.attributes.entries)) := by
  have hcontent : ((p.hold (.element e)).hold (.model m)).textContent e = text := by
    rw [textContent_hold, textContent_hold, htext]
  have hrep := replayed_bindText (p := (p.hold (.element e)).hold (.model m)) he hr hq hm h
  rw [hcontent] at hrep
  have hroot : ((p.hold (.element e)).hold (.model m)).isRooted [e] = true :=
    isRooted_hold (isRooted_of_held List.mem_cons_self) _
  obtain ⟨el₁, hel₁, htag, hhandlers, hattr, -⟩ := hrep.element r e el hr hel
  have hsame : el₁.attributes = el.attributes :=
    (hattr hroot).trans (Attributes.announced_of_none hnone _ _)
  have hlisted : p₁.attributesOf e = el.attributes := by
    unfold attributesOf
    rw [hel₁]
    exact hsame
  have hcontrol : p₁.controlOf e = Control.classify el.tag el.attributes := by
    unfold controlOf
    rw [hel₁, Option.bind_some, htag, hsame]
  obtain ⟨hs, hwired, hhs⟩ := wired_bindAttributes bus e ((hrep.model? m).trans hm)
    el.attributes.entries
  exact ⟨hlisted, el₁, hs, hrep, ⟨hel₁, hsame, hhandlers⟩, htag, hwired, hcontrol ▸ hhs⟩

/-- Binding an element, if it ends well.  First its text is bound; if no listener writes an
attribute of the element, they are bound then as they were before. -/
theorem stages_of_bindElement {callbacks : Callbacks κ σ} {engine : Engine κ σ}
    (he : engine.Publishes callbacks) {m : ModelId} {e : ElementId} {d : Model}
    {r : Registry (Listener κ)} (hr : p.bus? bus = some r) (hq : r.Quiet) (hm : p.model? m = some d)
    {el : PageElement κ} (hel : p.element? e = some el)
    (hnone : ∀ event, ∀ l ∈ r.heard event, l.propertyOn e = none) {text : String}
    (htext : p.textContent e = text) {targets : List Target}
    (h : engine.bindElement bus m e p = some (.ok targets, q)) :
    ∃ p₁ p₂ el₁ hs,
      Replayed bus ((p.hold (.element e)).hold (.model m)) p₁
        ((d.keysIn text).map fun k => (d.event k, .text (.weak e) (.weak m) text (Template.names text) k))
        ((d.keysIn text).map fun k => (d.event k, (d.get? k).getD .null)) ∧
      (p₁.element? e = some el₁ ∧ el₁.attributes = el.attributes ∧ el₁.handlers = el.handlers) ∧
      Wired bus e p₁ p₂
        ((d.slots el.attributes.entries).map fun s => (d.event s.2, .property (.weak e) s.1)) hs
        (·.showAll d el.attributes.entries) ∧
      ((∀ a ∈ el.attributes.entries, Text.lower a.1 = "type" → d.keysIn a.2 = []) →
        hs = writeBacks m (Control.classify el.tag el.attributes) (d.slots el.attributes.entries)) ∧
      q = (p₂.release (.model m)).release (.element e) := by
  obtain ⟨target, p₁, htarget, -, hq'⟩ := Engine.bindElement_eq_some h
  obtain ⟨hlisted, el₁, hs, hrep, hel₁, -, hwired, hhs⟩ :=
    stages_of_bindText he hr hq hm hel hnone htext htarget
  rw [hlisted] at hq'
  exact ⟨p₁, _, el₁, hs, hrep, hel₁, hwired, hhs, hq'⟩

end Page

end Bindery
