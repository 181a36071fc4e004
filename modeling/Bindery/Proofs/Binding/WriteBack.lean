import Bindery.Proofs.Binding.Edit
import Bindery.Proofs.Binding.Replay

/-!
# Form controls in operation

A form control that was bound on a quiet bus has one handler and one listener for each slot of its
attributes that is a key.  Firing its event writes the slots back in order.

* `Page.Operable`              a control as binding leaves it
* `operable_of_bindElement`    binding makes a control operable
* `handleAll_plays`            firing its event plays the write-backs
* `edit_survives_iff`          what becomes of an edit
-/

namespace Bindery

variable {κ σ : Type}

/-- A form control bound to a model `d₀`: nothing in flight on a quiet bus, a handler and a listener
for each slot. -/
structure Page.Operable (p : Page κ σ) (b : BusId) (m : ModelId) (d₀ : Model) (e : ElementId)
    (c : Control) (slots : List (String × String)) : Prop where
  model : ∃ d, p.model? m = some d ∧ d.bus = b ∧ d.name = d₀.name ∧ d.observed = d₀.observed
  element : ∃ el, p.element? e = some el
  handlers : p.handlers e c.event = slots.map fun s => .writeBack (.strong m) s.1 s.2 c
  registry : ∃ r, p.bus? b = some r ∧ r.Quiet ∧ r.inFlight = [] ∧ 0 < r.maxDepth ∧
    ∀ key, (r.heard (d₀.event key)).filterMap (Listener.propertyOn e)
      = (slots.filter (·.2 = key)).map Prod.fst

structure Page.Plays (p : Page κ σ) (m : ModelId) (e : ElementId) (s : Entry) : Prop where
  reads : ∀ attr, Text.lower attr = attr → p.property e attr = s.reads attr
  stored : ∀ key, (p.model? m).bind (·.get? key) = s.stored key

theorem Page.property_of_element? {p : Page κ σ} {e : ElementId} {el : PageElement κ}
    (h : p.element? e = some el) (name : String) : p.property e name = el.attributes.property name := by
  unfold Page.property
  rw [h]

theorem Page.handlers_of_element? {p : Page κ σ} {e : ElementId} {el : PageElement κ}
    (h : p.element? e = some el) (kind : EventKind) :
    p.handlers e kind = (el.handlers.filter (·.1 = kind)).map Prod.snd := by
  unfold Page.handlers
  rw [h]

theorem Control.coerce_of_ne {c : Control} (h : c ≠ .number) (v : Value) : c.coerce v = v := by
  cases c with
  | number => exact absurd rfl h
  | toggle => rfl
  | text => rfl
  | select => rfl

/-- A value announced for a key shows in the attributes with a slot for it, and nowhere else. -/
theorem Attributes.property_foldl_slots {slots : List (String × String)}
    (hlower : ∀ slot ∈ slots, Text.lower slot.1 = slot.1) {attr : String}
    (hattr : Text.lower attr = attr) (key : String) (value : Value) (a : Attributes) :
    (((slots.filter (·.2 = key)).map Prod.fst).foldl (fun a n => a.setProperty n value) a).property attr
      = if (attr, key) ∈ slots then value.asProperty attr else a.property attr := by
  have hsame : ∀ n ∈ (slots.filter (·.2 = key)).map Prod.fst,
      Text.lower attr = Text.lower n → n = attr ∧ (n, key) ∈ slots := by
    intro n hn hl
    obtain ⟨x, hx, rfl⟩ := List.mem_map.mp hn
    obtain ⟨hx, hkey⟩ := List.mem_filter.mp hx
    rw [hattr, hlower x hx] at hl
    rw [← of_decide_eq_true hkey]
    exact ⟨hl.symm, hx⟩
  by_cases hmem : (attr, key) ∈ slots
  · rw [if_pos hmem]
    refine property_foldl_of_mem ?_ (fun n hn hl => (hsame n hn hl).1) value
    exact List.mem_map.mpr ⟨_, List.mem_filter.mpr ⟨hmem, decide_eq_true rfl⟩, rfl⟩
  · rw [if_neg hmem]
    refine property_foldl_of_not_mem (fun n hn hl => hmem ?_) value
    obtain ⟨rfl, hn⟩ := hsame n hn hl
    exact hn

namespace Engine

variable (callbacks : Callbacks κ σ) {b : BusId} {m : ModelId} {d₀ : Model} {e : ElementId}
  {c : Control} {slots : List (String × String)} {p : Page κ σ} {s : Entry}

/-! ## One slot -/

theorem handle_writeBack (frames : Nat) (hp : p.Operable b m d₀ e c slots)
    (hheld : Handle.element e ∈ p.held) (hplay : p.Plays m e s) (hc : c ≠ .number)
    (hlower : ∀ slot ∈ slots, Text.lower slot.1 = slot.1) {slot : String × String}
    (hslot : slot ∈ slots) :
    ∃ q, handle callbacks (ofFrames callbacks (frames + 1)) e
        (.writeBack (.strong m) slot.1 slot.2 c) p = some (.ok (), q) ∧
      q.Operable b m d₀ e c slots ∧ Handle.element e ∈ q.held ∧
      q.Plays m e (s.write slots d₀.observed slot) := by
  obtain ⟨d, hd, hbus, hname, hobs⟩ := hp.model
  obtain ⟨el, hel⟩ := hp.element
  obtain ⟨r, hr, hq, hf, hdepth, hon⟩ := hp.registry
  have hv : p.property e slot.1 = s.reads slot.1 := hplay.reads slot.1 (hlower slot hslot)
  rw [handle_of_strong, Control.coerce_of_ne hc, hv]
  have hstored : ∀ key, ((p.store m slot.2 (s.reads slot.1)).model? m).bind (·.get? key)
      = (s.write slots d₀.observed slot).stored key := by
    intro key
    show _ = if key = slot.2 then some (s.reads slot.1) else s.stored key
    rw [Page.model?_store_self hd, Option.bind_some]
    by_cases hk : key = slot.2
    · rw [if_pos hk, hk, Model.get?_written_self]
    · rw [if_neg hk, Model.get?_written_of_ne _ hk, ← hplay.stored, hd, Option.bind_some]
  by_cases hk : slot.2 ∈ d₀.observed
  · have hwrite := write_quiet_ok callbacks (s.reads slot.1) hq hf hdepth frames hd
      (hbus.symm ▸ hr) (hobs ▸ hk)
    -- the page in which the new value is announced
    generalize hp₁ : (p.store m slot.2 (s.reads slot.1)).hold (.model m) = p₁ at *
    have hr₁ : p₁.bus? b = some r := by rw [← hp₁]; exact hr
    have hel₁ : p₁.element? e = some el := by rw [← hp₁]; exact hel
    have hheld₁ : Handle.element e ∈ p₁.held := by
      rw [← hp₁]
      exact List.mem_cons_of_mem _ hheld
    have hev : d.event slot.2 = d₀.event slot.2 := congrArg (changeEvent · slot.2) hname
    obtain ⟨el', hel', -, hhand, hattr, -⟩ :=
      Page.element?_receiveAll (s.reads slot.1) hel₁ (r.heard (d.event slot.2))
    have hroot : p₁.isRooted [e] = true := Page.isRooted_of_held hheld₁
    refine ⟨_, hwrite, ⟨?_, ⟨el', hel'⟩, ?_, ?_⟩, ?_, ?_, ?_⟩
    · refine ⟨{ d with values := d.values.set slot.2 (s.reads slot.1) }, ?_, hbus, hname, hobs⟩
      show (p₁.receiveAll _ _).model? m = _
      rw [Page.model?_receiveAll, ← hp₁]
      exact Page.model?_store_self hd _ _
    · rw [Page.handlers_of_element? (show (Page.release _ _).element? e = some el' from hel'), hhand,
        ← Page.handlers_of_element? hel, hp.handlers]
    · exact ⟨r, (Page.bus?_receiveAll ..).trans hr₁, hq, hf, hdepth, hon⟩
    · show _ ∈ (p₁.receiveAll _ _).held.erase _
      rw [Page.held_receiveAll, ← hp₁]
      show _ ∈ (Handle.model m :: p.held).erase _
      rw [List.erase_cons_head]
      exact hheld
    · intro attr hattrl
      rw [Page.property_of_element? (show (Page.release _ _).element? e = some el' from hel'),
        hattr hroot, hev, hon, Attributes.property_foldl_slots hlower hattrl,
        ← Page.property_of_element? hel, hplay.reads attr hattrl]
      show _ = if _ then _ else _
      by_cases hmem : (attr, slot.2) ∈ slots
      · rw [if_pos hmem, if_pos ⟨hk, hmem⟩]
      · rw [if_neg hmem, if_neg fun h => hmem h.2]
    · intro key
      show ((p₁.receiveAll _ _).model? m).bind _ = _
      rw [Page.model?_receiveAll, ← hp₁]
      exact hstored key
  · rw [write_of_silent hd (hobs ▸ hk)]
    refine ⟨_, rfl, ⟨⟨_, Page.model?_store_self hd _ _, hbus, hname, hobs⟩, ⟨el, hel⟩, hp.handlers,
      ⟨r, hr, hq, hf, hdepth, hon⟩⟩, hheld, fun attr hl => ?_, hstored⟩
    show _ = if _ then _ else _
    rw [if_neg fun h => hk h.1]
    exact hplay.reads attr hl

/-! ## All slots -/

theorem handleAll_plays (frames : Nat) (hp : p.Operable b m d₀ e c slots)
    (hheld : Handle.element e ∈ p.held) (hplay : p.Plays m e s) (hc : c ≠ .number)
    (hlower : ∀ slot ∈ slots, Text.lower slot.1 = slot.1) {todo : List (String × String)}
    (hsub : ∀ slot ∈ todo, slot ∈ slots) :
    ∃ q, handleAll callbacks (ofFrames callbacks (frames + 1)) e
        (todo.map fun s => .writeBack (.strong m) s.1 s.2 c) p = some (.ok (), q) ∧
      q.Operable b m d₀ e c slots ∧ q.Plays m e (s.play slots d₀.observed todo) := by
  induction todo generalizing p s with
  | nil => exact ⟨p, rfl, hp, hplay⟩
  | cons slot r ih =>
    obtain ⟨p₁, hrun, hp₁, hheld₁, hplay₁⟩ := handle_writeBack callbacks frames hp hheld hplay hc hlower
      (hsub slot List.mem_cons_self)
    obtain ⟨q, hrest, hq, hplayq⟩ := ih hp₁ hheld₁ hplay₁ fun x hx =>
      hsub x (List.mem_cons_of_mem _ hx)
    refine ⟨q, ?_, hq, hplayq⟩
    rw [List.map_cons, handleAll, Run.bind_of_eq hrun]
    exact hrest

theorem dispatch_plays (frames : Nat) (hp : p.Operable b m d₀ e c slots) (hc : c ≠ .number)
    (hlower : ∀ slot ∈ slots, Text.lower slot.1 = slot.1) (hplay : p.Plays m e s) :
    ∃ q, (ofFrames callbacks (frames + 2)).dispatch e c.event p = some (.ok (), q) ∧
      q.Operable b m d₀ e c slots ∧ q.Plays m e (s.play slots d₀.observed slots) := by
  obtain ⟨q, hrun, hq, hplayq⟩ := handleAll_plays (p := p.hold (.element e)) callbacks frames
    ⟨hp.model, hp.element, hp.handlers, hp.registry⟩ List.mem_cons_self
    ⟨hplay.reads, hplay.stored⟩ hc hlower (fun _ h => h)
  rw [← hp.handlers] at hrun
  refine ⟨q.release (.element e), ?_, ⟨hq.model, hq.element, hq.handlers, hq.registry⟩,
    ⟨hplayq.reads, hplayq.stored⟩⟩
  rw [ofFrames_succ]
  exact Run.holding_of_eq hrun

end Engine

/-! ## From binding on -/

/-- A form control that was not bound before, on a quiet bus with nothing in flight. -/
structure Page.FreshControl (p : Page κ σ) (b : BusId) (m : ModelId) (d : Model) (e : ElementId)
    (el : PageElement κ) (c : Control) : Prop where
  registry : ∃ r, p.bus? b = some r ∧ r.Quiet ∧ r.inFlight = [] ∧ 0 < r.maxDepth ∧
    ∀ event, ∀ l ∈ r.heard event, l.propertyOn e = none
  model : p.model? m = some d
  home : d.bus = b
  element : p.element? e = some el
  control : Control.classify el.tag el.attributes = some c
  notNumber : c ≠ .number
  handlers : p.handlers e c.event = []
  /-- attribute names are in lower case -/
  lower : ∀ a ∈ el.attributes.entries, Text.lower a.1 = a.1
  /-- the type is not filled in -/
  type : ∀ a ∈ el.attributes.entries, a.1 = "type" → Template.names a.2 = []

/-- From `p` to `q` the bindings of an element stayed as they were, and so did what is in flight.
Attributes, texts and values may have changed. -/
structure Page.Undisturbed (b : BusId) (m : ModelId) (e : ElementId) (p q : Page κ σ) : Prop where
  model : ∀ d, p.model? m = some d → ∃ d', q.model? m = some d' ∧ d'.bus = d.bus ∧
    d'.name = d.name ∧ d'.observed = d.observed
  element : ∀ el, p.element? e = some el → ∃ el', q.element? e = some el' ∧
    el'.handlers = el.handlers
  registry : ∀ r, p.bus? b = some r → ∃ r', q.bus? b = some r' ∧ (r.Quiet → r'.Quiet) ∧
    r'.inFlight = r.inFlight ∧ r'.maxDepth = r.maxDepth ∧
    ∀ event, (r'.heard event).filterMap (Listener.propertyOn e)
      = (r.heard event).filterMap (Listener.propertyOn e)

namespace Page

variable {b : BusId} {m : ModelId} {d : Model} {e : ElementId} {el : PageElement κ} {c : Control}
  {p p₁ q : Page κ σ}

theorem Undisturbed.refl (b : BusId) (m : ModelId) (e : ElementId) (p : Page κ σ) :
    Undisturbed b m e p p :=
  ⟨fun d h => ⟨d, h, rfl, rfl, rfl⟩, fun el h => ⟨el, h, rfl⟩,
    fun r h => ⟨r, h, id, rfl, rfl, fun _ => rfl⟩⟩

theorem Undisturbed.setProperty (h : Undisturbed b m e p q) (f : ElementId) (name : String)
    (value : Value) : Undisturbed b m e p (q.setProperty f name value) := by
  refine ⟨h.model, fun el hel => ?_, h.registry⟩
  obtain ⟨el', hel', hh⟩ := h.element el hel
  show ∃ x, (q.modifyElement f _).element? e = some x ∧ _
  rw [element?_modifyElement]
  by_cases hf : f = e
  · rw [if_pos hf, hel']
    exact ⟨_, rfl, hh⟩
  · rw [if_neg hf]
    exact ⟨el', hel', hh⟩

theorem Operable.of_undisturbed {slots : List (String × String)} (hp : p.Operable b m d e c slots)
    (h : Undisturbed b m e p q) : q.Operable b m d e c slots := by
  obtain ⟨x, hx, hbus, hname, hobs⟩ := hp.model
  obtain ⟨x', hx', hbus', hname', hobs'⟩ := h.model x hx
  obtain ⟨y, hy⟩ := hp.element
  obtain ⟨y', hy', hh⟩ := h.element y hy
  obtain ⟨r, hr, hq, hf, hd, hon⟩ := hp.registry
  obtain ⟨r', hr', hq', hf', hd', hon'⟩ := h.registry r hr
  refine ⟨⟨x', hx', hbus'.trans hbus, hname'.trans hname, hobs'.trans hobs⟩, ⟨y', hy'⟩, ?_,
    ⟨r', hr', hq' hq, hf'.trans hf, hd' ▸ hd, fun key => (hon' _).trans (hon key)⟩⟩
  rw [handlers_of_element? hy', hh, ← handlers_of_element? hy, hp.handlers]

theorem propertyOn_slots (d : Model) (e : ElementId) (slots : List (String × String)) (key : String) :
    (((slots.map fun s => (d.event s.2, (.property (.weak e) s.1 : Listener κ))).filter
        (·.1 = d.event key)).map Prod.snd).filterMap (Listener.propertyOn e)
      = (slots.filter (·.2 = key)).map Prod.fst := by
  induction slots with
  | nil => rfl
  | cons s r ih =>
    have hs : (Listener.property (.weak e) s.1 : Listener κ).propertyOn e = some s.1 := if_pos rfl
    rw [List.map_cons]
    by_cases hk : s.2 = key
    · rw [List.filter_cons_of_pos (by simp [hk]), List.filter_cons_of_pos (by simpa using hk),
        List.map_cons, List.map_cons, List.filterMap_cons_some hs, ih]
    · have hne : d.event s.2 ≠ d.event key := fun h => hk (d.event_injective h)
      rw [List.filter_cons_of_neg (by simpa using hne), List.filter_cons_of_neg (by simpa using hk),
        ih]

/-- Binding a fresh control makes it operable, slot by slot. -/
theorem operable_of_bindElement {callbacks : Callbacks κ σ} {engine : Engine κ σ}
    (hengine : engine.Publishes callbacks) (hp : p.FreshControl b m d e el c) {targets : List Target}
    (h : engine.bindElement b m e p = some (.ok targets, p₁)) :
    p₁.Operable b m d e c (d.slots el.attributes.entries) := by
  obtain ⟨r, hr, hq, hf, hdepth, hnone⟩ := hp.registry
  obtain ⟨s, s', el₁, hs, hrep, ⟨hel₁, -, hhand⟩, hwired, hhs, rfl⟩ := stages_of_bindElement hengine hr
    hq hp.model hp.element hnone rfl h
  have hhs' := hhs fun a ha hl => by
    rw [hp.lower a ha] at hl
    unfold Model.keysIn
    rw [hp.type a ha hl]
    rfl
  rw [hp.control] at hhs'
  subst hhs'
  have hr₁ := hrep.registry r hr
  have hm₁ : s.model? m = some d := (hrep.model? m).trans hp.model
  have hel₂ := hwired.element el₁ hel₁
  refine ⟨⟨d, (hwired.model? m).trans hm₁, hp.home, rfl, rfl⟩, ⟨_, hel₂⟩, ?_, ?_⟩
  · have hold := hp.handlers
    rw [handlers_of_element? hp.element] at hold
    refine (handlers_of_element? hel₂ c.event).trans ?_
    show ((el₁.handlers ++ _).filter _).map _ = _
    rw [hhand, List.filter_append, List.map_append, hold, List.nil_append, handlers_writeBacks]
  · refine ⟨_, hwired.registry _ hr₁, ?_, ?_, ?_, fun key => ?_⟩
    · refine quiet_addAll (quiet_addAll hq fun l hl => (hrep.quiet l hl).1) fun l hl => ?_
      obtain ⟨x, -, rfl⟩ := List.mem_map.mp hl
      rfl
    · rw [Registry.inFlight_addAll, Registry.inFlight_addAll, hf]
    · rw [Registry.maxDepth_addAll, Registry.maxDepth_addAll]
      exact hdepth
    · rw [heard_addAll, List.filterMap_append, propertyOn_addAll r fun l hl => (hrep.quiet l hl).2 e,
        List.filterMap_eq_nil_iff.mpr (hnone _), List.nil_append, propertyOn_slots]

end Page

/-- What becomes of an edit.  A control is bound to a model, and later, with its bindings undisturbed,
its event is fired.  That ends well.  An attribute that is bound to a key has then stored what it read
before, if its edit survives the order of the slots, and so it is when the attribute and the key are
bound to nothing else; unless another attribute of the control happens to read the same, it has stored
that only if its edit survives. -/
theorem edit_survives_iff (callbacks : Callbacks κ σ) (bindFrames frames : Nat) {b : BusId}
    {m : ModelId} {d : Model} {e : ElementId} {el : PageElement κ} {c : Control}
    {p₀ p₁ p : Page κ σ} {targets : List Target} (attr template key : String)
    (hp : p₀.FreshControl b m d e el c)
    (hbind : (Engine.ofFrames callbacks bindFrames).bindElement b m e p₀ = some (.ok targets, p₁))
    (hlater : p₁.Undisturbed b m e p) (hattr : (attr, template) ∈ el.attributes.entries)
    (hkey : key ∈ d.keysIn template) :
    let slots := d.slots el.attributes.entries
    let edit := p.property e attr
    ∃ q, (Engine.ofFrames callbacks (frames + 2)).dispatch e c.event p = some (.ok (), q) ∧
      (survives slots d.observed attr key = true →
        (q.model? m).bind (·.get? key) = some edit) ∧
      ((∀ slot ∈ slots, slot.1 = attr ↔ slot.2 = key) →
        (q.model? m).bind (·.get? key) = some edit) ∧
      (edit.Distinctive →
        (∀ slot ∈ slots, slot.1 ≠ attr → ¬ edit.Recalls (p.property e slot.1)) →
        (q.model? m).bind (·.get? key) = some edit → survives slots d.observed attr key = true) := by
  intro slots edit
  have hop := (Page.operable_of_bindElement (Engine.publishes_ofFrames callbacks bindFrames) hp
    hbind).of_undisturbed hlater
  obtain ⟨el', hel'⟩ := hop.element
  have hfits : ∀ name, (p.property e name).FitsProperty name := by
    intro name
    rw [Page.property_of_element? hel']
    exact Attributes.fitsProperty_property _ name
  have hslot : (attr, key) ∈ slots := Model.mem_slots.mpr ⟨template, hattr, hkey⟩
  have hlower : ∀ slot ∈ slots, Text.lower slot.1 = slot.1 := by
    rintro ⟨a, k⟩ hs
    obtain ⟨t, ht, -⟩ := Model.mem_slots.mp hs
    exact hp.lower (a, t) ht
  obtain ⟨q, hrun, -, hplays⟩ := Engine.dispatch_plays callbacks frames hop
    hp.notNumber hlower
    (s := ⟨fun name => p.property e name, fun k => (p.model? m).bind (·.get? k)⟩)
    ⟨fun _ _ => rfl, fun _ => rfl⟩
  refine ⟨q, hrun, fun hs => ?_, fun halone => ?_, fun hd hapart hstored => ?_⟩
  · rw [hplays.stored]
    exact stored_of_survives hfits hs
  · rw [hplays.stored]
    refine stored_of_survives hfits (survives_of_alone hslot ?_ ?_)
    · exact fun slot hs => (halone slot hs).mpr
    · exact fun slot hs => (halone slot hs).mp
  · rw [hplays.stored] at hstored
    exact (stored_iff_survives hfits hslot hd hapart).mp hstored

/-! ## Two inputs -/

def Value.text? : Value → Option String
  | text s => some s
  | _ => none

theorem Value.eq_of_text? {v : Value} {s : String} (h : v.text? = some s) : v = .text s := by
  cases v with
  | text t => exact congrArg text (Option.some.inj h)
  | _ => cases h

def idleCode : Callbacks Unit Unit where
  onPublish _ _ := .done (.ok ())
  onEvent _ _ := .done (.ok ())

def letterModel : Model := ⟨⟨0⟩, "m", [("k", .text "a")], ["k"]⟩

def inputElement (entries : List (String × String)) : PageElement Unit :=
  { tag := "input", attributes := ⟨entries⟩ }

def inputPage (entries : List (String × String)) : Page Unit Unit :=
  { buses := #[{ maxDepth := 8 }]
    models := #[letterModel]
    elements := #[inputElement entries]
    held := [.element ⟨0⟩, .model ⟨0⟩]
    host := () }

theorem freshControl_inputPage {entries : List (String × String)}
    (hlower : ∀ a ∈ entries, Text.lower a.1 = a.1) (htype : ∀ a ∈ entries, a.1 ≠ "type")
    (hcontrol : Control.classify "input" ⟨entries⟩ = some .text) :
    (inputPage entries).FreshControl ⟨0⟩ ⟨0⟩ letterModel ⟨0⟩ (inputElement entries) .text where
  registry := ⟨{ maxDepth := 8 }, rfl, fun _ _ h => (nomatch h), rfl, by decide,
    fun _ _ h => (nomatch h)⟩
  model := rfl
  home := rfl
  element := rfl
  control := hcontrol
  notNumber := nofun
  handlers := rfl
  lower := hlower
  type a ha h := absurd h (htype a ha)

/-- The input with its text changed to `b`, after binding. -/
def editedInput (entries : List (String × String)) : Option (Page Unit Unit) :=
  ((Engine.ofFrames idleCode 2).bindElement ⟨0⟩ ⟨0⟩ ⟨0⟩ (inputPage entries)).bind fun a =>
    match a.1 with
    | .ok _ => some (a.2.setProperty ⟨0⟩ "value" (.text "b"))
    | .error _ => none

theorem editedInput_eq_some {entries : List (String × String)} {p : Page Unit Unit}
    (h : editedInput entries = some p) :
    ∃ targets p₁, (Engine.ofFrames idleCode 2).bindElement ⟨0⟩ ⟨0⟩ ⟨0⟩ (inputPage entries)
        = some (.ok targets, p₁) ∧ p = p₁.setProperty ⟨0⟩ "value" (.text "b") := by
  obtain ⟨⟨outcome, p₁⟩, hb, h⟩ := Option.bind_eq_some_iff.mp h
  cases outcome with
  | error failure => cases h
  | ok targets =>
    cases h
    exact ⟨targets, p₁, hb, rfl⟩

/-- With `value` in front of `title` the new text is stored. -/
theorem edit_before_title_survives :
    ∃ p q, editedInput [("value", "${k}"), ("title", "${k}")] = some p ∧
      p.property ⟨0⟩ "value" = .text "b" ∧
      (Engine.ofFrames idleCode 2).dispatch ⟨0⟩ .input p = some (.ok (), q) ∧
      (q.model? ⟨0⟩).bind (·.get? "k") = some (.text "b") := by
  have hread : ((editedInput [("value", "${k}"), ("title", "${k}")]).bind fun p =>
      (p.property ⟨0⟩ "value").text?) = some "b" := by decide +kernel
  obtain ⟨p, hp, hread⟩ := Option.bind_eq_some_iff.mp hread
  obtain ⟨targets, p₁, hbind, rfl⟩ := editedInput_eq_some hp
  obtain ⟨q, hrun, hstored, -⟩ := edit_survives_iff idleCode 2 0 "value" "${k}" "k"
    (freshControl_inputPage (by decide) (by decide) (by decide)) hbind
    ((Page.Undisturbed.refl ⟨0⟩ ⟨0⟩ ⟨0⟩ p₁).setProperty ⟨0⟩ "value" (.text "b"))
    (by decide) (by decide +kernel)
  refine ⟨_, q, hp, Value.eq_of_text? hread, hrun, ?_⟩
  rw [hstored (by decide +kernel), Value.eq_of_text? hread]

/-- With `title` in front of `value` the new text is lost: the handler of `title` is called first and
writes the old text, which then shows in `value`. -/
theorem edit_behind_title_lost :
    (inputPage [("title", "${k}"), ("value", "${k}")]).FreshControl ⟨0⟩ ⟨0⟩ letterModel ⟨0⟩
        (inputElement [("title", "${k}"), ("value", "${k}")]) .text ∧
      ∃ p q, editedInput [("title", "${k}"), ("value", "${k}")] = some p ∧
        p.property ⟨0⟩ "value" = .text "b" ∧
        (Engine.ofFrames idleCode 2).dispatch ⟨0⟩ .input p = some (.ok (), q) ∧
        (q.model? ⟨0⟩).bind (·.get? "k") = some (.text "a") := by
  refine ⟨freshControl_inputPage (by decide) (by decide) (by decide), ?_⟩
  have hread : ((editedInput [("title", "${k}"), ("value", "${k}")]).bind fun p =>
      (p.property ⟨0⟩ "value").text?) = some "b" := by decide +kernel
  have hrun : ((editedInput [("title", "${k}"), ("value", "${k}")]).bind fun p =>
      ((Engine.ofFrames idleCode 2).dispatch ⟨0⟩ .input p).bind fun a =>
        a.1.toOption.bind fun _ =>
          ((a.2.model? ⟨0⟩).bind (·.get? "k")).bind Value.text?) = some "a" := by decide +kernel
  obtain ⟨p, hp, hread⟩ := Option.bind_eq_some_iff.mp hread
  rw [hp, Option.bind_some] at hrun
  obtain ⟨⟨outcome, q⟩, hq, hstored⟩ := Option.bind_eq_some_iff.mp hrun
  cases outcome with
  | error failure => cases hstored
  | ok u =>
    change (((q.model? ⟨0⟩).bind (·.get? "k")).bind Value.text?) = some "a" at hstored
    obtain ⟨v, hv, ht⟩ := Option.bind_eq_some_iff.mp hstored
    refine ⟨p, q, hp, Value.eq_of_text? hread, hq, ?_⟩
    rw [hv, Value.eq_of_text? ht]

end Bindery
