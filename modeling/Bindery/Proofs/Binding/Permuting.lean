import Bindery.Proofs.Binding.Accounting

/-!
# The order of attributes

Two elements that differ in the order of their attributes are bound to equal data, each on a bus that
was not used before.  Attributes are filled each for itself and listeners are counted, so the order
leaves no trace there.  It does in the handlers if the type is filled and makes another control of the
element, one with another event: slots up to the type are written back on the old event then, those
behind it on the new one.

* `Bond.Reorders`           two elements that differ in the order of their attributes
* `writeBackCount_iff`      when the order does not matter for the handlers
* `Page.Alike`              two elements that show the same and have as many listeners
* `refused_bindElement`     binding on a bus without room
* `attribute_order_leaves_no_trace`
-/

namespace Bindery

variable {κ σ : Type}

namespace Attributes

theorem find?_perm {l l' : List (String × String)} (hn : (l.map Prod.fst).Nodup) (h : l'.Perm l)
    (name : String) : find? name l' = find? name l := by
  have hn' : (l'.map Prod.fst).Nodup := (h.map Prod.fst).nodup_iff.mpr hn
  ext value
  rw [find?_eq_some_iff hn', find?_eq_some_iff hn, h.mem_iff]

end Attributes

/-- The second element has the attributes of the first in another order, and is bound to equal data. -/
structure Bond.Reorders (β γ : Bond κ) : Prop where
  name : γ.data.name = β.data.name
  values : γ.data.values = β.data.values
  tag : γ.before.tag = β.before.tag
  text : γ.text = β.text
  entries : γ.before.attributes.entries.Perm β.before.attributes.entries

namespace Bond.Reorders

variable {β γ : Bond κ}

theorem get? (h : β.Reorders γ) : γ.data.get? = β.data.get? := by
  unfold Model.get?
  rw [h.values]

theorem event (h : β.Reorders γ) : γ.data.event = β.data.event := by
  unfold Model.event
  rw [h.name]

theorem keysIn (h : β.Reorders γ) : γ.data.keysIn = β.data.keysIn := by
  unfold Model.keysIn Model.contains
  rw [h.values]

theorem slots (h : β.Reorders γ) : γ.slots.Perm β.slots := by
  unfold Bond.slots Model.slots
  rw [h.keysIn]
  exact h.entries.flatMap_right _

theorem keys (h : β.Reorders γ) : γ.keys.Perm β.keys := by
  unfold Bond.keys
  rw [h.keysIn, h.text]
  exact (h.slots.map Prod.snd).append_left _

theorem shownText (h : β.Reorders γ) : γ.shownText = β.shownText := by
  unfold Bond.shownText Model.shownText
  rw [h.keysIn, h.text, h.get?]

theorem get?_before (h : β.Reorders γ) (name : String) :
    γ.before.attributes.get? name = β.before.attributes.get? name :=
  Attributes.find?_perm β.sound.nodup h.entries _

theorem get?_shownAttributes (h : β.Reorders γ) (name : String) :
    γ.shownAttributes.get? name = β.shownAttributes.get? name := by
  by_cases hex : ∃ a ∈ β.before.attributes.entries,
      Text.lower name = Text.lower a.1 ∧ β.data.keysIn a.2 ≠ []
  · obtain ⟨⟨attr, template⟩, hmem, hl, hk⟩ := hex
    have hget : ∀ a : Attributes, a.get? name = a.get? attr := by
      intro a
      unfold Attributes.get?
      rw [hl]
    have hβ := Attributes.get?_showAll β.sound.nodup_lower hmem hk β.before.attributes
    have hγ := Attributes.get?_showAll (d := γ.data) γ.sound.nodup_lower (h.entries.mem_iff.mpr hmem)
      (h.keysIn ▸ hk) γ.before.attributes
    rw [h.keysIn, h.get?, Attributes.get?_setProperty_congr _ β.before.attributes] at hγ
    rw [hget, hget]
    exact hγ.trans hβ.symm
  · have hnone : ∀ a ∈ β.before.attributes.entries, Text.lower name = Text.lower a.1 →
        β.data.keysIn a.2 = [] := fun a ha hl => Classical.not_not.mp fun hk => hex ⟨a, ha, hl, hk⟩
    have hγ : γ.shownAttributes.get? name = γ.before.attributes.get? name :=
      Attributes.get?_showAll_of_not_mem
        (fun a ha hl => h.keysIn ▸ hnone a (h.entries.mem_iff.mp ha) hl) γ.before.attributes
    refine hγ.trans ((h.get?_before name).trans ?_)
    exact (Attributes.get?_showAll_of_not_mem hnone β.before.attributes).symm

theorem event? (h : β.Reorders γ) : γ.event? = β.event? := by
  unfold Bond.event?
  rw [h.tag, Control.classify_congr _ (h.get?_before "type")]

theorem shownEvent? (h : β.Reorders γ) : γ.shownEvent? = β.shownEvent? := by
  unfold Bond.shownEvent?
  rw [h.tag, Control.classify_congr _ (h.get?_shownAttributes "type")]

theorem length_untilType (h : β.Reorders γ) :
    (γ.data.slots (Attributes.untilType γ.before.attributes.entries)).length + γ.behindType
      = (β.data.slots (Attributes.untilType β.before.attributes.entries)).length + β.behindType := by
  rw [γ.length_untilType, β.length_untilType, h.slots.length_eq]

/-- The order decides which slots stand behind the type, and that matters if the event changes. -/
theorem writeBackCount_iff (h : β.Reorders γ) :
    (∀ kind, γ.writeBackCount kind = β.writeBackCount kind)
      ↔ β.KeepsEvent ∨ γ.behindType = β.behindType := by
  have hlength := h.length_untilType
  constructor
  · intro hcount
    by_cases hkeeps : β.KeepsEvent
    · exact Or.inl hkeeps
    · refine Or.inr ?_
      unfold Bond.writeBackCount at hcount
      simp only [h.event?, h.shownEvent?] at hcount
      cases hevent : β.event? with
      | some kind =>
        have hshown : β.shownEvent? ≠ some kind := fun hs => hkeeps (hs.trans hevent.symm)
        have huntil := hcount kind
        rw [if_pos hevent, if_pos hevent, if_neg hshown, if_neg hshown] at huntil
        omega
      | none =>
        obtain ⟨kind, hshown⟩ := Option.ne_none_iff_exists'.mp fun hs => hkeeps (hs.trans hevent.symm)
        have hbehind := hcount kind
        have hnone : (none : Option EventKind) ≠ some kind := nofun
        rw [hevent, if_neg hnone, if_neg hnone, if_pos hshown, if_pos hshown] at hbehind
        omega
  · rintro (hkeeps | hbehind) kind
    · have hkeeps' : γ.KeepsEvent := h.shownEvent?.trans (hkeeps.trans h.event?.symm)
      rw [hkeeps.writeBackCount, hkeeps'.writeBackCount, h.event?, h.slots.length_eq]
    · rw [hbehind] at hlength
      unfold Bond.writeBackCount
      rw [h.event?, h.shownEvent?, hbehind, Nat.add_right_cancel hlength]

end Bond.Reorders

/-! ## Buses that were not used -/

namespace Registry

structure Unused {L : Type} (r : Registry L) : Prop where
  channels : r.channels = []
  idle : r.inFlight = []

variable {r : Registry (Listener κ)}

theorem Unused.heard (h : r.Unused) (event : String) : r.heard event = [] :=
  heard_of_no_channels h.channels event

theorem Unused.quiet (h : r.Unused) : r.Quiet := fun event l hl => by
  rw [h.heard] at hl
  cases hl

theorem Unused.spares (h : r.Unused) (e : ElementId) : r.Spares e := fun event l hl => by
  rw [h.heard] at hl
  cases hl

theorem Unused.listenerCount (h : r.Unused) (event : String) : r.listenerCount event = 0 := by
  rw [listenerCount_eq, h.heard]
  rfl

end Registry

namespace Page

variable {b b' : BusId} {β γ : Bond κ} {p q p' q' : Page κ σ} {r r' : Registry (Listener κ)}
  {m : ModelId} {e : ElementId} {d : Model}

/-- The two elements show the same, and as many listeners wait for each event. -/
structure Alike (b : BusId) (e : ElementId) (p : Page κ σ) (b' : BusId) (e' : ElementId)
    (p' : Page κ σ) : Prop where
  text : p'.textContent e' = p.textContent e
  attributes : ∀ name, (p'.attributesOf e').get? name = (p.attributesOf e).get? name
  listeners : ∀ event, p'.listenerCount b' event = p.listenerCount b event

theorem attributesOf_of_element? {el : PageElement κ} (h : p.element? e = some el) :
    p.attributesOf e = el.attributes := by
  unfold attributesOf
  rw [h]

theorem listenerCount_of_bus? (h : p.bus? b = some r) (event : String) :
    p.listenerCount b event = r.listenerCount event := by
  unfold listenerCount
  rw [h]
  rfl

theorem Makes.alike (h : p.Makes b β q) (h' : p'.Makes b' γ q') (hreorders : β.Reorders γ)
    (hr : p.bus? b = some r) (hr' : p'.bus? b' = some r') (hunused : r.Unused) (hunused' : r'.Unused) :
    Alike b β.element q b' γ.element q' where
  text := by rw [h.text, h'.text, hreorders.shownText]
  attributes name := by
    obtain ⟨el, hel, -, hattrs, -⟩ := h.element
    obtain ⟨el', hel', -, hattrs', -⟩ := h'.element
    rw [attributesOf_of_element? hel, attributesOf_of_element? hel', hattrs, hattrs',
      hreorders.get?_shownAttributes]
  listeners event := by
    rw [h.listenerCount hr, h'.listenerCount hr', listenerCount_of_bus? hr, listenerCount_of_bus? hr',
      hunused.listenerCount, hunused'.listenerCount, hreorders.event, hreorders.keys.countP_eq]

/-! ## A bus without room -/

theorem bindSlots_of_no_key {engine : Engine κ σ} (hm : p.model? m = some d) {template : String}
    {all names : List String} (h : names.filter d.contains = []) :
    engine.bindSlots b m e template all names p = some (.ok false, p) := by
  induction names with
  | nil => rfl
  | cons name rest ih =>
    have hk : ¬ d.contains name = true := List.filter_eq_nil_iff.mp h name List.mem_cons_self
    rw [bindSlots_cons_of_unknown hm hk]
    rw [List.filter_cons_of_neg hk] at h
    exact ih h

/-- The first key is the last if its value cannot be announced. -/
theorem bindSlots_refused {engine : Engine κ σ} (hm : p.model? m = some d) {template key : String}
    {all names : List String} (hfirst : (names.filter d.contains).head? = some key)
    {failure : BusError} (hrefused : engine.publish b (d.event key) ((d.get? key).getD .null)
      (p.subscribe b (d.event key) (.text (.weak e) (.weak m) template all key)).2 = some (.error failure, q)) :
    engine.bindSlots b m e template all names p = some (.error failure, q) := by
  induction names with
  | nil => cases hfirst
  | cons name rest ih =>
    by_cases hk : d.contains name = true
    · rw [List.filter_cons_of_pos hk] at hfirst
      cases hfirst
      rw [Engine.bindSlots_cons_of_key ((hasKey_of_model? hm _).trans hk), eventOf_of_model? hm,
        valueOf_of_model? hm, Run.bind_of_eq hrefused]
      rfl
    · rw [bindSlots_cons_of_unknown hm hk]
      rw [List.filter_cons_of_neg hk] at hfirst
      exact ih hfirst

theorem publish_refused (callbacks : Callbacks κ σ) (hr : p.bus? b = some r) (hunused : r.Unused)
    (hdepth : r.maxDepth = 0) (event : String) {l : Listener κ} (hl : l.isBinding = true)
    (value : Value) (n : Nat) :
    (Engine.ofFrames callbacks (n + 1)).publish b event value (p.subscribe b event l).2
      = some (.error (.depthExceeded event 0), (p.subscribe b event l).2) := by
  have hbus : (p.subscribe b event l).2.bus? b = some (r.addAll [(event, l)]) := by
    rw [subscribe_of_some hr]
    exact bus?_modifyBus_self hr _
  have hquiet : (r.addAll [(event, l)]).Quiet :=
    quiet_addAll hunused.quiet fun x hx => by rw [List.mem_singleton.mp hx]; exact hl
  have henter : (r.addAll [(event, l)]).enter event = .error (.depthExceeded event 0) := by
    have hc := r.channel?_subscribe event l event
    rw [if_pos rfl] at hc
    refine (Registry.enter_of_some hc).trans ?_
    rw [Registry.inFlight_subscribe, hunused.idle, Registry.maxDepth_subscribe, hdepth,
      if_neg List.not_mem_nil, if_pos (Nat.zero_le _)]
  rw [Engine.ofFrames_succ]
  refine (Engine.publishWith_quiet callbacks _ value hquiet hbus).trans ?_
  rw [henter]

theorem bindText_hold (engine : Engine κ σ) (hfits : p.Fits β) :
    engine.bindText b β.model β.element ((p.hold (.element β.element)).hold (.model β.model))
      = (engine.bindSlots b β.model β.element β.text (Template.names β.text) (Template.names β.text)
          ((p.hold (.element β.element)).hold (.model β.model))).map fun a => (a.1.map fun bound =>
            if bound then some ⟨β.element, .text, β.text, Template.names β.text⟩ else none, a.2) := by
  rw [Engine.bindText_eq, textContent_hold, textContent_hold, hfits.text]

/-- Binding an element with a key in its text, on an unused bus without room: the first key has its
listener, and nothing else has happened. -/
theorem refused_bindElement (callbacks : Callbacks κ σ) (hr : p.bus? b = some r) (hunused : r.Unused)
    (hdepth : r.maxDepth = 0) (hfits : p.Fits β) {key : String}
    (hkey : (β.data.keysIn β.text).head? = some key) :
    ∃ q, (∀ n, (Engine.ofFrames callbacks (n + 1)).bindElement b β.model β.element p
        = some (.error (.depthExceeded (β.data.event key) 0), q)) ∧
      q.elements = p.elements ∧
      q.bus? b = some (r.addAll [(β.data.event key, β.following key)]) := by
  have htext : ∀ n, (Engine.ofFrames callbacks (n + 1)).bindText b β.model β.element
      ((p.hold (.element β.element)).hold (.model β.model))
        = some (.error (.depthExceeded (β.data.event key) 0),
          (((p.hold (.element β.element)).hold (.model β.model)).subscribe b (β.data.event key)
            (β.following key)).2) := by
    intro n
    rw [bindText_hold _ hfits, bindSlots_refused (p := (p.hold _).hold _) hfits.model hkey
      (publish_refused (p := (p.hold _).hold _) callbacks hr hunused hdepth (β.data.event key) rfl _ n)]
    rfl
  refine ⟨_, fun n => Run.holding_of_eq (Run.holding_of_eq (Run.bind_of_eq (htext n) _)), ?_, ?_⟩
  · rw [subscribe_of_some (p := (p.hold _).hold _) hr]
    rfl
  · rw [subscribe_of_some (p := (p.hold _).hold _) hr]
    exact bus?_modifyBus_self (p := (p.hold _).hold _) hr _

theorem makes_of_unused (callbacks : Callbacks κ σ) (hr : p.bus? b = some r) (hunused : r.Unused)
    (hroom : β.data.keysIn β.text = [] ∨ 1 ≤ r.maxDepth) (hfits : p.Fits β) :
    ∃ q, (∀ n, (Engine.ofFrames callbacks (n + 1)).bindElement b β.model β.element p
        = some (.ok β.targets, q)) ∧ p.Makes b β q := by
  have hgood : ∃ targets q, ∀ n, (Engine.ofFrames callbacks (n + 1)).bindElement b β.model β.element p
      = some (.ok targets, q) := by
    rcases hroom with hk | hroom
    · have htext : ∀ n, (Engine.ofFrames callbacks (n + 1)).bindText b β.model β.element
          ((p.hold (.element β.element)).hold (.model β.model))
            = some (.ok none, (p.hold (.element β.element)).hold (.model β.model)) := by
        intro n
        rw [bindText_hold _ hfits, bindSlots_of_no_key (p := (p.hold _).hold _) hfits.model hk]
        rfl
      exact ⟨_, _, fun n => Run.holding_of_eq (Run.holding_of_eq (Run.bind_of_eq (htext n) _))⟩
    · obtain ⟨targets, q, hbind, -⟩ := Engine.bindElement_of_calm callbacks
        (calmOn_of_bus? hr ⟨hunused.quiet, hunused.idle, hroom⟩) β.model β.element
      exact ⟨targets, q, hbind⟩
  obtain ⟨targets, q, hbind⟩ := hgood
  obtain ⟨rfl, hmakes⟩ := makes_of_bindElement (Engine.publishes_ofFrames callbacks 1) hr
    hunused.quiet hfits (hunused.spares β.element) (hbind 0)
  exact ⟨q, hbind, hmakes⟩

theorem alike_of_refused (hreorders : β.Reorders γ) (hfits : p.Fits β) (hfits' : p'.Fits γ)
    (hunused : r.Unused) (hunused' : r'.Unused) {key : String} (hq : q.elements = p.elements)
    (hq' : q'.elements = p'.elements)
    (hbus : q.bus? b = some (r.addAll [(β.data.event key, β.following key)]))
    (hbus' : q'.bus? b' = some (r'.addAll [(γ.data.event key, γ.following key)])) :
    Alike b β.element q b' γ.element q' where
  text := by
    rw [textContent_of_elements hq, textContent_of_elements hq', hfits.text, hfits'.text,
      hreorders.text]
  attributes name := by
    rw [attributesOf_of_element? ((element?_of_elements hq _).trans hfits.element),
      attributesOf_of_element? ((element?_of_elements hq' _).trans hfits'.element),
      hreorders.get?_before]
  listeners event := by
    rw [listenerCount_of_bus? hbus, listenerCount_of_bus? hbus', Registry.listenerCount_addAll,
      Registry.listenerCount_addAll, hunused.listenerCount, hunused'.listenerCount, hreorders.event]
    rfl

end Page

/-- Two elements that differ in the order of their attributes and have as many handlers are bound to
equal data, each on an unused bus.  Binding ends well for both or for none, and afterwards they show the
same and have as many listeners.  If it ended well, they have as many handlers unless the filled type
changed the event and not as many slots stand behind it. -/
theorem attribute_order_leaves_no_trace (callbacks : Callbacks κ σ) {b b' : BusId} {β γ : Bond κ}
    {p p' : Page κ σ} {r r' : Registry (Listener κ)} (hr : p.bus? b = some r)
    (hr' : p'.bus? b' = some r') (hunused : r.Unused) (hunused' : r'.Unused)
    (hdepth : r'.maxDepth = r.maxDepth) (hfits : p.Fits β) (hfits' : p'.Fits γ)
    (hreorders : β.Reorders γ)
    (hhandlers : ∀ kind, (p'.handlers γ.element kind).length = (p.handlers β.element kind).length) :
    ∃ outcome outcome' q q',
      (∀ n, (Engine.ofFrames callbacks (n + 1)).bindElement b β.model β.element p = some (outcome, q)) ∧
      (∀ n, (Engine.ofFrames callbacks (n + 1)).bindElement b' γ.model γ.element p'
        = some (outcome', q')) ∧
      outcome'.isOk = outcome.isOk ∧ Page.Alike b β.element q b' γ.element q' ∧
      ((∀ kind, (q'.handlers γ.element kind).length = (q.handlers β.element kind).length) ↔
        (outcome.isOk = true → β.KeepsEvent ∨ γ.behindType = β.behindType)) := by
  by_cases hroom : β.data.keysIn β.text = [] ∨ 1 ≤ r.maxDepth
  · have hroom' : γ.data.keysIn γ.text = [] ∨ 1 ≤ r'.maxDepth := by
      rw [hreorders.keysIn, hreorders.text, hdepth]
      exact hroom
    obtain ⟨q, hbind, hmakes⟩ := Page.makes_of_unused callbacks hr hunused hroom hfits
    obtain ⟨q', hbind', hmakes'⟩ := Page.makes_of_unused callbacks hr' hunused' hroom' hfits'
    refine ⟨_, _, q, q', hbind, hbind', rfl, hmakes.alike hmakes' hreorders hr hr' hunused hunused', ?_⟩
    have hcounts : (∀ kind, (q'.handlers γ.element kind).length = (q.handlers β.element kind).length)
        ↔ ∀ kind, γ.writeBackCount kind = β.writeBackCount kind := by
      refine forall_congr' fun kind => ?_
      rw [hmakes.handlers, hmakes'.handlers, hhandlers, Nat.add_left_cancel_iff]
    rw [hcounts, hreorders.writeBackCount_iff]
    exact ⟨fun h _ => h, fun h => h rfl⟩
  · obtain ⟨hkeys, hfull⟩ := not_or.mp hroom
    have hzero : r.maxDepth = 0 := Nat.lt_one_iff.mp (Nat.lt_of_not_le hfull)
    obtain ⟨key, rest, hkey⟩ := List.exists_cons_of_ne_nil hkeys
    have hfirst : (β.data.keysIn β.text).head? = some key := congrArg List.head? hkey
    have hfirst' : (γ.data.keysIn γ.text).head? = some key := by
      rw [hreorders.keysIn, hreorders.text]
      exact hfirst
    obtain ⟨q, hbind, hq, hbus⟩ :=
      Page.refused_bindElement callbacks hr hunused hzero hfits hfirst
    obtain ⟨q', hbind', hq', hbus'⟩ :=
      Page.refused_bindElement callbacks hr' hunused' (hdepth.trans hzero) hfits' hfirst'
    refine ⟨_, _, q, q', hbind, hbind', rfl,
      Page.alike_of_refused hreorders hfits hfits' hunused hunused' hq hq' hbus hbus',
      fun _ h => absurd h nofun, fun _ kind => ?_⟩
    rw [Page.handlers_congr (Page.element?_of_elements hq _),
      Page.handlers_congr (Page.element?_of_elements hq' _), hhandlers]

/-! ## An input whose type is filled -/

def typeAndValue (type : String) : Model := ⟨⟨0⟩, "m", [("t", .text type), ("v", .text "5")], []⟩

def typedPage (type : String) (entries : List (String × String)) : Page Unit Unit :=
  { buses := #[{ maxDepth := 1 }]
    models := #[typeAndValue type]
    elements := #[{ tag := "input", attributes := ⟨entries⟩ }]
    held := [.element ⟨0⟩, .model ⟨0⟩]
    host := () }

def typeFirst : Bond Unit where
  model := ⟨0⟩
  data := typeAndValue "number"
  element := ⟨0⟩
  before := { tag := "input", attributes := ⟨[("type", "${t}"), ("value", "${v}")]⟩ }
  text := ""
  sound := ⟨by decide, by decide⟩
  known := nofun

def valueFirst : Bond Unit where
  model := ⟨0⟩
  data := typeAndValue "number"
  element := ⟨0⟩
  before := { tag := "input", attributes := ⟨[("value", "${v}"), ("type", "${t}")]⟩ }
  text := ""
  sound := ⟨by decide, by decide⟩
  known := nofun

/-- Number inputs are written back on the same event as texts, so the type may come first or last. -/
theorem number_type_leaves_no_trace :
    typeFirst.Reorders valueFirst ∧ typeFirst.KeepsEvent ∧
      typeFirst.behindType = 1 ∧ valueFirst.behindType = 0 ∧
      ∃ outcome outcome' q q', (Engine.ofFrames idleCode 1).bindElement ⟨0⟩ ⟨0⟩ ⟨0⟩
          (typedPage "number" typeFirst.before.attributes.entries) = some (outcome, q) ∧
        (Engine.ofFrames idleCode 1).bindElement ⟨0⟩ ⟨0⟩ ⟨0⟩
          (typedPage "number" valueFirst.before.attributes.entries) = some (outcome', q') ∧
        outcome'.isOk = outcome.isOk ∧ Page.Alike ⟨0⟩ ⟨0⟩ q ⟨0⟩ ⟨0⟩ q' ∧
        ∀ kind, (q'.handlers ⟨0⟩ kind).length = (q.handlers ⟨0⟩ kind).length := by
  have hreorders : typeFirst.Reorders valueFirst :=
    ⟨rfl, rfl, rfl, rfl, List.Perm.swap _ _ []⟩
  have hkeeps : typeFirst.KeepsEvent := by
    unfold Bond.KeepsEvent
    decide +kernel
  have hfits : (typedPage "number" typeFirst.before.attributes.entries).Fits typeFirst :=
    ⟨rfl, rfl, by decide +kernel⟩
  have hfits' : (typedPage "number" valueFirst.before.attributes.entries).Fits valueFirst :=
    ⟨rfl, rfl, by decide +kernel⟩
  have hbus : (typedPage "number" typeFirst.before.attributes.entries).bus? ⟨0⟩
      = some { maxDepth := 1 } := rfl
  have hbus' : (typedPage "number" valueFirst.before.attributes.entries).bus? ⟨0⟩
      = some { maxDepth := 1 } := rfl
  have hunused : ({ maxDepth := 1 } : Registry (Listener Unit)).Unused := ⟨rfl, rfl⟩
  obtain ⟨outcome, outcome', q, q', hbind, hbind', hok, halike, hhandlers⟩ :=
    attribute_order_leaves_no_trace idleCode hbus hbus' hunused hunused rfl hfits hfits' hreorders
      fun _ => rfl
  exact ⟨hreorders, hkeeps, by decide +kernel, by decide +kernel, outcome, outcome', q, q', hbind 0,
    hbind' 0, hok, halike, hhandlers.mpr fun _ => Or.inl hkeeps⟩

/-- How many handlers of both kinds an input has when it is bound. -/
def handlerCounts (type : String) (entries : List (String × String)) : Option (Nat × Nat) :=
  ((Engine.ofFrames idleCode 1).bindElement ⟨0⟩ ⟨0⟩ ⟨0⟩ (typedPage type entries)).map fun x =>
    ((x.2.handlers ⟨0⟩ .input).length, (x.2.handlers ⟨0⟩ .change).length)

/-- Check boxes are written back on another event than texts, and then the order leaves a trace. -/
theorem checkbox_type_leaves_trace :
    handlerCounts "checkbox" [("type", "${t}"), ("value", "${v}")] = some (1, 1) ∧
      handlerCounts "checkbox" [("value", "${v}"), ("type", "${t}")] = some (2, 0) := by
  decide +kernel

end Bindery
