import Bindery.Proofs.Binding.Bonds
import Bindery.Proofs.Binding.Children

/-!
# What making a bond leaves behind

An element that no listener writes is bound on a quiet bus.  The values in its text are replayed one
after the other, and the last replay decides what the text shows.  The attributes are listed then, as
they were before, and filled one after the other.  Meanwhile a `type` that is filled may turn the element
into another control.

* `Bond.targets`, `Bond.shownText`, `Bond.shownAttributes`   what there is afterwards
* `shown_bindText`             the text after the replays
* `handlers_bindAttributes`    the handlers, up to the type and behind it
* `Page.Makes`                 all that making a bond changes
* `makes_of_bindElement`       and that binding an element does no more
-/

namespace Bindery

variable {κ σ : Type}

namespace Model

def target? (d : Model) (e : ElementId) (spot : Spot) (template : String) : Option Target :=
  if d.keysIn template = [] then none else some ⟨e, spot, template, Template.names template⟩

/-- The text that shows after the values of its keys were announced one after the other. -/
def shownText (d : Model) (template : String) : String :=
  match (d.keysIn template).getLast? with
  | some key => Template.render template (Template.names template) key ((d.get? key).getD .null) d.get?
  | none => template

theorem shownText_of_tidy {d : Model} {template : String} (ht : Template.Tidy template)
    (hp : ∀ n ∈ Template.names template, ∀ v, d.get? n = some v → v.Plain) :
    d.shownText template = Template.fill d.get? template := by
  unfold shownText
  cases hk : (d.keysIn template).getLast? with
  | none =>
    refine (Template.fill_of_none fun n hn => ?_).symm
    rw [← Option.not_isSome_iff_eq_none]
    intro hs
    have hmem : n ∈ d.keysIn template := mem_keysIn.mpr ⟨hn, hs⟩
    rw [List.getLast?_eq_none_iff.mp hk] at hmem
    cases hmem
  | some key =>
    obtain ⟨hmem, hc⟩ := mem_keysIn.mp (List.mem_of_getLast? hk)
    obtain ⟨v, hv⟩ := Option.isSome_iff_exists.mp hc
    have hv' : d.get? key = some v := hv
    show Template.render template _ key ((d.get? key).getD .null) d.get? = _
    rw [hv', Option.getD_some]
    exact Template.render_eq_fill ht hp hmem hv'

end Model

namespace Attributes

def untilType : List (String × String) → List (String × String)
  | [] => []
  | x :: rest => if Text.lower x.1 = "type" then [x] else x :: untilType rest

def behindType : List (String × String) → List (String × String)
  | [] => []
  | x :: rest => if Text.lower x.1 = "type" then rest else behindType rest

theorem untilType_cons (x : String × String) (rest : List (String × String)) :
    untilType (x :: rest) = if Text.lower x.1 = "type" then [x] else x :: untilType rest := rfl

theorem behindType_cons (x : String × String) (rest : List (String × String)) :
    behindType (x :: rest) = if Text.lower x.1 = "type" then rest else behindType rest := rfl

theorem untilType_append_behindType (l : List (String × String)) :
    untilType l ++ behindType l = l := by
  induction l with
  | nil => rfl
  | cons x rest ih =>
    rw [untilType_cons, behindType_cons]
    split
    · rfl
    · rw [List.cons_append, ih]

end Attributes

theorem Model.length_slots_until_behind (d : Model) (l : List (String × String)) :
    (d.slots (Attributes.untilType l)).length + (d.slots (Attributes.behindType l)).length
      = (d.slots l).length := by
  have happend : d.slots (Attributes.untilType l ++ Attributes.behindType l)
      = d.slots (Attributes.untilType l) ++ d.slots (Attributes.behindType l) := List.flatMap_append
  rw [← List.length_append, ← happend, Attributes.untilType_append_behindType]

namespace Bond

def targets (β : Bond κ) : List Target :=
  (β.data.target? β.element .text β.text).toList ++
    β.before.attributes.entries.filterMap fun a => β.data.target? β.element (.property a.1) a.2

def shownText (β : Bond κ) : String := β.data.shownText β.text

def shownAttributes (β : Bond κ) : Attributes :=
  β.before.attributes.showAll β.data β.before.attributes.entries

def event? (β : Bond κ) : Option EventKind :=
  (Control.classify β.before.tag β.before.attributes).map Control.event

def shownEvent? (β : Bond κ) : Option EventKind :=
  (Control.classify β.before.tag β.shownAttributes).map Control.event

def behindType (β : Bond κ) : Nat :=
  (β.data.slots (Attributes.behindType β.before.attributes.entries)).length

/-- How many handlers of a kind binding adds to the element.  The type is filled on the way: slots
behind it are written back on the event of the new control. -/
def writeBackCount (β : Bond κ) (kind : EventKind) : Nat :=
  (if β.event? = some kind
    then (β.data.slots (Attributes.untilType β.before.attributes.entries)).length else 0)
  + if β.shownEvent? = some kind then β.behindType else 0

/-- With its attributes filled, the element writes back on the same event. -/
def KeepsEvent (β : Bond κ) : Prop := β.shownEvent? = β.event?

theorem length_untilType (β : Bond κ) :
    (β.data.slots (Attributes.untilType β.before.attributes.entries)).length + β.behindType
      = β.slots.length := β.data.length_slots_until_behind _

theorem KeepsEvent.writeBackCount {β : Bond κ} (h : β.KeepsEvent) (kind : EventKind) :
    β.writeBackCount kind = if β.event? = some kind then β.slots.length else 0 := by
  unfold Bond.writeBackCount
  rw [h, ← β.length_untilType]
  split <;> rfl

end Bond

theorem Control.classify_congr {a a' : Attributes} (tag : String)
    (h : a'.get? "type" = a.get? "type") : classify tag a' = classify tag a := by
  unfold classify Attributes.inputType
  rw [h]

theorem Bond.KeepsType.keepsEvent {β : Bond κ} (h : β.KeepsType) : β.KeepsEvent := by
  unfold Bond.KeepsEvent Bond.shownEvent? Bond.event? Bond.shownAttributes
  rw [Control.classify_congr _ (Attributes.get?_showAll_of_not_mem (fun a ha hl => ?_) _)]
  exact h a ha hl.symm

theorem Registry.Spares.element?_ne {r : Registry (Listener κ)} {c : ElementId} (h : r.Spares c)
    {event : String} {l : Listener κ} (hl : l ∈ r.heard event) : l.element? ≠ some c := by
  obtain ⟨htext, hproperty⟩ := h event l hl
  cases l with
  | text x m template names changed =>
    have hx : x.target ≠ c := of_decide_eq_false htext
    exact fun he => hx (Option.some.inj he)
  | property x name =>
    intro he
    have hx : (Listener.property x name : Listener κ).propertyOn c = some name :=
      if_pos (Option.some.inj he)
    rw [hx] at hproperty
    cases hproperty
  | callback code => nofun

namespace Page

variable {b : BusId} {m : ModelId} {e : ElementId} {d : Model} {p q : Page κ σ}

/-! ## The text -/

/-- A value that reaches a text last is the one that the text was filled for. -/
theorem textContent_receiveAll_concat {ls : List (Listener κ)} {template changed : String}
    {names : List String} (value : Value) (he : .element e ∈ p.held) (hm : .model m ∈ p.held)
    (hd : p.model? m = some d) (hel : ∃ el, p.element? e = some el) :
    (p.receiveAll value (ls ++ [.text (.weak e) (.weak m) template names changed])).textContent e
      = Template.render template names changed value d.get? := by
  have hheld : (p.receiveAll value ls).held = p.held := held_receiveAll p ls
  have halive : ((p.receiveAll value ls).elementAlive e && (p.receiveAll value ls).modelAlive m)
      = true := by
    rw [elementAlive_of_isRooted (isRooted_of_held (hheld ▸ he)), modelAlive_of_held (hheld ▸ hm)]
    rfl
  obtain ⟨el, hel⟩ := hel
  obtain ⟨el', hel', -⟩ := element?_receiveAll value hel ls
  have hlast : p.receiveAll value (ls ++ [.text (.weak e) (.weak m) template names changed])
      = (p.receiveAll value ls).receive value (.text (.weak e) (.weak m) template names changed) :=
    List.foldl_concat ..
  rw [hlast, receive_text, Captured.target_weak, Captured.target_weak, if_pos halive,
    textContent_setText hel']
  unfold Engine.renderedText
  rw [model?_receiveAll, hd]
  rfl

/-- One replay: the new listener is the last to fill the text, and an element that no listener writes
is left alone. -/
theorem shown_replay {r : Registry (Listener κ)} (hr : p.bus? b = some r) (hm : p.model? m = some d)
    (hheld : .element e ∈ p.held) (hmodel : .model m ∈ p.held) (hel : ∃ el, p.element? e = some el)
    (event template changed : String) (names : List String) (value : Value) :
    let q := (p.subscribe b event (.text (.weak e) (.weak m) template names changed)).2.receiveAll value
      ((r.addAll [(event, .text (.weak e) (.weak m) template names changed)]).heard event)
    q.textContent e = Template.render template names changed value d.get? ∧
      ∀ c, c ≠ e → r.Spares c → q.element? c = p.element? c := by
  have hlast : (r.addAll [(event, .text (.weak e) (.weak m) template names changed)]).heard event
      = r.heard event ++ [.text (.weak e) (.weak m) template names changed] := by
    rw [heard_addAll, List.filter_cons_of_pos (by simp)]
    rfl
  dsimp only
  rw [subscribe_of_some hr, hlast]
  refine ⟨textContent_receiveAll_concat value hheld hmodel hm hel, fun c hc hs => ?_⟩
  refine element?_receiveAll_of_apart fun l hl => ?_
  rcases List.mem_append.mp hl with hl | hl
  · exact hs.element?_ne hl
  · rw [List.mem_singleton.mp hl]
    exact fun h => hc (Option.some.inj h).symm

/-- Binding slots on a quiet bus, if it ends well.  The text shows what the last key made of it, and
an element that no listener writes is left alone. -/
theorem shown_bindSlots {callbacks : Callbacks κ σ} {engine : Engine κ σ}
    (he : engine.Publishes callbacks) {template : String} {all names : List String}
    {r : Registry (Listener κ)} (hr : p.bus? b = some r) (hq : r.Quiet) (hm : p.model? m = some d)
    (hheld : .element e ∈ p.held) (hmodel : .model m ∈ p.held) (hel : ∃ el, p.element? e = some el)
    {bound : Bool} (h : engine.bindSlots b m e template all names p = some (.ok bound, q)) :
    (names.filter d.contains = [] → bound = false ∧ q = p) ∧
    (∀ key, (names.filter d.contains).getLast? = some key → bound = true ∧
      q.textContent e = Template.render template all key ((d.get? key).getD .null) d.get?) ∧
    ∀ c, c ≠ e → r.Spares c → q.element? c = p.element? c := by
  induction names generalizing p r bound with
  | nil =>
    cases h
    exact ⟨fun _ => ⟨rfl, rfl⟩, nofun, fun _ _ _ => rfl⟩
  | cons name rest ih =>
    by_cases hk : d.contains name = true
    · obtain ⟨rfl, bound', h⟩ := bindSlots_cons_of_quiet he hr hq hm hk h
      have hstep := Replayed.step hr (d.event name)
        (rfl : ((.text (.weak e) (.weak m) template all name : Listener κ)).isBinding = true) (fun _ => rfl)
        ((d.get? name).getD .null)
      obtain ⟨htext, hothers⟩ := shown_replay hr hm hheld hmodel hel (d.event name) template name all
        ((d.get? name).getD .null)
      generalize (p.subscribe b (d.event name) (.text (.weak e) (.weak m) template all name)).2.receiveAll
        ((d.get? name).getD .null)
        ((r.addAll [(d.event name, .text (.weak e) (.weak m) template all name)]).heard (d.event name)) = p₁
        at h hstep htext hothers
      have hheld₁ : p₁.held = p.held := by rw [hstep.rest]
      obtain ⟨hnone, hlast, hrest⟩ := ih (hstep.registry r hr)
        (quiet_addAll hq fun l hl => (hstep.quiet l hl).1) ((hstep.model? m).trans hm)
        (hheld₁ ▸ hheld) (hheld₁ ▸ hmodel) (hel.elim fun _ hd => exists_element_of_size hstep.size hd) h
      rw [List.filter_cons_of_pos hk]
      refine ⟨nofun, fun key hkey => ⟨rfl, ?_⟩, fun c hc hs => (hrest c hc ?_).trans (hothers c hc hs)⟩
      · cases hkeys : rest.filter d.contains with
        | nil =>
          rw [hkeys, List.getLast?_singleton, Option.some.injEq] at hkey
          rw [(hnone hkeys).2, htext, hkey]
        | cons k keys =>
          rw [hkeys, List.getLast?_cons_cons, ← hkeys] at hkey
          exact (hlast key hkey).2
      · refine Registry.spares_addAll hs fun l hl => ?_
        rw [List.mem_singleton.mp hl]
        exact ⟨decide_eq_false (Ne.symm hc), rfl⟩
    · rw [bindSlots_cons_of_unknown hm hk] at h
      rw [List.filter_cons_of_neg hk]
      exact ih hr hq hm hheld hmodel hel h

theorem shown_bindText {callbacks : Callbacks κ σ} {engine : Engine κ σ}
    (he : engine.Publishes callbacks) {r : Registry (Listener κ)} (hr : p.bus? b = some r)
    (hq : r.Quiet) {β : Bond κ} (hfits : p.Fits β) {target : Option Target}
    (h : engine.bindText b β.model β.element ((p.hold (.element β.element)).hold (.model β.model))
      = some (.ok target, q)) :
    target = β.data.target? β.element .text β.text ∧ q.textContent β.element = β.shownText ∧
    (β.data.keysIn β.text = [] → q.element? β.element = p.element? β.element) ∧
    ∀ c, c ≠ β.element → r.Spares c → q.element? c = p.element? c := by
  have hcontent : ((p.hold (.element β.element)).hold (.model β.model)).textContent β.element
      = β.text := by
    rw [textContent_hold, textContent_hold, hfits.text]
  obtain ⟨bound, hslots, rfl⟩ := Engine.bindText_eq_some h
  rw [hcontent] at hslots ⊢
  obtain ⟨hnone, hlast, hothers⟩ :=
    shown_bindSlots (p := (p.hold (.element β.element)).hold (.model β.model)) he hr hq hfits.model
      (List.mem_cons_of_mem _ List.mem_cons_self) List.mem_cons_self ⟨_, hfits.element⟩ hslots
  unfold Model.target? Bond.shownText Model.shownText
  by_cases hk : β.data.keysIn β.text = []
  · obtain ⟨rfl, rfl⟩ := hnone hk
    rw [if_pos hk, hk]
    exact ⟨rfl, hcontent, fun _ => rfl, hothers⟩
  · have hkey := List.getLast?_eq_some_getLast hk
    obtain ⟨rfl, htext⟩ := hlast _ hkey
    rw [if_neg hk, hkey]
    exact ⟨rfl, htext, fun h => absurd h hk, hothers⟩

/-! ## The attributes -/

theorem bindAttributes_cons (b : BusId) (m : ModelId) (e : ElementId) (x : String × String)
    (rest : List (String × String)) (p : Page κ σ) :
    p.bindAttributes b m e (x :: rest)
      = ((p.bindAttribute b m e x.1 x.2).1.toList
          ++ ((p.bindAttribute b m e x.1 x.2).2.bindAttributes b m e rest).1,
        ((p.bindAttribute b m e x.1 x.2).2.bindAttributes b m e rest).2) := rfl

theorem target_bindAttribute (b : BusId) (e : ElementId) (hm : p.model? m = some d)
    (attr template : String) :
    (p.bindAttribute b m e attr template).1 = d.target? e (.property attr) template := by
  have hany : (Template.names template).any (p.hasKey m) = true ↔ d.keysIn template ≠ [] := by
    unfold Model.keysIn
    rw [List.any_eq_true, Ne, List.filter_eq_nil_iff]
    simp [hasKey_of_model? hm]
  unfold bindAttribute Template.names?
  cases hn : Template.names template with
  | nil =>
    have hempty : d.keysIn template = [] := by
      unfold Model.keysIn
      rw [hn]
      rfl
    exact (if_pos hempty).symm
  | cons name names =>
    show (if (name :: names).any (p.hasKey m) = true then
      some (⟨e, .property attr, template, name :: names⟩ : Target) else none) = _
    rw [← hn]
    unfold Model.target?
    by_cases hk : d.keysIn template = []
    · rw [if_pos hk, if_neg fun h => hany.mp h hk]
    · rw [if_neg hk, if_pos (hany.mpr hk)]

theorem targets_bindAttributes (b : BusId) (e : ElementId) (hm : p.model? m = some d)
    (entries : List (String × String)) :
    (p.bindAttributes b m e entries).1
      = entries.filterMap fun a => d.target? e (.property a.1) a.2 := by
  induction entries generalizing p with
  | nil => rfl
  | cons x rest ih =>
    rw [bindAttributes_cons, List.filterMap_cons, target_bindAttribute b e hm,
      ih (((wired_bindAttribute b e hm x.1 x.2).model? m).trans hm)]
    cases d.target? e (.property x.1) x.2 <;> rfl

theorem length_writeBacks (m : ModelId) (control : Option Control) (slots : List (String × String))
    (kind : EventKind) :
    ((writeBacks m control slots : List (EventKind × Handler κ)).filter (·.1 = kind)).length
      = if control.map Control.event = some kind then slots.length else 0 := by
  cases control with
  | none => rfl
  | some c =>
    show ((slots.map _).filter _).length = if some c.event = some kind then _ else _
    rw [List.filter_map, List.length_map]
    by_cases hc : c.event = kind
    · rw [if_pos (congrArg some hc), List.filter_eq_self.mpr]
      exact fun s _ => decide_eq_true hc
    · rw [if_neg (fun h => hc (Option.some.inj h)), List.filter_eq_nil_iff.mpr]
      · rfl
      · exact fun s _ h => hc (of_decide_eq_true h)

/-- The handlers of an element after its attributes were bound.  Up to its type it writes back on the
event it had, and from there on the one it has when all is filled. -/
theorem handlers_bindAttributes (b : BusId) (hm : p.model? m = some d) {el : PageElement κ}
    (hel : p.element? e = some el) {entries : List (String × String)}
    (hn : (entries.map fun x => Text.lower x.1).Nodup) (kind : EventKind) :
    ((p.bindAttributes b m e entries).2.handlers e kind).length
      = (p.handlers e kind).length
        + ((if (Control.classify el.tag el.attributes).map Control.event = some kind
            then (d.slots (Attributes.untilType entries)).length else 0)
          + if (Control.classify el.tag (el.attributes.showAll d entries)).map Control.event = some kind
            then (d.slots (Attributes.behindType entries)).length else 0) := by
  induction entries generalizing p el with
  | nil =>
    show _ = (p.handlers e kind).length + ((if _ then 0 else 0) + if _ then 0 else 0)
    rw [ite_self, ite_self]
    rfl
  | cons x rest ih =>
    rw [List.map_cons, List.nodup_cons] at hn
    have hwired := wired_bindAttribute b e hm x.1 x.2
    have hel₁ := hwired.element el hel
    have hcontrol : p.controlOf e = Control.classify el.tag el.attributes := by
      unfold controlOf
      rw [hel]
      rfl
    have hone : ((p.bindAttribute b m e x.1 x.2).2.handlers e kind).length
        = (p.handlers e kind).length
          + if (Control.classify el.tag el.attributes).map Control.event = some kind
            then (d.keysIn x.2).length else 0 := by
      rw [handlers_of_element? hel₁, handlers_of_element? hel, List.length_map, List.length_map,
        List.filter_append, List.length_append, length_writeBacks, hcontrol, List.length_map]
    have hslots : ∀ l, (d.slots (x :: l)).length = (d.keysIn x.2).length + (d.slots l).length := by
      intro l
      show ((d.keysIn x.2).map _ ++ d.slots l).length = _
      rw [List.length_append, List.length_map]
    have htype : Text.lower "type" = "type" := by decide
    rw [bindAttributes_cons, ih ((hwired.model? m).trans hm) hel₁ hn.2, hone, Nat.add_assoc]
    have hthen : el.attributes.showAll d (x :: rest)
        = (el.attributes.showEach d x.1 (d.keysIn x.2) x.2).showAll d rest := rfl
    rw [hthen, Attributes.untilType_cons, Attributes.behindType_cons]
    dsimp only
    by_cases hl : Text.lower x.1 = "type"
    · -- no other attribute fills the type, so the control is now what it will be
      have hlater : ((el.attributes.showEach d x.1 (d.keysIn x.2) x.2).showAll d rest).get? "type"
          = (el.attributes.showEach d x.1 (d.keysIn x.2) x.2).get? "type" :=
        Attributes.get?_showAll_of_not_mem (fun a ha hla =>
          absurd (List.mem_map.mpr ⟨a, ha, hla.symm.trans (htype.trans hl.symm)⟩) hn.1) _
      rw [Control.classify_congr el.tag hlater, if_pos hl, if_pos hl, hslots,
        ← d.length_slots_until_behind rest]
      refine congrArg ((p.handlers e kind).length + ·) (congrArg₂ (· + ·) rfl ?_)
      split <;> rfl
    · rw [Control.classify_congr el.tag (Attributes.get?_showEach_of_ne
        (fun h => hl (h.symm.trans htype)) _ _ _), if_neg hl, if_neg hl, hslots]
      refine congrArg ((p.handlers e kind).length + ·) ?_
      rw [← Nat.add_assoc]
      refine congrArg₂ (· + ·) ?_ rfl
      split <;> rfl

theorem Wired.textContent {ls : List (String × Listener κ)} {hs : List (EventKind × Handler κ)}
    {f : Attributes → Attributes} (h : Wired b e p q ls hs f) (c : ElementId) :
    q.textContent c = p.textContent c := by
  refine textContent_of_sameChildren h.size (fun x => ?_) c
  unfold SameChildren
  by_cases hx : x = e
  · subst hx
    cases hel : p.element? x with
    | none => rw [element?_eq_none_of_size h.size hel]
    | some el =>
      rw [h.element el hel]
      rfl
  · rw [h.elements x hx]

theorem handlers_congr {c : ElementId} (h : q.element? c = p.element? c) (kind : EventKind) :
    q.handlers c kind = p.handlers c kind := by
  unfold handlers
  rw [h]

theorem Replayed.handlers {ls : List (String × Listener κ)} {anns : List (String × Value)}
    (h : Replayed b p q ls anns) {r : Registry (Listener κ)} (hr : p.bus? b = some r)
    (c : ElementId) (kind : EventKind) : q.handlers c kind = p.handlers c kind := by
  cases hc : p.element? c with
  | none => exact handlers_congr ((element?_eq_none_of_size h.size hc).trans hc.symm) kind
  | some el =>
    obtain ⟨el', hel', -, hh, -⟩ := h.element r c el hr hc
    rw [handlers_of_element? hel', hh, ← handlers_of_element? hc]

/-! ## The bond -/

/-- From `p` to `q` a bond was made with an element that no listener wrote, and nothing else
happened. -/
structure Makes (b : BusId) (β : Bond κ) (p q : Page κ σ) : Prop where
  rest : q = { p with buses := q.buses, elements := q.elements }
  registry : ∀ r, p.bus? b = some r → q.bus? b = some (r.addAll β.listeners)
  buses : ∀ c, c ≠ b → q.bus? c = p.bus? c
  element : ∃ el, q.element? β.element = some el ∧ el.tag = β.before.tag ∧
    el.attributes = β.shownAttributes ∧
    (β.data.keysIn β.text = [] → el.children = β.before.children)
  text : q.textContent β.element = β.shownText
  handlers : ∀ kind, (q.handlers β.element kind).length
    = (p.handlers β.element kind).length + β.writeBackCount kind
  others : ∀ r c, p.bus? b = some r → c ≠ β.element → r.Spares c → q.element? c = p.element? c
  otherHandlers : ∀ c, c ≠ β.element → ∀ kind, q.handlers c kind = p.handlers c kind

theorem makes_of_bindElement {callbacks : Callbacks κ σ} {engine : Engine κ σ}
    (he : engine.Publishes callbacks) {r : Registry (Listener κ)} (hr : p.bus? b = some r)
    (hq : r.Quiet) {β : Bond κ} (hfits : p.Fits β) (hspares : r.Spares β.element)
    {targets : List Target}
    (h : engine.bindElement b β.model β.element p = some (.ok targets, q)) :
    targets = β.targets ∧ p.Makes b β q := by
  -- first the text is bound, then the attributes as it leaves them
  obtain ⟨target, p₁, htarget, htargets, hq'⟩ := Engine.bindElement_eq_some h
  obtain ⟨hlisted, el₁, hs, hrep, ⟨hel₁, hattr₁, -⟩, htag, hwired, -⟩ :=
    stages_of_bindText he hr hq hfits.model hfits.element (fun event l hl => (hspares event l hl).2)
      hfits.text htarget
  rw [hlisted] at htargets hq'
  have hm₁ : p₁.model? β.model = some β.data := (hrep.model? β.model).trans hfits.model
  obtain ⟨rfl, htext, hkept, hothers⟩ := shown_bindText he hr hq hfits htarget
  rw [targets_bindAttributes b β.element hm₁] at htargets
  generalize hp₂ : (p₁.bindAttributes b β.model β.element β.before.attributes.entries).2 = p₂
    at hwired hq'
  subst hq'
  refine ⟨htargets, ?_⟩
  exact
    { rest := by
        rw [hwired.rest, hrep.rest]
        simp only [release, hold, List.erase_cons_head]
      registry := fun r' hr' => by
        cases hr.symm.trans hr'
        refine (hwired.registry _ (hrep.registry r hr)).trans ?_
        rw [← Registry.addAll_append]
        rfl
      buses := fun c hc => (hwired.buses c hc).trans (hrep.buses c hc)
      element := by
        refine ⟨_, hwired.element el₁ hel₁, htag, congrArg (Attributes.showAll β.data _) hattr₁, ?_⟩
        intro hk
        cases (hel₁.symm.trans (hkept hk)).trans hfits.element
        rfl
      text := by
        rw [← htext, ← hwired.textContent]
        exact textContent_of_elements (p := p₂) (q := (p₂.release _).release _) rfl _
      handlers := fun kind => by
        have hold := handlers_bindAttributes b hm₁ hel₁ β.sound.nodup_lower kind
        rw [hrep.handlers (r := r) hr, hp₂, htag, hattr₁] at hold
        exact hold
      others := fun r' c hr' hc hs => by
        cases hr.symm.trans hr'
        exact (hwired.elements c hc).trans (hothers c hc hs)
      otherHandlers := fun c hc kind =>
        (handlers_congr (p := p₁) (q := p₂) (hwired.elements c hc) kind).trans
          (hrep.handlers (r := r) hr c kind) }

end Page

end Bindery
