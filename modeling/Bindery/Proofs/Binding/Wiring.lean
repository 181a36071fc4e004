import Bindery.Binding.Element
import Bindery.Proofs.Bus.Channels
import Bindery.Proofs.Markup.Property
import Bindery.Proofs.Page.Store
import Bindery.Proofs.Template.Filling

/-!
# What binding attributes does to a page

Binding attributes installs a listener for each slot that is a key, hands each to the element's form
control, and fills the attribute.  Everything else in the page stays.

* `Model.keysIn`, `Model.slots`     the slots of a template and of attributes that are keys
* `Page.Wired`                      new listeners on one bus, and changes of one element
* `wired_bindAttributes`            what binding attributes does
* `get?_showAll`                    what the attributes are then
-/

namespace Bindery

namespace Registry

variable {L : Type}

def addAll (r : Registry L) (ls : List (String × L)) : Registry L :=
  ls.foldl (fun r x => (r.subscribe x.1 x.2).2) r

theorem addAll_append (r : Registry L) (ls ms : List (String × L)) :
    r.addAll (ls ++ ms) = (r.addAll ls).addAll ms := List.foldl_append

theorem slotsOf_addAll (r : Registry L) (ls : List (String × L)) (event : String) :
    (r.addAll ls).slotsOf event
      = r.slotsOf event ++ (ls.filter (·.1 = event)).map fun x => some x.2 := by
  induction ls generalizing r with
  | nil => simp [addAll]
  | cons x ls ih =>
    show ((r.subscribe x.1 x.2).2.addAll ls).slotsOf event = _
    rw [ih, slotsOf_subscribe]
    by_cases h : x.1 = event
    · rw [if_pos h, List.filter_cons_of_pos (by simpa using h), List.append_assoc]
      rfl
    · rw [if_neg h, List.filter_cons_of_neg (by simpa using h)]

theorem inFlight_addAll (r : Registry L) (ls : List (String × L)) :
    (r.addAll ls).inFlight = r.inFlight := by
  induction ls generalizing r with
  | nil => rfl
  | cons x ls ih => exact (ih _).trans (inFlight_subscribe r x.1 x.2)

theorem maxDepth_addAll (r : Registry L) (ls : List (String × L)) :
    (r.addAll ls).maxDepth = r.maxDepth := by
  induction ls generalizing r with
  | nil => rfl
  | cons x ls ih => exact (ih _).trans (maxDepth_subscribe r x.1 x.2)

end Registry

/-! ## Slots that are keys -/

namespace Model

/-- The names in a template that are keys, in order. -/
def keysIn (d : Model) (template : String) : List String := (Template.names template).filter d.contains

/-- The attributes' slots that are keys, in order, each with its attribute. -/
def slots (d : Model) (entries : List (String × String)) : List (String × String) :=
  entries.flatMap fun a => (d.keysIn a.2).map (a.1, ·)

theorem mem_slots {d : Model} {entries : List (String × String)} {attr key : String} :
    (attr, key) ∈ d.slots entries ↔ ∃ t, (attr, t) ∈ entries ∧ key ∈ d.keysIn t := by
  unfold slots
  rw [List.mem_flatMap]
  constructor
  · rintro ⟨⟨a, t⟩, hm, hk⟩
    obtain ⟨k, hk, he⟩ := List.mem_map.mp hk
    cases he
    exact ⟨t, hm, hk⟩
  · rintro ⟨t, hm, hk⟩
    exact ⟨(attr, t), hm, List.mem_map.mpr ⟨key, hk, rfl⟩⟩

theorem mem_keysIn {d : Model} {template key : String} :
    key ∈ d.keysIn template ↔ key ∈ Template.names template ∧ d.contains key = true :=
  List.mem_filter

/-- Filling a tidy template key by key fills it, if the values are plain. -/
theorem fillEach_keysIn {d : Model} {template : String} (ht : Template.Tidy template)
    (hp : ∀ n ∈ Template.names template, ∀ v, d.get? n = some v → v.Plain) :
    String.ofList (Template.fillEach d.get? (d.keysIn template) template.toList)
      = Template.fill d.get? template := by
  refine Template.fillEach_eq_fill ht hp (fun n hn => (mem_keysIn.mp hn).1) fun n hs => ?_
  have hc : d.contains n = true := hs
  exact Nat.le_of_eq (List.count_filter hc).symm

end Model

namespace Attributes

/-- The attribute filled key by key, and written each time. -/
def showEach (d : Model) (attr : String) : List String → String → Attributes → Attributes
  | [], _, a => a
  | key :: r, shown, a =>
    let shown := Template.fillFirst shown key ((d.get? key).getD .null).display
    showEach d attr r shown (a.setProperty attr (.text shown))

/-- The attributes filled one after the other. -/
def showAll (d : Model) (entries : List (String × String)) (a : Attributes) : Attributes :=
  entries.foldl (fun a x => a.showEach d x.1 (d.keysIn x.2) x.2) a

end Attributes

/-- The handlers by which a control writes slots back. -/
def writeBacks {κ : Type} (m : ModelId) (control : Option Control) (slots : List (String × String)) :
    List (EventKind × Handler κ) :=
  match control with
  | some c => slots.map fun s => (c.event, .writeBack (.strong m) s.1 s.2 c)
  | none => []

theorem handlers_writeBacks {κ : Type} (m : ModelId) (c : Control) (slots : List (String × String)) :
    ((writeBacks m (some c) slots : List (EventKind × Handler κ)).filter (·.1 = c.event)).map Prod.snd
      = slots.map fun s => .writeBack (.strong m) s.1 s.2 c := by
  have hall : (writeBacks m (some c) slots : List (EventKind × Handler κ)).filter (·.1 = c.event)
      = writeBacks m (some c) slots := by
    refine List.filter_eq_self.mpr fun x hx => ?_
    obtain ⟨s, -, rfl⟩ := List.mem_map.mp hx
    exact decide_eq_true rfl
  rw [hall]
  exact List.map_map

namespace Page

variable {κ σ : Type} {bus : BusId} {e : ElementId} {p q r : Page κ σ}

/-- From `p` to `q` a bus got the listeners `ls`, and an element the handlers `hs` and attributes that
`f` made of its own. -/
structure Wired (bus : BusId) (e : ElementId) (p q : Page κ σ) (ls : List (String × Listener κ))
    (hs : List (EventKind × Handler κ)) (f : Attributes → Attributes) : Prop where
  rest : q = { p with buses := q.buses, elements := q.elements }
  registry : ∀ r, p.bus? bus = some r → q.bus? bus = some (r.addAll ls)
  buses : ∀ b, b ≠ bus → q.bus? b = p.bus? b
  element : ∀ d, p.element? e = some d →
    q.element? e = some { d with attributes := f d.attributes, handlers := d.handlers ++ hs }
  elements : ∀ c, c ≠ e → q.element? c = p.element? c
  size : q.elements.size = p.elements.size

namespace Wired

theorem refl (bus : BusId) (e : ElementId) (p : Page κ σ) : Wired bus e p p [] [] id :=
  ⟨rfl, fun _ h => h, fun _ _ => rfl, fun d h => by simpa using h, fun _ _ => rfl, rfl⟩

theorem trans {ls ms : List (String × Listener κ)} {hs ks : List (EventKind × Handler κ)}
    {f g : Attributes → Attributes} (h : Wired bus e p q ls hs f) (k : Wired bus e q r ms ks g) :
    Wired bus e p r (ls ++ ms) (hs ++ ks) (fun a => g (f a)) where
  rest := by rw [k.rest, h.rest]
  registry x hx := by
    rw [k.registry _ (h.registry x hx), Registry.addAll_append]
  buses b hb := (k.buses b hb).trans (h.buses b hb)
  element d hd := by
    rw [k.element _ (h.element d hd), List.append_assoc]
  elements c hc := (k.elements c hc).trans (h.elements c hc)
  size := k.size.trans h.size

theorem model? {ls : List (String × Listener κ)} {hs : List (EventKind × Handler κ)}
    {f : Attributes → Attributes} (h : Wired bus e p q ls hs f) (m : ModelId) :
    q.model? m = p.model? m := by
  rw [h.rest]
  rfl

theorem subscribe (bus : BusId) (e : ElementId) (p : Page κ σ) (event : String)
    (l : Listener κ) : Wired bus e p (p.subscribe bus event l).2 [(event, l)] [] id := by
  cases hb : p.bus? bus with
  | none =>
    rw [subscribe_of_none hb]
    refine ⟨rfl, fun x hx => ?_, fun _ _ => rfl, fun d h => by simpa using h, fun _ _ => rfl, rfl⟩
    rw [hb] at hx
    cases hx
  | some x =>
    rw [subscribe_of_some hb]
    refine ⟨rfl, fun y hy => ?_, fun b hne => bus?_modifyBus_of_ne (Ne.symm hne) _,
      fun d h => ?_, fun _ _ => rfl, rfl⟩
    · cases hb.symm.trans hy
      exact bus?_modifyBus_self hb _
    · rw [List.append_nil]
      exact h

theorem modifyElement (bus : BusId) (e : ElementId) (p : Page κ σ)
    (hs : List (EventKind × Handler κ)) (f : Attributes → Attributes) :
    Wired bus e p (p.modifyElement e fun d =>
      { d with attributes := f d.attributes, handlers := d.handlers ++ hs }) [] hs f :=
  ⟨rfl, fun _ h => h, fun _ _ => rfl, fun _ h => element?_modifyElement_self h _,
    fun _ hc => element?_modifyElement_of_ne (Ne.symm hc) _, size_modifyElement ..⟩

end Wired

theorem setProperty_eq (e : ElementId) (name : String) (value : Value) (p : Page κ σ) :
    p.setProperty e name value = p.modifyElement e fun d =>
      { d with attributes := d.attributes.setProperty name value, handlers := d.handlers ++ [] } := by
  simp only [List.append_nil]
  rfl

/-! ## Binding attributes -/

/-- Binding attributes keeps what is kept by installing a handler that writes back, by writing an
attribute and by adding a listener of one. -/
theorem bindAttributes_keeps {P : Page κ σ → Prop} {m : ModelId}
    (hlisten : ∀ p kind property key control, P p →
      P (p.listen e kind (.writeBack (.strong m) property key control)))
    (hshow : ∀ p name value, P p → P (p.setProperty e name value))
    (hwait : ∀ p event name, P p → P (p.subscribe bus event (.property (.weak e) name)).2)
    (h : P p) (entries : List (String × String)) : P (p.bindAttributes bus m e entries).2 := by
  have hname : ∀ (p : Page κ σ) (attr : String) (control : Option Control) (name shown : String),
      P p → P (p.bindName bus m e attr control name shown).2 := by
    intro p attr control name shown hp
    cases control with
    | none => exact hwait _ _ _ (hshow p attr _ hp)
    | some c => exact hwait _ _ _ (hshow _ attr _ (hlisten p c.event attr name c hp))
  have hnames : ∀ (p : Page κ σ) (attr : String) (control : Option Control) (names : List String)
      (shown : String), P p → P (p.bindNames bus m e attr control names shown) := by
    intro p attr control names shown hp
    induction names generalizing p shown with
    | nil => exact hp
    | cons name rest ih =>
      unfold bindNames
      split
      · exact ih _ _ (hname p attr control name shown hp)
      · exact ih p shown hp
  induction entries generalizing p with
  | nil => exact h
  | cons entry rest ih =>
    have hone : P (p.bindAttribute bus m e entry.1 entry.2).2 := by
      unfold bindAttribute
      split
      · exact h
      · exact hnames p entry.1 _ _ _ h
    exact ih hone

section

variable {m : ModelId} {d : Model}

theorem hasKey_of_model? (hm : p.model? m = some d) (key : String) :
    p.hasKey m key = d.contains key := by
  unfold hasKey
  rw [hm]

theorem valueOf_of_model? (hm : p.model? m = some d) (key : String) :
    p.valueOf m key = (d.get? key).getD .null := by
  unfold valueOf
  rw [hm]
  rfl

theorem eventOf_of_model? (hm : p.model? m = some d) (key : String) :
    p.eventOf m key = d.event key := by
  unfold eventOf
  rw [hm]

theorem wired_bindName (bus : BusId) (e : ElementId) (hm : p.model? m = some d) (attr : String)
    (control : Option Control)
    (name shown : String) :
    (p.bindName bus m e attr control name shown).1
        = Template.fillFirst shown name ((d.get? name).getD .null).display ∧
      Wired bus e p (p.bindName bus m e attr control name shown).2
        [(d.event name, .property (.weak e) attr)] (writeBacks m control [(attr, name)])
        (fun a => a.setProperty attr
          (.text (Template.fillFirst shown name ((d.get? name).getD .null).display))) := by
  have hfill : ∀ {p₁ : Page κ σ} {hs : List (EventKind × Handler κ)}, Wired bus e p p₁ [] hs id →
      Template.fillFirst shown name (p₁.valueOf m name).display
          = Template.fillFirst shown name ((d.get? name).getD .null).display ∧
        Wired bus e p
          (let shown := Template.fillFirst shown name (p₁.valueOf m name).display
            let p := p₁.setProperty e attr (.text shown)
            (p.subscribe bus (p.eventOf m name) (.property (.weak e) attr)).2)
          [(d.event name, .property (.weak e) attr)] hs
          (fun a => a.setProperty attr
            (.text (Template.fillFirst shown name ((d.get? name).getD .null).display))) := by
    intro p₁ hs hlisten
    have hm₁ : p₁.model? m = some d := (hlisten.model? m).trans hm
    rw [valueOf_of_model? hm₁]
    refine ⟨rfl, ?_⟩
    generalize Template.fillFirst shown name ((d.get? name).getD .null).display = shown'
    dsimp only
    rw [setProperty_eq]
    have hset := Wired.modifyElement bus e p₁ [] (·.setProperty attr (.text shown'))
    rw [eventOf_of_model? ((hset.model? m).trans hm₁)]
    have h := (hlisten.trans hset).trans (Wired.subscribe bus e _ (d.event name) (.property (.weak e) attr))
    simpa using h
  cases control with
  | some c => exact hfill (Wired.modifyElement bus e p [(c.event, .writeBack (.strong m) attr name c)] id)
  | none => exact hfill (Wired.refl bus e p)

theorem wired_bindNames (bus : BusId) (e : ElementId) (hm : p.model? m = some d) (attr : String)
    (control : Option Control) (names : List String) (shown : String) :
    Wired bus e p (p.bindNames bus m e attr control names shown)
      ((names.filter d.contains).map fun k => (d.event k, .property (.weak e) attr))
      (writeBacks m control ((names.filter d.contains).map (attr, ·)))
      (fun a => a.showEach d attr (names.filter d.contains) shown) := by
  induction names generalizing p shown with
  | nil =>
    have hn : (writeBacks m control [] : List (EventKind × Handler κ)) = [] := by
      cases control <;> rfl
    show Wired bus e p p [] (writeBacks m control []) id
    rw [hn]
    exact Wired.refl bus e p
  | cons name r ih =>
    unfold bindNames
    by_cases hk : d.contains name = true
    · rw [if_pos ((hasKey_of_model? hm name).trans hk), List.filter_cons_of_pos hk]
      obtain ⟨hs, hw⟩ := wired_bindName bus e hm attr control name shown
      have hr := ih ((hw.model? m).trans hm) (p.bindName bus m e attr control name shown).1
      have h := hw.trans hr
      rw [hs] at h
      have hb : (writeBacks m control [(attr, name)] ++
            writeBacks m control ((r.filter d.contains).map (attr, ·)) : List (EventKind × Handler κ))
          = writeBacks m control (((name :: r.filter d.contains)).map (attr, ·)) := by
        cases control <;> rfl
      rw [hb] at h
      show Wired bus e p (bindNames bus m e attr control r
        (p.bindName bus m e attr control name shown).1
        (p.bindName bus m e attr control name shown).2) _ _ _
      rw [hs]
      exact h
    · rw [if_neg (by rw [hasKey_of_model? hm]; exact hk), List.filter_cons_of_neg hk]
      exact ih hm shown

theorem wired_bindAttribute (bus : BusId) (e : ElementId) (hm : p.model? m = some d)
    (attr template : String) :
    Wired bus e p (p.bindAttribute bus m e attr template).2
      ((d.keysIn template).map fun k => (d.event k, .property (.weak e) attr))
      (writeBacks m (p.controlOf e) ((d.keysIn template).map (attr, ·)))
      (fun a => a.showEach d attr (d.keysIn template) template) := by
  have hw := wired_bindNames bus e hm attr (p.controlOf e)
    (Template.names template) template
  unfold bindAttribute Template.names?
  cases hn : Template.names template with
  | nil =>
    rw [hn] at hw
    unfold Model.keysIn
    rw [hn]
    exact hw
  | cons name r =>
    rw [hn] at hw
    unfold Model.keysIn
    rw [hn]
    exact hw

theorem controlOf_wired {ls : List (String × Listener κ)} {hs : List (EventKind × Handler κ)}
    {f : Attributes → Attributes} (h : Wired bus e p q ls hs f)
    (hf : ∀ a, (f a).get? "type" = a.get? "type") : q.controlOf e = p.controlOf e := by
  unfold controlOf
  cases hd : p.element? e with
  | none =>
    rw [element?_eq_none_of_size h.size hd]
  | some el =>
    rw [h.element el hd]
    show Control.classify _ _ = Control.classify _ _
    unfold Control.classify Attributes.inputType
    rw [hf]

end

end Page

namespace Attributes

variable {d : Model}

theorem get?_showEach_of_ne {attr other : String} (h : Text.lower other ≠ Text.lower attr)
    (keys : List String) (shown : String) (a : Attributes) :
    (a.showEach d attr keys shown).get? other = a.get? other := by
  induction keys generalizing shown a with
  | nil => rfl
  | cons k r ih =>
    unfold showEach
    rw [ih]
    exact a.get?_setProperty_of_ne h _

/-- An attribute that is bound to at least one key is written its template filled key by key. -/
theorem get?_showEach {attr : String} {keys : List String} (hne : keys ≠ [])
    (hk : ∀ k ∈ keys, d.contains k = true) (shown : String) (a : Attributes) :
    (a.showEach d attr keys shown).get? attr = (a.setProperty attr
      (.text (String.ofList (Template.fillEach d.get? keys shown.toList)))).get? attr := by
  induction keys generalizing shown a with
  | nil => exact absurd rfl hne
  | cons k r ih =>
    obtain ⟨v, hv⟩ := Option.isSome_iff_exists.mp (hk k List.mem_cons_self)
    have hf : (Template.fillFirst shown k v.display).toList
        = Template.fillFirstChars shown.toList k.toList v.displayChars := by
      unfold Template.fillFirst Value.display
      rw [String.toList_ofList, String.toList_ofList]
    rw [Template.fillEach_cons_of_some hv, ← hf]
    unfold showEach
    dsimp only
    rw [show d.get? k = some v from hv, Option.getD_some]
    by_cases hr : r = []
    · rw [hr]
      show (a.setProperty attr (.text (Template.fillFirst shown k v.display))).get? attr
        = (a.setProperty attr (.text (String.ofList (Template.fillFirst shown k v.display).toList))).get? attr
      rw [String.ofList_toList]
    · rw [ih hr fun j hj => hk j (List.mem_cons_of_mem _ hj)]
      exact get?_setProperty_congr ..

theorem get?_showAll_of_not_mem {entries : List (String × String)} {other : String}
    (h : ∀ a ∈ entries, Text.lower other = Text.lower a.1 → d.keysIn a.2 = []) (a : Attributes) :
    (a.showAll d entries).get? other = a.get? other := by
  induction entries generalizing a with
  | nil => rfl
  | cons x r ih =>
    show ((a.showEach d x.1 (d.keysIn x.2) x.2).showAll d r).get? other = _
    rw [ih fun y hy => h y (List.mem_cons_of_mem _ hy)]
    by_cases hl : Text.lower other = Text.lower x.1
    · rw [h x List.mem_cons_self hl]
      rfl
    · exact get?_showEach_of_ne hl _ _ _

/-- Attributes filled one after the other are filled each for itself, if no name comes twice. -/
theorem get?_showAll {entries : List (String × String)}
    (hn : (entries.map fun x => Text.lower x.1).Nodup) {attr template : String}
    (hm : (attr, template) ∈ entries) (hk : d.keysIn template ≠ []) (a : Attributes) :
    (a.showAll d entries).get? attr = (a.setProperty attr (.text (String.ofList
      (Template.fillEach d.get? (d.keysIn template) template.toList)))).get? attr := by
  induction entries generalizing a with
  | nil => cases hm
  | cons x r ih =>
    rw [List.map_cons, List.nodup_cons] at hn
    show ((a.showEach d x.1 (d.keysIn x.2) x.2).showAll d r).get? attr = _
    rcases List.mem_cons.mp hm with rfl | hr
    · rw [get?_showAll_of_not_mem, get?_showEach hk]
      · exact fun k hk => (Model.mem_keysIn.mp hk).2
      · exact fun y hy hl => absurd (List.mem_map.mpr ⟨y, hy, hl.symm⟩) hn.1
    · rw [ih hn.2 hr]
      exact get?_setProperty_congr ..

theorem get?_showAll_of_tidy {entries : List (String × String)}
    (hn : (entries.map fun x => Text.lower x.1).Nodup) {attr template : String}
    (hm : (attr, template) ∈ entries) (hb : isBooleanProperty attr = false)
    (hk : d.keysIn template ≠ []) (ht : Template.Tidy template)
    (hp : ∀ n ∈ Template.names template, ∀ v, d.get? n = some v → v.Plain) (a : Attributes) :
    (a.showAll d entries).get? attr = some (Template.fill d.get? template) := by
  rw [get?_showAll hn hm hk, Model.fillEach_keysIn ht hp, get?_setProperty_self hb]
  exact congrArg some String.ofList_toList

end Attributes

namespace Page

variable {κ σ : Type} {bus : BusId} {e : ElementId} {p : Page κ σ} {m : ModelId} {d : Model}

/-- Binding attributes adds a listener for each slot that is a key, and a handler as well if the
element is a form control and stays the one it is. -/
theorem wired_bindAttributes (bus : BusId) (e : ElementId) (hm : p.model? m = some d)
    (entries : List (String × String)) :
    ∃ hs, Wired bus e p (p.bindAttributes bus m e entries).2
        ((d.slots entries).map fun s => (d.event s.2, .property (.weak e) s.1)) hs (·.showAll d entries) ∧
      ((∀ a ∈ entries, Text.lower a.1 = "type" → d.keysIn a.2 = []) →
        hs = writeBacks m (p.controlOf e) (d.slots entries)) := by
  induction entries generalizing p with
  | nil =>
    refine ⟨[], Wired.refl bus e p, fun _ => ?_⟩
    cases p.controlOf e <;> rfl
  | cons x r ih =>
    have h := wired_bindAttribute bus e hm x.1 x.2
    obtain ⟨hs, hr, hhs⟩ := ih ((h.model? m).trans hm)
    refine ⟨writeBacks m (p.controlOf e) ((d.keysIn x.2).map (x.1, ·)) ++ hs, ?_, fun ht => ?_⟩
    · have hw := h.trans hr
      rw [show (d.slots (x :: r)) = (d.keysIn x.2).map (x.1, ·) ++ d.slots r from rfl,
        List.map_append, List.map_map]
      exact hw
    · have hc := controlOf_wired h fun a => by
        by_cases hl : Text.lower x.1 = "type"
        · rw [ht x List.mem_cons_self hl]
          rfl
        · refine Attributes.get?_showEach_of_ne (fun he => hl ?_) _ _ _
          rw [← he]
          decide
      rw [hhs fun y hy => ht y (List.mem_cons_of_mem _ hy), hc]
      show _ = writeBacks m _ ((d.keysIn x.2).map (x.1, ·) ++ d.slots r)
      cases p.controlOf e with
      | none => rfl
      | some c => exact List.map_append.symm

end Page

end Bindery
