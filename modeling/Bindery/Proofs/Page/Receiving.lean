import Bindery.Engine.Delivery
import Bindery.Proofs.Markup.Property
import Bindery.Proofs.Page.Alive

/-!
# What the listeners of bindings do

A listener of a binding writes a text or a property of one element and calls nothing.  So what an
announcement does to a page on which all listeners are of this kind is a fold over them.

* `Listener.isBinding`        a listener that was made by binding
* `Page.receive`              what such a listener does with a value
* `element?_receiveAll`       an element after an announcement
* `attributes_receiveAll`     the attributes of one that is alive in the end
-/

namespace Bindery

namespace Listener

variable {κ : Type}

def isBinding : Listener κ → Bool
  | callback _ => false
  | _ => true

/-- The property of an element that the listener writes. -/
def propertyOn (e : ElementId) : Listener κ → Option String
  | property d name => if d.target = e then some name else none
  | _ => none

def writesText (e : ElementId) : Listener κ → Bool
  | text d _ _ _ _ => d.target = e
  | _ => false

end Listener

theorem propertyOn_eq_some {κ : Type} {l : Listener κ} {e : ElementId} {name : String} :
    l.propertyOn e = some name ↔ ∃ c, l = .property c name ∧ c.target = e := by
  cases l with
  | property c n =>
    simp only [Listener.propertyOn, Option.ite_none_right_eq_some, Option.some.injEq,
      Listener.property.injEq]
    constructor
    · rintro ⟨hc, rfl⟩
      exact ⟨c, ⟨rfl, rfl⟩, hc⟩
    · rintro ⟨_, ⟨rfl, rfl⟩, hc⟩
      exact ⟨hc, rfl⟩
  | _ => simp [Listener.propertyOn]

namespace Page

variable {κ σ : Type} {p : Page κ σ} {l : Listener κ} {ls : List (Listener κ)} {value : Value}

/-- What a listener of a binding does to a page. -/
def receive (value : Value) (p : Page κ σ) : Listener κ → Page κ σ
  | .text e m template names changed =>
    if p.elementAlive e.target && p.modelAlive m.target then
      p.setText e.target (Engine.renderedText p m.target template names changed value)
    else p
  | .property e name => if p.elementAlive e.target then p.setProperty e.target name value else p
  | .callback _ => p

theorem receive_text (e : Captured ElementId) (m : Captured ModelId) (template : String)
    (names : List String) (changed : String) :
    p.receive value (.text e m template names changed)
      = if p.elementAlive e.target && p.modelAlive m.target then
          p.setText e.target (Engine.renderedText p m.target template names changed value)
        else p := rfl

theorem receive_property (e : Captured ElementId) (name : String) :
    p.receive value (.property e name)
      = if p.elementAlive e.target then p.setProperty e.target name value else p := rfl

def receiveAll (value : Value) (p : Page κ σ) (ls : List (Listener κ)) : Page κ σ :=
  ls.foldl (receive value) p

theorem receiveAll_cons : p.receiveAll value (l :: ls) = (p.receive value l).receiveAll value ls := rfl

/-! ## What stays -/

/-- A listener of a binding changes at most the elements. -/
theorem receive_eq (value : Value) (p : Page κ σ) (l : Listener κ) :
    p.receive value l = { p with elements := (p.receive value l).elements } := by
  cases l with
  | text e m template names changed =>
    rw [receive_text]
    split <;> rfl
  | property e name =>
    rw [receive_property]
    split <;> rfl
  | callback code => rfl

theorem receiveAll_eq (value : Value) (p : Page κ σ) (ls : List (Listener κ)) :
    p.receiveAll value ls = { p with elements := (p.receiveAll value ls).elements } := by
  induction ls generalizing p with
  | nil => rfl
  | cons l ls ih =>
    rw [receiveAll_cons, ih, receive_eq]

theorem bus?_receive (p : Page κ σ) (l : Listener κ) (b : BusId) :
    (p.receive value l).bus? b = p.bus? b := by
  rw [receive_eq]
  rfl

theorem bus?_receiveAll (p : Page κ σ) (ls : List (Listener κ)) (b : BusId) :
    (p.receiveAll value ls).bus? b = p.bus? b := by
  rw [receiveAll_eq]
  rfl

theorem model?_receiveAll (p : Page κ σ) (ls : List (Listener κ)) (m : ModelId) :
    (p.receiveAll value ls).model? m = p.model? m := by
  rw [receiveAll_eq]
  rfl

theorem held_receiveAll (p : Page κ σ) (ls : List (Listener κ)) :
    (p.receiveAll value ls).held = p.held := by
  rw [receiveAll_eq]

theorem isRooted_receive (p : Page κ σ) (l : Listener κ) (es : List ElementId) :
    (p.receive value l).isRooted es = p.isRooted es := by
  rw [receive_eq]
  rfl

/-- It does not matter to the listeners of bindings which events are in flight. -/
theorem receive_modifyBus (p : Page κ σ) (l : Listener κ) {b : BusId}
    {f : Registry (Listener κ) → Registry (Listener κ)}
    (hf : ∀ r, p.bus? b = some r → (f r).listeners = r.listeners) :
    (p.modifyBus b f).receive value l = (p.receive value l).modifyBus b f := by
  have h : SameLives p (p.modifyBus b f) := .modifyBus hf
  cases l with
  | text e m template names changed =>
    rw [receive_text, receive_text, h.elementAlive, h.modelAlive]
    split <;> rfl
  | property e name =>
    rw [receive_property, receive_property, h.elementAlive]
    split <;> rfl
  | callback code => rfl

theorem receiveAll_modifyBus (p : Page κ σ) (ls : List (Listener κ)) {b : BusId}
    {f : Registry (Listener κ) → Registry (Listener κ)}
    (hf : ∀ r, p.bus? b = some r → (f r).listeners = r.listeners) :
    (p.modifyBus b f).receiveAll value ls = (p.receiveAll value ls).modifyBus b f := by
  induction ls generalizing p with
  | nil => rfl
  | cons l ls ih =>
    rw [receiveAll_cons, receive_modifyBus p l hf, ih, receiveAll_cons]
    intro r hr
    rw [bus?_receive] at hr
    exact hf r hr

/-! ## One element -/

/-- An element after one listener.  It keeps its tag and its handlers; its attributes and its children
are as before unless the listener writes them. -/
theorem element?_receive (value : Value) {e : ElementId} {d : PageElement κ} (hd : p.element? e = some d)
    (l : Listener κ) :
    ∃ d', (p.receive value l).element? e = some d' ∧ d'.tag = d.tag ∧ d'.handlers = d.handlers ∧
      (p.elementAlive e = true →
        d'.attributes = (l.propertyOn e).elim d.attributes (d.attributes.setProperty · value)) ∧
      (l.writesText e = false → d'.children = d.children) := by
  cases l with
  | text c m template names changed =>
    rw [receive_text]
    by_cases hc : c.target = e
    · subst hc
      split
      · exact ⟨_, element?_modifyElement_self hd _, rfl, rfl, fun _ => rfl, fun h => by
          simp [Listener.writesText] at h⟩
      · exact ⟨d, hd, rfl, rfl, fun _ => rfl, fun _ => rfl⟩
    · split
      · exact ⟨d, (element?_modifyElement_of_ne hc _).trans hd, rfl, rfl, fun _ => rfl, fun _ => rfl⟩
      · exact ⟨d, hd, rfl, rfl, fun _ => rfl, fun _ => rfl⟩
  | property c name =>
    rw [receive_property]
    by_cases hc : c.target = e
    · subst hc
      have hn : (Listener.property c name : Listener κ).propertyOn c.target = some name := if_pos rfl
      rw [hn]
      split
      · exact ⟨_, element?_modifyElement_self hd _, rfl, rfl, fun _ => rfl, fun _ => rfl⟩
      · rename_i ha
        exact ⟨d, hd, rfl, rfl, fun hr => absurd hr ha, fun _ => rfl⟩
    · have hn : (Listener.property c name : Listener κ).propertyOn e = none := if_neg hc
      rw [hn]
      split
      · exact ⟨d, (element?_modifyElement_of_ne hc _).trans hd, rfl, rfl, fun _ => rfl, fun _ => rfl⟩
      · exact ⟨d, hd, rfl, rfl, fun _ => rfl, fun _ => rfl⟩
  | callback code => exact ⟨d, hd, rfl, rfl, fun _ => rfl, fun _ => rfl⟩

theorem element?_receiveAll (value : Value) {e : ElementId} {d : PageElement κ} (hd : p.element? e = some d)
    (ls : List (Listener κ)) :
    ∃ d', (p.receiveAll value ls).element? e = some d' ∧ d'.tag = d.tag ∧ d'.handlers = d.handlers ∧
      (p.isRooted [e] = true → d'.attributes = (ls.filterMap (Listener.propertyOn e)).foldl
        (fun a name => a.setProperty name value) d.attributes) ∧
      ((∀ l ∈ ls, l.writesText e = false) → d'.children = d.children) := by
  induction ls generalizing p d with
  | nil => exact ⟨d, hd, rfl, rfl, fun _ => rfl, fun _ => rfl⟩
  | cons l ls ih =>
    obtain ⟨d₁, hd₁, ht₁, hh₁, ha₁, hc₁⟩ := element?_receive value hd l
    obtain ⟨d₂, hd₂, ht₂, hh₂, ha₂, hc₂⟩ := ih hd₁
    refine ⟨d₂, hd₂, ht₂.trans ht₁, hh₂.trans hh₁, fun hr => ?_, fun h => ?_⟩
    · rw [ha₂ ((isRooted_receive p l [e]).trans hr), ha₁ (elementAlive_of_isRooted hr),
        List.filterMap_cons]
      cases l.propertyOn e with
      | none => rfl
      | some name => rfl
    · rw [hc₂ fun k hk => h k (List.mem_cons_of_mem _ hk), hc₁ (h l List.mem_cons_self)]

theorem size_receiveAll (p : Page κ σ) (ls : List (Listener κ)) :
    (p.receiveAll value ls).elements.size = p.elements.size := by
  induction ls generalizing p with
  | nil => rfl
  | cons l ls ih =>
    rw [receiveAll_cons, ih]
    cases l with
    | text c m template names changed =>
      rw [receive_text]
      split
      · exact size_modifyElement ..
      · rfl
    | property c name =>
      rw [receive_property]
      split
      · exact size_modifyElement ..
      · rfl
    | callback code => rfl

/-! ## What is alive in the end -/

theorem shrinks_receive (value : Value) (p : Page κ σ) (l : Listener κ) :
    Shrinks p (p.receive value l) := by
  cases l with
  | text e m template names changed =>
    rw [receive_text]
    split
    · exact Shrinks.setText p e.target _
    · exact Shrinks.refl p
  | property e name =>
    rw [receive_property]
    split
    · exact Shrinks.modifyElement p e.target fun _ _ h => h
    · exact Shrinks.refl p
  | callback code => exact Shrinks.refl p

theorem shrinks_receiveAll (value : Value) (p : Page κ σ) (ls : List (Listener κ)) :
    Shrinks p (p.receiveAll value ls) := by
  induction ls generalizing p with
  | nil => exact Shrinks.refl p
  | cons l ls ih => exact (shrinks_receive value p l).trans (ih _)

/-- The attributes of an element that is alive after an announcement: those that listen were written,
one after the other. -/
theorem attributes_receiveAll {e : ElementId} {d : PageElement κ} (hd : p.element? e = some d)
    (ha : (p.receiveAll value ls).elementAlive e = true) :
    ∃ d', (p.receiveAll value ls).element? e = some d' ∧
      d'.attributes = (ls.filterMap (Listener.propertyOn e)).foldl
        (fun a name => a.setProperty name value) d.attributes := by
  induction ls generalizing p d with
  | nil => exact ⟨d, hd, rfl⟩
  | cons l ls ih =>
    obtain ⟨d₁, hd₁, -, -, ha₁, -⟩ := element?_receive value hd l
    obtain ⟨d₂, hd₂, ha₂⟩ := ih hd₁ ha
    refine ⟨d₂, hd₂, ?_⟩
    rw [ha₂, ha₁ (elementAlive_of_shrinks (shrinks_receiveAll value p (l :: ls)) ha),
      List.filterMap_cons]
    cases l.propertyOn e with
    | none => rfl
    | some name => rfl

end Page

namespace Attributes

/-! ## Properties written one after the other -/

theorem get?_foldl_of_not_mem {a : Attributes} {names : List String} {name : String}
    (h : ∀ n ∈ names, Text.lower name ≠ Text.lower n) (value : Value) :
    (names.foldl (fun a n => a.setProperty n value) a).get? name = a.get? name := by
  induction names generalizing a with
  | nil => rfl
  | cons n r ih =>
    rw [List.foldl_cons, ih fun m hm => h m (List.mem_cons_of_mem _ hm)]
    exact a.get?_setProperty_of_ne (h n List.mem_cons_self) value

theorem property_foldl_of_not_mem {a : Attributes} {names : List String} {name : String}
    (h : ∀ n ∈ names, Text.lower name ≠ Text.lower n) (value : Value) :
    (names.foldl (fun a n => a.setProperty n value) a).property name = a.property name := by
  unfold property contains
  rw [get?_foldl_of_not_mem h]

/-- One of the names is this one, and those that are it but for the case are it: the last time it is
written counts. -/
theorem exists_get?_foldl_of_mem {a : Attributes} {names : List String} {name : String}
    (hm : name ∈ names) (h : ∀ n ∈ names, Text.lower name = Text.lower n → n = name)
    (value : Value) :
    ∃ b : Attributes, (names.foldl (fun a n => a.setProperty n value) a).get? name
      = (b.setProperty name value).get? name := by
  induction names generalizing a with
  | nil => cases hm
  | cons n r ih =>
    have hr : ∀ m ∈ r, Text.lower name = Text.lower m → m = name :=
      fun m hm => h m (List.mem_cons_of_mem _ hm)
    rw [List.foldl_cons]
    by_cases hmr : name ∈ r
    · exact ih hmr hr
    · have hn : n = name := ((List.mem_cons.mp hm).resolve_right hmr).symm
      refine ⟨a, ?_⟩
      rw [get?_foldl_of_not_mem, hn]
      intro m hm hl
      exact hmr (hr m hm hl ▸ hm)

theorem property_foldl_of_mem {a : Attributes} {names : List String} {name : String}
    (hm : name ∈ names) (h : ∀ n ∈ names, Text.lower name = Text.lower n → n = name)
    (value : Value) :
    (names.foldl (fun a n => a.setProperty n value) a).property name = value.asProperty name := by
  obtain ⟨b, hb⟩ := exists_get?_foldl_of_mem (a := a) hm h value
  have hp := property_setProperty_self b name value
  unfold property contains at hp ⊢
  rw [hb]
  exact hp

theorem get?_foldl_of_mem {a : Attributes} {names : List String} {name : String}
    (hbool : isBooleanProperty name = false) (hm : name ∈ names)
    (h : ∀ n ∈ names, Text.lower name = Text.lower n → n = name) (value : Value) :
    (names.foldl (fun a n => a.setProperty n value) a).get? name = some value.display := by
  obtain ⟨b, hb⟩ := exists_get?_foldl_of_mem (a := a) hm h value
  rw [hb]
  exact get?_setProperty_self hbool b value

end Attributes

end Bindery
