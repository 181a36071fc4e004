import Bindery.Engine.Basic
import Bindery.Page.Tree
import Bindery.Template.Basic
import Bindery.Value.Display

/-!
# Binding an element

Binding joins the slots in an element's text and attributes to the keys of a model.  A text follows
its keys by being filled again as a whole; an attribute is filled once and from then on shows the last
value announced.  A slot whose name is no key of the model stays as it is.

* `bindText`        binds the text, replaying the value of each key on the bus
* `bindAttribute`   binds one attribute, and lets a form control write it back
* `bindElement`     the text and then the attributes, in their order
-/

namespace Bindery

variable {κ σ : Type}

namespace Page

def valueOf (p : Page κ σ) (m : ModelId) (key : String) : Value :=
  ((p.model? m).bind (·.get? key)).getD .null

def hasKey (p : Page κ σ) (m : ModelId) (key : String) : Bool :=
  match p.model? m with
  | some model => model.contains key
  | none => false

def eventOf (p : Page κ σ) (m : ModelId) (key : String) : String :=
  match p.model? m with
  | some model => model.event key
  | none => changeEvent "" key

def attributesOf (p : Page κ σ) (e : ElementId) : Attributes :=
  match p.element? e with
  | some d => d.attributes
  | none => .empty

def controlOf (p : Page κ σ) (e : ElementId) : Option Control :=
  (p.element? e).bind fun d => Control.classify d.tag d.attributes

/-! ## Attributes -/

/-- Joins one name of an attribute to its key.  `shown` is the text filled so far. -/
def bindName (bus : BusId) (m : ModelId) (e : ElementId) (attr : String) (control : Option Control)
    (name shown : String) (p : Page κ σ) : String × Page κ σ :=
  let p :=
    match control with
    | some c => p.listen e c.event (.writeBack (.strong m) attr name c)
    | none => p
  let shown := Template.fillFirst shown name (p.valueOf m name).display
  let p := p.setProperty e attr (.text shown)
  (shown, (p.subscribe bus (p.eventOf m name) (.property (.weak e) attr)).2)

def bindNames (bus : BusId) (m : ModelId) (e : ElementId) (attr : String) (control : Option Control) :
    List String → String → Page κ σ → Page κ σ
  | [], _, p => p
  | name :: r, shown, p =>
    if p.hasKey m name then
      let (shown, p) := p.bindName bus m e attr control name shown
      bindNames bus m e attr control r shown p
    else bindNames bus m e attr control r shown p

/-- Binds one attribute, as it was when the element's attributes were listed. -/
def bindAttribute (bus : BusId) (m : ModelId) (e : ElementId) (attr template : String)
    (p : Page κ σ) : Option Target × Page κ σ :=
  match Template.names? template with
  | none => (none, p)
  | some names =>
    let target := if names.any (p.hasKey m) then some ⟨e, .property attr, template, names⟩ else none
    (target, p.bindNames bus m e attr (p.controlOf e) names template)

def bindAttributes (bus : BusId) (m : ModelId) (e : ElementId) :
    List (String × String) → Page κ σ → List Target × Page κ σ
  | [], p => ([], p)
  | (attr, template) :: r, p =>
    let (target, p) := p.bindAttribute bus m e attr template
    let (targets, p) := bindAttributes bus m e r p
    (target.toList ++ targets, p)

end Page

namespace Engine

/-- Joins the names of a text that are keys, in order, and replays the value of each on the bus.
Gives whether there was one; the first failure ends it. -/
def bindSlots (engine : Engine κ σ) (bus : BusId) (m : ModelId) (e : ElementId) (template : String)
    (names : List String) : List String → Run κ σ (Except BusError Bool)
  | [] => return .ok false
  | name :: r => do
    let p ← get
    if p.hasKey m name then
      let event := p.eventOf m name
      modify fun p => (p.subscribe bus event (.text (.weak e) (.weak m) template names name)).2
      match ← engine.publish bus event (p.valueOf m name) with
      | .error failure => return .error failure
      | .ok () =>
        let rest ← engine.bindSlots bus m e template names r
        return rest.map fun _ => true
    else engine.bindSlots bus m e template names r

def bindText (engine : Engine κ σ) (bus : BusId) (m : ModelId) (e : ElementId) :
    Run κ σ (Except BusError (Option Target)) := do
  match (← get).textOf? e with
  | none => return .ok none
  | some template =>
    match Template.names? template with
    | none => return .ok none
    | some names =>
      let isBound ← engine.bindSlots bus m e template names names
      return isBound.map fun b => if b then some ⟨e, .text, template, names⟩ else none

/-- Binds an element to a model: its text first, then the attributes that it has by then. -/
def bindElement (engine : Engine κ σ) (bus : BusId) (m : ModelId) (e : ElementId) :
    Run κ σ (Except BusError (List Target)) :=
  holding (.element e) <| holding (.model m) do
    match ← engine.bindText bus m e with
    | .error failure => return .error failure
    | .ok text =>
      let p ← get
      let (targets, p) := p.bindAttributes bus m e (p.attributesOf e).entries
      set p
      return .ok (text.toList ++ targets)

end Engine

end Bindery
