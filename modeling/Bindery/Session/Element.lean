import Bindery.Page.Lifetime
import Bindery.Page.Summary
import Bindery.Session.Task

/-!
# Steps on elements

`ElementStep.task` is the meaning of a step on an element or a document.  `carried` is the value being
delivered to the listener that runs the step.
-/

namespace Bindery.Session

namespace Task

def pageElement (name : String) : Task (PageElement Installed) := do
  let e ← element name
  need ((← page).element? e)

def reads {α : Type} (name : String) (f : Page Installed Desk → ElementId → α) : Task α := do
  let e ← element name
  return f (← page) e

def tagsOf (p : Page Installed Desk) (elements : List ElementId) : List String :=
  elements.filterMap fun e => (p.element? e).map PageElement.tag

/-- Gives an element its first attributes, text and markup, in this order. -/
def fill (e : ElementId) (c : ElementContent) : Task Unit := do
  c.attributes.forM fun a => ask (.setAttribute e a.1 a.2)
  c.text?.forM fun text => ask (.setText e text)
  c.markup?.forM fun markup => ask (.setMarkup e markup)

def scope : Scope → Task ElementId
  | .document name => document name
  | .element name => element name

end Task

namespace ElementStep

def task (carried : Value) : ElementStep Reaction → Task Answer
  | create as? tag content => do
    let e ← Task.ask (.create tag)
    Task.fill e content
    Task.keep as? (.element e)
    return .nothing
  | createDocument as? markup? => do
    let root ← Task.ask (.create "html")
    markup?.forM fun markup => Task.ask (.setMarkup root markup)
    Task.keep as? (.document root)
    return .nothing
  | rootOf document as? => do
    Task.keep as? (.element (← Task.document document))
    return .nothing
  | getAttribute el name => do
    match (← Task.pageElement el).attributes.get? name with
    | some v => return .text v
    | none => return .nothing
  | hasAttribute el name => return .flag ((← Task.pageElement el).attributes.contains name)
  | setAttribute el name value => do
    Task.ask (.setAttribute (← Task.element el) name value)
    return .nothing
  | removeAttribute el name => do
    Task.ask (.removeAttribute (← Task.element el) name)
    return .nothing
  | attributes el => return .attributes (← Task.pageElement el).attributes.entries
  | textOf el => do
    match ← Task.reads el Page.textOf? with
    | some text => return .text text
    | none => return .nothing
  | readProperty el name => return .value (← Task.reads el fun p e => p.property e name)
  | writeProperty el name payload => do
    Task.ask (.setProperty (← Task.element el) name (Task.payload carried payload))
    return .nothing
  | textContent el => return .text (← Task.reads el Page.textContent)
  | setText el text => do
    Task.ask (.setText (← Task.element el) text)
    return .nothing
  | setMarkup el markup => do
    Task.ask (.setMarkup (← Task.element el) markup)
    return .nothing
  | inner el => return .text (← Task.reads el Page.innerMarkup)
  | outer el => return .text (← Task.reads el Page.outerMarkup)
  | nodes el => return .nodes (← Task.reads el fun p e => (p.inner e).nodes 0)
  | appendText el text => do
    Task.ask (.append (← Task.element el) (.text text))
    return .nothing
  | appendChild el child => do
    let e ← Task.element el
    Task.ask (.append e (.element (← Task.element child)))
    return .nothing
  | children el => return .tags (← Task.reads el fun p e => Task.tagsOf p (p.childElements e))
  | childAt el index as? => do
    match (← Task.reads el Page.childElements)[index]? with
    | some e =>
      Task.keep as? (.element e)
      return .flag true
    | none => return .flag false
  | query scope selector as? => do
    let e ← Task.scope scope
    match (← Task.page).query? e selector with
    | some found =>
      Task.keep as? (.element found)
      return .text ((← Task.page).outerMarkup found)
    | none => return .nothing
  | same el other => return .flag ((← Task.element el) = (← Task.element other))
  | createWeak el as? => do
    Task.keep as? (.weak (← Task.element el))
    return .nothing
  | alive weak => do
    let e ← Task.weak weak
    return .flag ((← Task.page).elementAlive e)
  | listen el kind reaction => do
    let e ← Task.element el
    Task.ask (.listen e kind (← Task.install reaction))
    return .nothing
  | listeners el => do
    let handlers := (← Task.pageElement el).handlers
    return .handlers (handlers.countP (·.1 = .input)) (handlers.countP (·.1 = .change))
  | dispatch el kind => do
    Task.ofOutcome (← Task.ask (.dispatch (← Task.element el) kind))
    return .nothing
  | summary el => return .text (← Task.pageElement el).summary

end ElementStep

end Bindery.Session
