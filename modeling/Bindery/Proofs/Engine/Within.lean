import Bindery.Proofs.Engine.Routine
import Bindery.Proofs.Engine.Strict

/-!
# What a routine keeps to

All changes that a routine makes itself may be related in one way.  What writing, binding and views
change is made up of a few changes, so a relation that holds of these holds of all of it.

* `Routine.Within`    all changes that a routine makes are of a kind
* `Page.BindsWithin`  a relation that holds of what binding changes
* `BindsWithin.load`  so it holds of what loading changes, if it holds of changes to the view
* `Page.Ordinary`     a relation that holds of what writing changes as well
-/

namespace Bindery

variable {κ σ α β : Type}

/-- All changes that the routine makes itself are related by `R`, and it fires events only if it may. -/
def Routine.Within (R : Page κ σ → Page κ σ → Prop) (fires : Prop) : Routine κ σ α → Prop
  | .done _ => True
  | .look next => ∀ p, (next p).Within R fires
  | .change f next => (∀ p, R p (f p)) ∧ next.Within R fires
  | .publish _ _ _ next => ∀ a, (next a).Within R fires
  | .dispatch _ _ next => fires ∧ ∀ a, (next a).Within R fires

namespace Routine.Within

variable {R : Page κ σ → Page κ σ → Prop} {fires : Prop}

theorem bind {routine : Routine κ σ α} {f : α → Routine κ σ β} (h : routine.Within R fires)
    (hf : ∀ a, (f a).Within R fires) : (routine >>= f).Within R fires := by
  show (routine.bind f).Within R fires
  induction routine with
  | done a => exact hf a
  | look next ih => exact fun p => ih p (h p)
  | change g next ih => exact ⟨h.1, ih h.2⟩
  | publish bus event value next ih => exact fun a => ih a (h a)
  | dispatch e kind next ih => exact ⟨h.1, fun a => ih a (h.2 a)⟩

theorem mono {R' : Page κ σ → Page κ σ → Prop} {fires' : Prop} {routine : Routine κ σ α}
    (h : routine.Within R fires) (hR : ∀ p q, R p q → R' p q) (hfires : fires → fires') :
    routine.Within R' fires' := by
  induction routine with
  | done a => trivial
  | look next ih => exact fun p => ih p (h p)
  | change g next ih => exact ⟨fun p => hR p _ (h.1 p), ih h.2⟩
  | publish bus event value next ih => exact fun a => ih a (h a)
  | dispatch e kind next ih => exact ⟨hfires h.1, fun a => ih a (h.2 a)⟩

theorem pure (a : α) : (Pure.pure a : Routine κ σ α).Within R fires := trivial

theorem page : (Routine.page : Routine κ σ (Page κ σ)).Within R fires := fun _ => trivial

theorem amend {f : Page κ σ → Page κ σ} (h : ∀ p, R p (f p)) : (Routine.amend f).Within R fires :=
  ⟨h, trivial⟩

theorem amendGet {f : Page κ σ → α × Page κ σ} (h : ∀ p, R p (f p).2) :
    (Routine.amendGet f).Within R fires := fun _ => ⟨h, trivial⟩

theorem announce (bus : BusId) (event : String) (value : Value) :
    (Routine.announce bus event value : Routine κ σ Outcome).Within R fires := fun _ => trivial

theorem fire (h : fires) (e : ElementId) (kind : EventKind) :
    (Routine.fire e kind : Routine κ σ Outcome).Within R fires := ⟨h, fun _ => trivial⟩

end Routine.Within

/-! ## What writing and binding change -/

/-- A relation that holds of whatever binding changes, and of changing nothing. -/
structure Page.BindsWithin (R : Page κ σ → Page κ σ → Prop) : Prop where
  refl : ∀ p, R p p
  hold : ∀ p h, R p (p.hold h)
  release : ∀ p h, R p (p.release h)
  subscribe : ∀ p b event l, R p (p.subscribe b event l).2
  bindAttributes : ∀ p b m e entries, R p (p.bindAttributes b m e entries).2

/-- A relation that holds of whatever writing and binding change, and of changing nothing. -/
structure Page.Ordinary (R : Page κ σ → Page κ σ → Prop) : Prop extends Page.BindsWithin R where
  store : ∀ p m key value, R p (p.store m key value)

namespace Page.BindsWithin

open Routine

variable {R : Page κ σ → Page κ σ → Prop} {fires : Prop}

theorem holding (hR : BindsWithin R) {routine : Routine κ σ α} (h : routine.Within R fires)
    (x : Handle) : (Routine.holding x routine).Within R fires :=
  (Within.amend fun p => hR.hold p x).bind fun _ =>
    h.bind fun _ => (Within.amend fun p => hR.release p x).bind fun _ => .pure _

theorem bindSlots (hR : BindsWithin R) (bus : BusId) (m : ModelId) (e : ElementId) (template : String)
    (all names : List String) :
    (Routine.bindSlots bus m e template all names : Routine κ σ _).Within R fires := by
  induction names with
  | nil => exact Within.pure _
  | cons name rest ih =>
    refine Within.page.bind fun p => ?_
    split
    · refine (Within.amend fun p => hR.subscribe p bus _ _).bind fun u => ?_
      refine (Within.announce _ _ _).bind fun outcome => ?_
      cases outcome with
      | error failure => exact Within.pure _
      | ok u => exact ih.bind fun _ => Within.pure _
    · exact ih

theorem bindElement (hR : BindsWithin R) (bus : BusId) (m : ModelId) (e : ElementId) :
    (Routine.bindElement bus m e : Routine κ σ _).Within R fires := by
  have htext : (Routine.bindText bus m e : Routine κ σ _).Within R fires := by
    refine Within.page.bind fun p => ?_
    cases p.textOf? e with
    | none => exact Within.pure _
    | some template =>
      dsimp only
      cases Template.names? template with
      | none => exact Within.pure _
      | some names =>
        exact (hR.bindSlots bus m e template names names).bind fun _ => Within.pure _
  refine hR.holding (hR.holding (htext.bind fun outcome => ?_) _) _
  cases outcome with
  | error failure => exact Within.pure _
  | ok text =>
    exact (Within.amendGet fun p => hR.bindAttributes p bus m e _).bind fun _ => Within.pure _

/-! ### Views -/

variable {v : ViewId}

theorem bindChildren (hR : BindsWithin R) (hview : ∀ p f, R p (p.modifyView v f)) (bus : BusId)
    (m : ModelId) (es : List ElementId) :
    (Routine.bindChildren v bus m es : Routine κ σ Outcome).Within R fires := by
  induction es with
  | nil => exact Within.pure _
  | cons e rest ih =>
    refine (hR.bindElement bus m e).bind fun outcome => ?_
    cases outcome with
    | error failure => exact Within.pure _
    | ok targets => exact (Within.amend fun p => hview p _).bind fun _ => ih

theorem populate (hR : BindsWithin R) (hview : ∀ p f, R p (p.modifyView v f))
    (hmarkup : ∀ p e markup, R p (p.setMarkup e markup)) (markup : String) :
    (Routine.populate v markup : Routine κ σ _).Within R fires := by
  refine Within.page.bind fun p => ?_
  cases p.view? v with
  | none => exact Within.pure _
  | some view =>
    dsimp only
    cases Engine.allowed "populate" [.uninitialized, .fetching] view with
    | error failure => exact Within.pure _
    | ok u =>
      refine hR.holding ?_ _
      refine (Within.amend fun p => hmarkup p _ _).bind fun u => ?_
      refine Within.page.bind fun p => (Within.amend fun p => hview p _).bind fun u => ?_
      refine (hR.bindChildren hview _ _ _).bind fun outcome => ?_
      cases outcome with
      | error failure => exact (Within.amend fun p => hview p _).bind fun _ => Within.pure _
      | ok u => exact (Within.amend fun p => hview p _).bind fun _ => Within.pure _

theorem load (hR : BindsWithin R) (hview : ∀ p f, R p (p.modifyView v f))
    (hmarkup : ∀ p e markup, R p (p.setMarkup e markup)) {shelf : Option ShelfId}
    (hrequest : ∀ s, shelf = some s → ∀ p path, R p (p.request s path).2) :
    (Routine.load v shelf : Routine κ σ _).Within R fires := by
  refine Within.page.bind fun p => ?_
  cases p.view? v with
  | none => exact Within.pure _
  | some view =>
    dsimp only
    cases Engine.allowed "load" [.uninitialized] view with
    | error failure => exact Within.pure _
    | ok u =>
      refine (Within.amend fun p => hview p _).bind fun u => ?_
      refine (Within.amendGet fun p => ?_).bind fun answer => ?_
      · cases shelf with
        | none => exact hR.refl p
        | some s => exact hrequest s rfl p view.path
      · cases answer with
        | none => exact Within.pure _
        | some fetched =>
          cases fetched with
          | error failure => exact (Within.amend fun p => hview p _).bind fun _ => Within.pure _
          | ok markup => exact (hR.populate hview hmarkup markup).bind fun _ => Within.pure _

end Page.BindsWithin

open Routine in
theorem Page.Ordinary.write {R : Page κ σ → Page κ σ → Prop} {fires : Prop} (hR : Page.Ordinary R)
    (m : ModelId) (key : String) (value : Value) :
    (Routine.write m key value : Routine κ σ Outcome).Within R fires := by
  refine Within.page.bind fun p => ?_
  cases p.model? m with
  | none => exact Within.pure _
  | some model =>
    refine (Within.amend fun p => hR.store p m key value).bind fun u => ?_
    split
    · exact hR.holding (Within.announce _ _ _) _
    · exact Within.pure _

/-! ## Programs -/

/-- A program keeps to what its calls keep to. -/
theorem Program.within_routine {R : Page κ σ → Page κ σ → Prop} {fires : Prop}
    {allowed : Call κ → Prop} (hhost : ∀ p (f : σ → σ), R p { p with host := f p.host })
    (hcall : ∀ c, allowed c → (c.routine : Routine κ σ _).Within R fires) {program : Program κ σ α}
    (h : program.Tame allowed) : program.routine.Within R fires := by
  induction program with
  | done a => trivial
  | inspect next ih => exact fun p => ih p (h p)
  | amend f next ih => exact ⟨fun p => hhost p f, ih h⟩
  | call c next ih => exact (hcall c h.1).bind fun a => ih a (h.2 a)

end Bindery
