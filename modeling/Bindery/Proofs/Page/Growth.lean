import Bindery.Proofs.Page.Store

/-!
# Models that grow

A model is never taken away, its name and the keys that it announces stay, and a key that it has it
keeps.

* `Model.Extends`   the same model, with as many keys or more
* `Page.Grown`      every model is still there
-/

namespace Bindery

/-- The same model, with as many keys or more. -/
structure Model.Extends (d d' : Model) : Prop where
  bus : d'.bus = d.bus
  name : d'.name = d.name
  observed : d'.observed = d.observed
  keys : ∀ k, d.contains k = true → d'.contains k = true

namespace Model.Extends

variable {d d' d'' : Model}

theorem refl (d : Model) : Extends d d := ⟨rfl, rfl, rfl, fun _ h => h⟩

theorem trans (h : Extends d d') (k : Extends d' d'') : Extends d d'' where
  bus := k.bus.trans h.bus
  name := k.name.trans h.name
  observed := k.observed.trans h.observed
  keys x hx := k.keys x (h.keys x hx)

theorem event (h : Extends d d') (k : String) : d'.event k = d.event k := by
  unfold Model.event
  rw [h.name]

theorem store (d : Model) (key : String) (value : Value) :
    d.Extends { d with values := d.values.set key value } where
  bus := rfl
  name := rfl
  observed := rfl
  keys k hk := by
    rw [Model.contains_eq] at hk ⊢
    by_cases h : k = key
    · rw [h, d.get?_written_self]
      rfl
    · rw [d.get?_written_of_ne h]
      exact hk

end Model.Extends

namespace Page

variable {κ σ : Type} {p q s : Page κ σ}

/-- Every model is still there, with as many keys or more. -/
def Grown (p q : Page κ σ) : Prop :=
  ∀ m d, p.model? m = some d → ∃ d', q.model? m = some d' ∧ d.Extends d'

namespace Grown

theorem refl (p : Page κ σ) : p.Grown p := fun _ d h => ⟨d, h, Model.Extends.refl d⟩

theorem trans (h : p.Grown q) (k : q.Grown s) : p.Grown s := by
  intro m d hd
  obtain ⟨d₁, hd₁, he₁⟩ := h m d hd
  obtain ⟨d₂, hd₂, he₂⟩ := k m d₁ hd₁
  exact ⟨d₂, hd₂, he₁.trans he₂⟩

theorem of_models (h : q.models = p.models) : p.Grown q := by
  intro m d hd
  exact ⟨d, (model?_of_models h m).trans hd, Model.Extends.refl d⟩

theorem store (p : Page κ σ) (m : ModelId) (key : String) (value : Value) :
    p.Grown (p.store m key value) := by
  intro n d hn
  by_cases h : m = n
  · subst h
    exact ⟨_, model?_store_self hn key value, Model.Extends.store d key value⟩
  · exact ⟨d, (model?_store_of_ne h key value).trans hn, Model.Extends.refl d⟩

theorem subscribe (p : Page κ σ) (bus : BusId) (event : String) (l : Listener κ) :
    p.Grown (p.subscribe bus event l).2 := by
  cases hb : p.bus? bus with
  | none =>
    rw [subscribe_of_none hb]
    exact refl p
  | some r =>
    rw [subscribe_of_some hb]
    exact of_models rfl

end Grown

end Page

end Bindery
