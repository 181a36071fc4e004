import Bindery.Engine.Basic

/-!
# Taking a run apart

A run either gives a result with a page or gives nothing.  These lemmas go through a run one part at
a time, with the page that each part leaves.

* `Run.bind_of_eq`     going on after a part whose result is known
* `Run.bind_eq_some`   the two parts of a run that has a result
-/

namespace Bindery

namespace Run

variable {κ σ α β : Type} {p q r : Page κ σ}

theorem bind_of_eq {m : Run κ σ α} {a : α} (h : m p = some (a, q)) (f : α → Run κ σ β) :
    (m >>= f) p = f a q := by
  show (m p).bind (fun x => f x.1 x.2) = _
  rw [h]
  rfl

theorem bind_eq_some {m : Run κ σ α} {f : α → Run κ σ β} {b : β} :
    (m >>= f) p = some (b, r) ↔ ∃ a q, m p = some (a, q) ∧ f a q = some (b, r) := by
  show (m p).bind (fun x => f x.1 x.2) = _ ↔ _
  rw [Option.bind_eq_some_iff]
  constructor
  · rintro ⟨⟨a, q⟩, h, k⟩
    exact ⟨a, q, h, k⟩
  · rintro ⟨a, q, h, k⟩
    exact ⟨(a, q), h, k⟩

@[simp] theorem pure_apply (a : α) (p : Page κ σ) : (pure a : Run κ σ α) p = some (a, p) := rfl

@[simp] theorem get_bind (f : Page κ σ → Run κ σ β) (p : Page κ σ) : (get >>= f) p = f p p := rfl

@[simp] theorem set_bind (q : Page κ σ) (f : PUnit → Run κ σ β) (p : Page κ σ) :
    (set q >>= f) p = f ⟨⟩ q := rfl

@[simp] theorem modify_bind (g : Page κ σ → Page κ σ) (f : PUnit → Run κ σ β) (p : Page κ σ) :
    ((modify g : Run κ σ PUnit) >>= f) p = f ⟨⟩ (g p) := rfl

@[simp] theorem modifyGet_bind (g : Page κ σ → α × Page κ σ) (f : α → Run κ σ β) (p : Page κ σ) :
    ((modifyGet g : Run κ σ α) >>= f) p = f (g p).1 (g p).2 := rfl

theorem holding_of_eq {h : Handle} {m : Run κ σ α} {a : α} (e : m (p.hold h) = some (a, q)) :
    holding h m p = some (a, q.release h) := by
  unfold holding
  rw [modify_bind, bind_of_eq e]
  rfl

theorem holding_eq_some {h : Handle} {m : Run κ σ α} {a : α} :
    holding h m p = some (a, r) ↔ ∃ q, m (p.hold h) = some (a, q) ∧ r = q.release h := by
  unfold holding
  rw [modify_bind, bind_eq_some]
  constructor
  · rintro ⟨b, q, hm, hr⟩
    rw [modify_bind, pure_apply, Option.some.injEq, Prod.mk.injEq] at hr
    obtain ⟨rfl, rfl⟩ := hr
    exact ⟨q, hm, rfl⟩
  · rintro ⟨q, hm, rfl⟩
    exact ⟨a, q, hm, rfl⟩

end Run

end Bindery
