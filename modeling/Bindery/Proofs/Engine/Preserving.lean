import Bindery.Proofs.Engine.Strict
import Bindery.Proofs.Engine.Within

/-!
# Properties that whatever is called keeps

A property of the page is kept by an engine if publishing and firing leave it true.  It is kept by
every engine if listeners and handlers keep it, given an engine that does, and neither the beginning
and the end of a delivery nor holding on and letting go matter to it.

* `Engine.Preserves`      publishing and firing keep a property
* `Preserves.routine`     then a routine does whose own changes keep it
* `Preserves.program`     and a program whose calls do
* `preserves_ofFrames`    every engine keeps what listeners and handlers keep
-/

namespace Bindery

variable {κ σ α : Type} {I : Page κ σ → Prop}

structure Engine.Preserves (engine : Engine κ σ) (I : Page κ σ → Prop) : Prop where
  publish : ∀ {bus event value p a q}, engine.publish bus event value p = some (a, q) → I p → I q
  dispatch : ∀ {e kind p a q}, engine.dispatch e kind p = some (a, q) → I p → I q

theorem Program.tame_of_forall {allowed : Call κ → Prop} (h : ∀ c, allowed c)
    (program : Program κ σ α) : program.Tame allowed := by
  induction program with
  | done a => trivial
  | inspect next ih => exact ih
  | amend f next ih => exact ih
  | call c next ih => exact ⟨h c, ih⟩

theorem Callbacks.tame_of_forall {allowed : Call κ → Prop} (h : ∀ c, allowed c)
    (callbacks : Callbacks κ σ) : callbacks.Tame allowed :=
  ⟨fun _ _ => Program.tame_of_forall h _, fun _ _ => Program.tame_of_forall h _⟩

namespace Engine

variable {callbacks : Callbacks κ σ} {engine : Engine κ σ} {p q : Page κ σ} {a : α}

namespace Preserves

theorem routine (he : engine.Preserves I) {routine : Routine κ σ α}
    (hr : routine.Within (fun p q => I p → I q) True) (h : routine.run engine p = some (a, q))
    (hp : I p) : I q := by
  induction routine generalizing p with
  | done b =>
    cases h
    exact hp
  | look next ih => exact ih p (hr p) h hp
  | change f next ih => exact ih hr.2 h (hr.1 p hp)
  | publish bus event value next ih =>
    obtain ⟨b, s, hs, hq⟩ := Run.bind_eq_some.mp h
    exact ih b (hr b) hq (he.publish hs hp)
  | dispatch e kind next ih =>
    obtain ⟨b, s, hs, hq⟩ := Run.bind_eq_some.mp h
    exact ih b (hr.2 b) hq (he.dispatch hs hp)

theorem call (he : engine.Preserves I) {c : Call κ}
    (hc : (c.routine : Routine κ σ _).Within (fun p q => I p → I q) True) {a : c.Answer}
    (h : c.run engine p = some (a, q)) (hp : I p) : I q := by
  rw [← c.run_routine engine] at h
  exact he.routine hc h hp

theorem program {allowed : Call κ → Prop}
    (hcall : ∀ {c : Call κ} {a p q}, allowed c → c.run engine p = some (a, q) → I p → I q)
    (hhost : ∀ {p} (f : σ → σ), I p → I { p with host := f p.host }) {program : Program κ σ α}
    (ht : program.Tame allowed) (h : program.run engine p = some (a, q)) (hp : I p) : I q := by
  induction program generalizing p with
  | done b =>
    cases h
    exact hp
  | inspect next ih => exact ih p (ht p) h hp
  | amend f next ih => exact ih ht h (hhost f hp)
  | call c next ih =>
    obtain ⟨b, s, hs, hq⟩ := Run.bind_eq_some.mp h
    exact ih b (ht.2 b) hq (hcall ht.1 hs hp)

theorem deliver
    (hnotify : ∀ {l value a p q}, notify callbacks engine l value p = some (a, q) → I p → I q)
    {bus : BusId} {event : String} {generation : Nat} {value : Value} {turns : List Nat}
    {outcome : Outcome}
    (h : deliver callbacks engine bus event generation value turns p = some (outcome, q))
    (hp : I p) : I q := by
  induction turns generalizing p with
  | nil =>
    cases h
    exact hp
  | cons i rest ih =>
    rw [Engine.deliver, Run.get_bind] at h
    cases hs : (p.bus? bus).bind (·.slot? event generation i) with
    | none =>
      rw [hs] at h
      cases h
      exact hp
    | some slot =>
      rw [hs] at h
      cases slot with
      | none => exact ih h hp
      | some l =>
        obtain ⟨outcome', s, hn, hrest⟩ := Run.bind_eq_some.mp h
        cases outcome' with
        | ok u => exact ih hrest (hnotify hn hp)
        | error failure =>
          cases hrest
          exact hnotify hn hp

theorem handleAll
    (hhandle : ∀ {e handler a p q}, handle callbacks engine e handler p = some (a, q) → I p → I q)
    {e : ElementId} {handlers : List (Handler κ)} {outcome : Outcome}
    (h : handleAll callbacks engine e handlers p = some (outcome, q)) (hp : I p) : I q := by
  induction handlers generalizing p with
  | nil =>
    cases h
    exact hp
  | cons handler rest ih =>
    obtain ⟨outcome', s, hn, hrest⟩ := Run.bind_eq_some.mp h
    cases outcome' with
    | ok u => exact ih hrest (hhandle hn hp)
    | error failure =>
      cases hrest
      exact hhandle hn hp

theorem publishWith (hbuses : ∀ {p} bus f, I p → I (p.modifyBus bus f))
    (hnotify : ∀ {l value a p q}, notify callbacks engine l value p = some (a, q) → I p → I q)
    {bus : BusId} {event : String} {value : Value} {outcome : Outcome}
    (h : publishWith callbacks engine bus event value p = some (outcome, q)) (hp : I p) : I q := by
  cases hb : p.bus? bus with
  | none =>
    rw [publishWith_of_absent hb] at h
    cases h
    exact hp
  | some r =>
    cases hr : r.enter event with
    | error failure =>
      rw [publishWith_of_refused hb hr] at h
      cases h
      exact hp
    | ok entered =>
      cases entered with
      | none =>
        rw [publishWith_of_silent hb hr] at h
        cases h
        exact hp
      | some x =>
        obtain ⟨s, hd, rfl⟩ := publishWith_eq_some_of_entered hb hr h
        exact hbuses _ _ (deliver hnotify hd (hbuses _ _ hp))

end Preserves

/-- By induction on the frames: an engine calls listeners and handlers with a smaller one. -/
theorem preserves_ofFrames (hbuses : ∀ {p} bus f, I p → I (p.modifyBus bus f))
    (hhold : ∀ {p} h, I p → I (p.hold h)) (hrelease : ∀ {p} h, I p → I (p.release h))
    (hnotify : ∀ {engine : Engine κ σ}, engine.Preserves I → ∀ {l value a p q},
      notify callbacks engine l value p = some (a, q) → I p → I q)
    (hhandle : ∀ {engine : Engine κ σ}, engine.Preserves I → ∀ {e handler a p q},
      handle callbacks engine e handler p = some (a, q) → I p → I q) (frames : Nat) :
    (ofFrames callbacks frames).Preserves I := by
  induction frames with
  | zero => exact ⟨fun h => (nomatch h), fun h => (nomatch h)⟩
  | succ frames ih =>
    refine ⟨fun h hp => Preserves.publishWith hbuses (hnotify ih) h hp, fun h hp => ?_⟩
    obtain ⟨s, hs, rfl⟩ := Run.holding_eq_some.mp h
    exact hrelease _ (Preserves.handleAll (hhandle ih) hs (hhold _ hp))

end Engine

end Bindery
