import Bindery.Proofs.Binding.Joining

/-!
# Texts stay in sync

A run binds elements, one after the other, and in between carries out programs, which write to models
and fire events on elements.  Whatever is called on the way may do the same.  As long as nothing fails,
each text that was bound is in sync whenever nothing is in flight.

* `Page.Vacant`      a page on which no text was bound yet
* `Reached`          the pages that a run comes to, with the texts bound by then
* `texts_in_sync`    on each of these pages they are in sync
-/

namespace Bindery

variable {κ σ : Type}

namespace Page

def Announced (b : BusId) (p : Page κ σ) (event : String) : Prop :=
  ∃ m d k, p.model? m = some d ∧ d.bus = b ∧ k ∈ d.observed ∧ d.event k = event

/-- A page on which no text was bound yet and nothing is in flight on the bus. -/
structure Vacant (b : BusId) (p : Page κ σ) : Prop where
  bus : ∃ r, p.bus? b = some r ∧ r.inFlight = []
  texts : ∀ {x r event l}, p.bus? x = some r → l ∈ r.heard event → l.fillsText = false
  /-- no two models have an event in common -/
  distinct : ∀ {m d m' d' k k'}, p.model? m = some d → p.model? m' = some d' → d.bus = b →
    d'.bus = b → k ∈ d.observed → k' ∈ d'.observed → d.event k = d'.event k' → m = m'
  keys : ∀ {m d k}, p.model? m = some d → k ∈ d.observed → d.contains k = true

/-- A text that may be bound besides others: it is the text of an element that stands apart from
theirs. -/
structure Bindable (b : BusId) (bs : List Binding) (p : Page κ σ) (β : Binding) : Prop where
  model : ∃ d, p.model? β.model = some d ∧ d.bus = b
  element : ∃ d, p.element? β.element = some d
  text : p.textContent β.element = β.template
  apart : ∀ γ ∈ bs, γ.element ≠ β.element ∧ ¬ p.Inside γ.element β.element ∧
    ¬ p.Inside β.element γ.element

end Page

/-- The pages that a run comes to, with the texts that were bound by then.  Each step has a result, and
has it with the strict engine as well: nothing that is published on the way fails, whether or not the
code that asked for it goes on, and no value shows a `$`.  A program may end after any of its calls,
and firing an event is to hold the element while handlers are called, which are programs too; so a run
comes to the pages between two handlers as well. -/
inductive Reached (callbacks : Callbacks κ σ) (b : BusId) (start : Page κ σ) :
    List Binding → Page κ σ → Prop where
  | start : Reached callbacks b start [] start
  | bind {bs : List Binding} {p q : Page κ σ} (β : Binding) (frames : Nat) {targets : List Target} :
      Reached callbacks b start bs p → p.Bindable b bs β →
      (Engine.ofFrames callbacks frames).bindElement b β.model β.element p = some (.ok targets, q) →
      ((Engine.strict callbacks frames).bindElement b β.model β.element p).isSome = true →
      q.Settled β.model β.template → Reached callbacks b start (β :: bs) q
  | run {bs : List Binding} {p q : Page κ σ} (program : Program κ σ Unit) (frames : Nat) :
      Reached callbacks b start bs p → program.Tame (Call.Mild b (start.Announced b)) →
      program.run (Engine.ofFrames callbacks frames) p = some ((), q) →
      (program.run (Engine.strict callbacks frames) p).isSome = true → Reached callbacks b start bs q
  | hold {bs : List Binding} {p : Page κ σ} (h : Handle) : Reached callbacks b start bs p →
      p.isAlive h = true → Reached callbacks b start bs (p.hold h)
  | release {bs : List Binding} {p : Page κ σ} (h : Handle) : Reached callbacks b start bs p →
      Reached callbacks b start bs (p.release h)

namespace Page

variable {b : BusId} {isChange : String → Prop} {bs cs : List Binding} {β : Binding} {p q : Page κ σ}

/-- Nothing is in flight, every binding has its listeners, and the texts of which something is said are
in sync. -/
structure Standing (b : BusId) (isChange : String → Prop) (bs : List Binding) (p : Page κ σ) :
    Prop where
  sound : Sound b isChange bs p
  idle : ∃ r, p.bus? b = some r ∧ r.inFlight = []
  registered : ∀ β ∈ bs, p.Registered b β
  synced : ∀ β ∈ bs, p.Relevant β → p.InSync β

theorem Vacant.standing (h : p.Vacant b) : p.Standing b (p.Announced b) [] where
  sound :=
    { bus := by
        obtain ⟨r, hr, -⟩ := h.bus
        exact ⟨r, hr⟩
      texts := fun hb hl ht => by
        rw [h.texts hb hl] at ht
        cases ht
      inFlight := fun hb hf => by
        obtain ⟨r, hr, hidle⟩ := h.bus
        cases hb.symm.trans hr
        rw [hidle] at hf
        cases hf
      changes := fun hm hbus hk => ⟨_, _, _, hm, hbus, hk, rfl⟩
      distinct := h.distinct
      keys := h.keys
      apart := fun _ hβ => absurd hβ List.not_mem_nil
      models := fun _ hβ => absurd hβ List.not_mem_nil }
  idle := h.bus
  registered _ hβ := absurd hβ List.not_mem_nil
  synced _ hβ := absurd hβ List.not_mem_nil

namespace Standing

theorem idle_of_onward (h : p.Standing b isChange bs) (ho : Onward b cs p q) :
    ∃ r, q.bus? b = some r ∧ r.inFlight = [] := by
  obtain ⟨r, hr, hidle⟩ := h.idle
  obtain ⟨r', hr', hk⟩ := ho.bus hr
  exact ⟨r', hr', hk.inFlight.trans hidle⟩

theorem onward (h : p.Standing b isChange bs) (ho : Onward b bs p q) : q.Standing b isChange bs where
  sound := h.sound.onward ho
  idle := h.idle_of_onward ho
  registered β hβ := ho.registered (h.registered β hβ)
  synced β hβ hrel := ho.synced β hβ (h.registered β hβ) hrel (h.synced β hβ (ho.relevant hrel))

theorem hold (h : p.Standing b isChange bs) {x : Handle} (hx : p.isAlive x = true) :
    (p.hold x).Standing b isChange bs where
  sound := h.sound.of_same rfl rfl rfl
  idle := h.idle
  registered := h.registered
  synced β hβ hrel := by
    have halive : p.elementAlive β.element = true := elementAlive_of_hold hx hrel.alive
    have hin := h.synced β hβ ⟨hrel.tidy, hrel.settled, halive⟩
    exact hin.of_same rfl rfl

theorem release (h : p.Standing b isChange bs) (x : Handle) :
    (p.release x).Standing b isChange bs where
  sound := h.sound.of_same rfl rfl rfl
  idle := h.idle
  registered := h.registered
  synced β hβ hrel := (h.synced β hβ (relevant_of_release hrel)).of_same rfl rfl

end Standing

end Page

open Page Engine

variable {callbacks : Callbacks κ σ} {b : BusId} {start p : Page κ σ} {bs : List Binding}

theorem standing_of_reached (hstart : start.Vacant b)
    (hc : callbacks.Tame (Call.Mild b (start.Announced b))) (h : Reached callbacks b start bs p) :
    p.Standing b (start.Announced b) bs := by
  induction h with
  | start => exact hstart.standing
  | @bind bs p q β frames targets _ hβ hrun hstrict hset ih =>
    have hrun' := (below_bindElement (strict_below hc frames) b β.model β.element).eq_of_isSome
      hstrict hrun
    obtain ⟨d, hm, hbus⟩ := hβ.model
    have hs := ih.sound.cons hm hbus hβ.apart
    obtain ⟨ho, hreg, hsync⟩ := onward_bindElement (steady_strict hc frames) (strict_below hc frames) hs
      List.mem_cons_self hβ.text hβ.element hset hrun'
    refine ⟨hs.onward ho, ih.idle_of_onward ho, fun γ hγ => ?_, fun γ hγ hrel => ?_⟩
    · rcases List.mem_cons.mp hγ with rfl | hγ'
      · exact hreg
      · exact ho.registered (ih.registered γ hγ')
    · rcases List.mem_cons.mp hγ with rfl | hγ'
      · exact hsync hrel
      · exact ho.synced γ hγ (ih.registered γ hγ') hrel (ih.synced γ hγ' (ho.relevant hrel))
  | @run bs p q program frames _ ht hrun hstrict ih =>
    have hrun' := (below_program (strict_below hc frames) ht).eq_of_isSome hstrict hrun
    exact ih.onward (onward_program (steady_strict hc frames) ih.sound ht hrun')
  | hold x _ hx ih => exact ih.hold hx
  | release x _ ih => exact ih.release x

/-- Each text that was bound is its template with the values of now in place of their names, as long as
its element is alive. -/
theorem texts_in_sync (hstart : start.Vacant b)
    (hc : callbacks.Tame (Call.Mild b (start.Announced b))) (h : Reached callbacks b start bs p)
    {β : Binding} (hβ : β ∈ bs) (htidy : Template.Tidy β.template)
    (hset : p.Settled β.model β.template) (halive : p.elementAlive β.element = true) :
    p.textContent β.element = Template.fill (p.lookup β.model) β.template :=
  (standing_of_reached hstart hc h).synced β hβ ⟨htidy, hset, halive⟩

/-! ## Two letters -/

def copyingCode : Callbacks Unit Unit where
  onPublish _ value := .call (.write ⟨0⟩ "b" value) .done
  onEvent _ _ := .done (.ok ())

def lettersModel : Model := ⟨⟨0⟩, "m", [("a", .text "1"), ("b", .text "2")], ["a", "b"]⟩

/-- A text that shows both keys, and a listener that copies each new `a` to `b`. -/
def lettersPage : Page Unit Unit where
  buses := #[(({ maxDepth := 8 } : Registry (Listener Unit)).subscribe "m.a:change" (.callback ())).2]
  models := #[lettersModel]
  elements := #[{ tag := "p", children := [.text "${a}, ${b}"] }]
  held := [.element ⟨0⟩, .model ⟨0⟩]
  host := ()

def lettersBinding : Binding := ⟨⟨0⟩, ⟨0⟩, "${a}, ${b}"⟩

def writingThree : Program Unit Unit Unit := .call (.write ⟨0⟩ "a" (.text "3")) fun _ => .done ()

theorem model?_lettersPage {m : ModelId} {d : Model} (h : lettersPage.model? m = some d) :
    m = ⟨0⟩ ∧ d = lettersModel := by
  obtain ⟨hlt, hd⟩ := Array.getElem?_eq_some_iff.mp h
  have hlt' : m.index < 1 := hlt
  obtain ⟨index⟩ := m
  obtain rfl : index = 0 := Nat.lt_one_iff.mp hlt'
  exact ⟨rfl, hd.symm⟩

theorem vacant_lettersPage : lettersPage.Vacant ⟨0⟩ where
  bus := ⟨_, rfl, rfl⟩
  texts {x r event l} hb hl := by
    obtain ⟨hlt, hr⟩ := Array.getElem?_eq_some_iff.mp hb
    have hlt' : x.index < 1 := hlt
    obtain ⟨index⟩ := x
    obtain rfl : index = 0 := Nat.lt_one_iff.mp hlt'
    have hr' : (({ maxDepth := 8 } : Registry (Listener Unit)).subscribe "m.a:change" (.callback ())).2
        = r := hr
    rw [← hr', Registry.heard_subscribe] at hl
    split at hl
    · cases List.mem_singleton.mp hl
      rfl
    · exact absurd hl List.not_mem_nil
  distinct hm hm' _ _ _ _ _ := (model?_lettersPage hm).1.trans (model?_lettersPage hm').1.symm
  keys {m d k} hm hk := by
    obtain ⟨-, rfl⟩ := model?_lettersPage hm
    have hall : ∀ k ∈ lettersModel.observed, lettersModel.contains k = true := by decide
    exact hall k hk

theorem tame_copyingCode (isChange : String → Prop) :
    copyingCode.Tame (Call.Mild ⟨0⟩ isChange) where
  onPublish _ _ := ⟨trivial, fun _ => trivial⟩
  onEvent _ _ := trivial

def lettersBound : Option (Page Unit Unit) :=
  ((ofFrames copyingCode 3).bindElement ⟨0⟩ ⟨0⟩ ⟨0⟩ lettersPage).bind fun a =>
    a.1.toOption.map fun _ => a.2

theorem bindElement_of_lettersBound {q : Page Unit Unit} (h : lettersBound = some q) :
    ∃ targets,
      (ofFrames copyingCode 3).bindElement ⟨0⟩ ⟨0⟩ ⟨0⟩ lettersPage = some (.ok targets, q) := by
  obtain ⟨⟨outcome, s⟩, hs, h⟩ := Option.bind_eq_some_iff.mp h
  cases outcome with
  | error failure => cases h
  | ok targets =>
    cases h
    exact ⟨targets, hs⟩

/-- While the new `a` is delivered it is copied to `b`, which announces itself, and the text shows both
in the end. -/
theorem copied_letters_in_sync :
    ∃ p, Reached copyingCode ⟨0⟩ lettersPage [lettersBinding] p ∧
      p.textContent ⟨0⟩ = Template.fill (p.lookup ⟨0⟩) "${a}, ${b}" ∧
      p.textContent ⟨0⟩ = "3, 3" := by
  have hrun : (lettersBound.bind fun q =>
      if q.Settled ⟨0⟩ lettersBinding.template ∧
          (writingThree.run (strict copyingCode 3) q).isSome = true then
        (writingThree.run (ofFrames copyingCode 3) q).bind fun a =>
          if a.2.Settled ⟨0⟩ lettersBinding.template ∧ a.2.elementAlive ⟨0⟩ = true then
            some (a.2.textContent ⟨0⟩)
          else none
      else none) = some "3, 3" := by
    decide +kernel
  obtain ⟨q, hq, hrun⟩ := Option.bind_eq_some_iff.mp hrun
  split at hrun
  · rename_i hbound
    obtain ⟨⟨u, p⟩, hp, hshown⟩ := Option.bind_eq_some_iff.mp hrun
    split at hshown
    · rename_i hend
      obtain ⟨targets, hbind⟩ := bindElement_of_lettersBound hq
      have hbindable : lettersPage.Bindable ⟨0⟩ [] lettersBinding :=
        ⟨⟨_, rfl, rfl⟩, ⟨_, rfl⟩, by decide +kernel, fun _ h => absurd h List.not_mem_nil⟩
      have hreached : Reached copyingCode ⟨0⟩ lettersPage [lettersBinding] q :=
        .bind lettersBinding 3 .start hbindable hbind (by decide +kernel) hbound.1
      have hreached : Reached copyingCode ⟨0⟩ lettersPage [lettersBinding] p :=
        .run writingThree 3 hreached ⟨trivial, fun _ => trivial⟩ hp hbound.2
      refine ⟨p, hreached, ?_, Option.some.inj hshown⟩
      exact texts_in_sync vacant_lettersPage (tame_copyingCode _) hreached
        (List.mem_singleton_self lettersBinding) (by decide +kernel) hend.1 hend.2
    · cases hshown
  · cases hrun

end Bindery
