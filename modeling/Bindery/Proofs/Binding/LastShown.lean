import Bindery.Proofs.View.Tracing

/-!
# Attributes show the last value announced

A bound attribute that nobody else writes shows the value that was announced last on an event of one of
its keys since it was bound, whoever announced it: a write, a control that wrote back, or the text of
another element as it was bound.  As long as there was none it shows its template, filled as it was
bound.

* `Course`                 calls from outside, with all that they did
* `trail_of_course`        they leave the trail of their deeds
* `attribute_shows_last`   what an attribute shows after them
-/

namespace Bindery

variable {κ σ : Type}

open Page

/-- Pages that come about from a first one by calls of which the deeds are told, with all the deeds in
order.  In between the program around may do whatever no attribute depends on and brings nothing back
to life. -/
inductive Course (callbacks : Callbacks κ σ) (b : BusId) (start : Page κ σ) :
    List Deed → Page κ σ → Prop where
  | start : Course callbacks b start [] start
  | call {p q : Page κ σ} {deeds : List Deed} {c : Call κ} {answer : c.Answer} {n : Nat} :
      Course callbacks b start deeds p → c.Told b p →
      c.run (Engine.ofFrames callbacks (n + 2)) p = some (answer, q) →
      Course callbacks b start (deeds ++ c.deeds callbacks (n + 2) p) q
  | meanwhile {p q : Page κ σ} {deeds : List Deed} :
      Course callbacks b start deeds p → p.Aside b q → p.Ended q → Course callbacks b start deeds q

variable {callbacks : Callbacks κ σ} {b : BusId} {start p : Page κ σ} {deeds : List Deed}

theorem trail_of_course (hstart : start.Open b) (h : Course callbacks b start deeds p) :
    Trail b start deeds p := by
  induction h with
  | start => exact .refl start
  | @call p q deeds c answer n _ hc hrun ih =>
    exact ih.trans (trail_call callbacks n (hstart.of_trail ih) hc hrun)
  | @meanwhile p q deeds _ haside hended ih =>
    have hall := ih.trans (Trail.single (.aside haside) hended)
    rw [List.append_nil] at hall
    exact hall

/-! ## Where an attribute is bound -/

namespace Trail

variable {s q : Page κ σ} {m : ModelId} {e : ElementId} {d : Model}
  {entries : List (String × String)} {after : List Deed}

theorem Binds.follows (h : Binds b e d entries after q s m) (hsound : (Attributes.mk entries).Sound)
    {attr template : String} (hm : (attr, template) ∈ entries) :
    (s.bindAttributes b m e entries).2.Follows b e attr ((d.keysIn template).map d.event) := by
  obtain ⟨r, hr, hfree⟩ := h.free
  have hbound := Happens.bound (b := b) e h.model
  rw [← h.read] at hbound
  obtain ⟨r', hr', -, hl⟩ := hbound.bus hr
  have hsame : ∀ {name t}, (name, t) ∈ entries → Text.lower attr = Text.lower name →
      name = attr ∧ t = template := by
    intro name t hmem hlower
    have heq := List.inj_on_of_nodup_map hsound.nodup_lower hm hmem hlower
    cases heq
    exact ⟨rfl, rfl⟩
  refine ⟨⟨r', hr', fun event hev => ?_⟩, fun r₁ hr₁ event name hmem hlower => ?_⟩
  · obtain ⟨k, hk, rfl⟩ := List.mem_map.mp hev
    exact (hl ..).mpr (Or.inr ⟨d, entries, template, k, List.mem_singleton_self _, hm, hk, rfl⟩)
  · cases hr'.symm.trans hr₁
    rcases (hl ..).mp hmem with hold | ⟨d', entries', t, k, hdeed, hentry, hk, rfl⟩
    · exact absurd hold (hfree event name)
    · cases List.mem_singleton.mp hdeed
      obtain ⟨rfl, rfl⟩ := hsame hentry hlower
      exact ⟨rfl, List.mem_map.mpr ⟨k, hk, rfl⟩⟩

theorem Binds.fills (h : Binds b e d entries after q s m) (hne : entries ≠ []) :
    ∃ a el, (s.bindAttributes b m e entries).2.element? e = some el ∧
      el.attributes = Attributes.showAll d entries a := by
  obtain ⟨hs, hw, -⟩ := wired_bindAttributes b e h.model entries
  cases hel : s.element? e with
  | none =>
    refine absurd ?_ hne
    rw [h.read]
    unfold attributesOf
    rw [hel]
    rfl
  | some el => exact ⟨el.attributes, _, hw.element el hel, rfl⟩

end Trail

/-- What a bound attribute shows that nobody else writes: the value that was announced last since then
on an event of one of its keys, or else its template as it was filled. -/
theorem attribute_shows_last (hfresh : ∃ r, start.bus? b = some r ∧ ∀ event, r.heard event = [])
    {before after : List Deed} {e : ElementId} {d : Model} {entries : List (String × String)}
    (h : Course callbacks b start (before ++ .bound b e d entries :: after) p)
    (honce : ∀ d entries, Deed.bound b e d entries ∉ before)
    (hsound : (Attributes.mk entries).Sound) {attr template : String}
    (hm : (attr, template) ∈ entries) (hk : d.keysIn template ≠ [])
    (halone : ∀ x ∈ after, ¬ x.Touches e attr) (halive : p.elementAlive e = true) :
    ∃ el, p.element? e = some el ∧
      match lastAnnounced b ((d.keysIn template).map d.event) after with
      | some value => el.attributes.Displays attr value
      | none => isBooleanProperty attr = false → Template.Tidy template →
          (∀ n ∈ Template.names template, ∀ v, d.get? n = some v → v.Plain) →
          el.attributes.get? attr = some (Template.fill d.get? template) := by
  obtain ⟨r, hr, hnone⟩ := hfresh
  have hopen : start.Open b := ⟨r, hr, fun event l hl => by rw [hnone] at hl; cases hl⟩
  have hfree : ∀ event name, ¬ r.Displays event e name := by
    rintro event name ⟨l, hl, -⟩
    rw [hnone] at hl
    cases hl
  obtain ⟨s, m, hbinds⟩ := (trail_of_course hopen h).split honce ⟨r, hr, hfree⟩
  obtain ⟨a, el₀, hel₀, hshown⟩ := hbinds.fills (List.ne_nil_of_mem hm)
  obtain ⟨el, hel, hdecided⟩ :=
    hbinds.trail.decides (hbinds.follows hsound hm) halone hel₀ halive
  refine ⟨el, hel, ?_⟩
  cases hlast : lastAnnounced b ((d.keysIn template).map d.event) after with
  | some value =>
    rw [hlast] at hdecided
    exact hdecided
  | none =>
    intro hb ht hplain
    rw [hlast] at hdecided
    have hsame : el.attributes.get? attr = el₀.attributes.get? attr := hdecided
    rw [hsame, hshown]
    exact Attributes.get?_showAll_of_tidy hsound.nodup_lower hm hb hk ht hplain a

/-! ## Two models of one name -/

instance (e : ElementId) (attr : String) : DecidablePred (Deed.Touches e attr)
  | .announced .. => inferInstanceAs (Decidable False)
  | .bound _ c _ _ => inferInstanceAs (Decidable (c = e))
  | .edited c name => inferInstanceAs (Decidable (c = e ∧ Text.lower attr = Text.lower name))

def namesake (value : String) : Model := ⟨⟨0⟩, "m", [("k", .text value)], ["k"]⟩

/-- An input and a text that show the key `k`, and two models that have it. -/
def namesakePage : Page Unit Unit where
  buses := #[{ maxDepth := 1 }]
  models := #[namesake "1", namesake "2"]
  elements := #[{ tag := "input", attributes := ⟨[("value", "${k}")]⟩ },
    { tag := "p", children := [.text "${k}"] }]
  held := [.element ⟨0⟩, .element ⟨1⟩, .model ⟨0⟩, .model ⟨1⟩]
  host := ()

def bindCall (m : ModelId) (e : ElementId) : Call Unit := .bind ⟨0⟩ m e

/-- The input is bound to one model, and then the text to the other: the input shows the value that the
text was bound with. -/
theorem input_shows_value_of_text :
    ∃ p before after d entries el, Course idleCode ⟨0⟩ namesakePage
        (before ++ .bound ⟨0⟩ ⟨0⟩ d entries :: after) p ∧
      (∀ d entries, Deed.bound ⟨0⟩ ⟨0⟩ d entries ∉ before) ∧
      ("value", "${k}") ∈ entries ∧ d.keysIn "${k}" ≠ [] ∧
      (∀ x ∈ after, ¬ x.Touches ⟨0⟩ "value") ∧ p.elementAlive ⟨0⟩ = true ∧
      p.element? ⟨0⟩ = some el ∧ el.attributes.get? "value" = some "2" := by
  have hrun : (((bindCall ⟨0⟩ ⟨0⟩).run (Engine.ofFrames idleCode 2) namesakePage).bind fun a =>
      ((bindCall ⟨1⟩ ⟨1⟩).run (Engine.ofFrames idleCode 2) a.2).map fun c =>
        let after := (bindCall ⟨1⟩ ⟨1⟩).deeds idleCode 2 a.2
        ((lastAnnounced ⟨0⟩ ["m.k:change"] after).map Value.display,
          after.all fun x => !decide (x.Touches ⟨0⟩ "value"), c.2.elementAlive ⟨0⟩))
      = some (some "2", true, true) := by
    decide +kernel
  obtain ⟨⟨answer, q⟩, hq, hrun⟩ := Option.bind_eq_some_iff.mp hrun
  obtain ⟨⟨answer', p⟩, hp, hrun⟩ := Option.map_eq_some_iff.mp hrun
  obtain ⟨hlast, halone, halive⟩ : _ ∧ _ ∧ _ := by simpa only [Prod.mk.injEq] using hrun
  have hdeeds : (bindCall ⟨0⟩ ⟨0⟩).deeds idleCode 2 namesakePage
      = [.bound ⟨0⟩ ⟨0⟩ (namesake "1") [("value", "${k}")]] := rfl
  have hcourse : Course idleCode ⟨0⟩ namesakePage
      ([] ++ .bound ⟨0⟩ ⟨0⟩ (namesake "1") [("value", "${k}")]
        :: (bindCall ⟨1⟩ ⟨1⟩).deeds idleCode 2 q) p := by
    have hfirst : Course idleCode ⟨0⟩ namesakePage
        ([] ++ (bindCall ⟨0⟩ ⟨0⟩).deeds idleCode 2 namesakePage) q :=
      .call .start (c := bindCall ⟨0⟩ ⟨0⟩) rfl hq
    rw [hdeeds] at hfirst
    exact .call hfirst (c := bindCall ⟨1⟩ ⟨1⟩) rfl hp
  have hentry : ("value", "${k}") ∈ [("value", "${k}")] := List.mem_singleton_self _
  have hkeys : (namesake "1").keysIn "${k}" = ["k"] := by decide +kernel
  have hne : (namesake "1").keysIn "${k}" ≠ [] := hkeys ▸ List.cons_ne_nil _ _
  have halone : ∀ x ∈ (bindCall ⟨1⟩ ⟨1⟩).deeds idleCode 2 q, ¬ x.Touches ⟨0⟩ "value" := by
    intro x hx
    simpa using List.all_eq_true.mp halone x hx
  have hnone : ∀ d entries, Deed.bound ⟨0⟩ ⟨0⟩ d entries ∉ ([] : List Deed) :=
    fun _ _ => List.not_mem_nil
  obtain ⟨el, hel, hshown⟩ := attribute_shows_last ⟨_, rfl, fun _ => rfl⟩ hcourse hnone
    ⟨by decide +kernel, by decide +kernel⟩ hentry hne halone halive
  refine ⟨p, [], _, _, _, el, hcourse, hnone, hentry, hne, halone, halive, hel, ?_⟩
  have hevents : ((namesake "1").keysIn "${k}").map (namesake "1").event = ["m.k:change"] := by
    rw [hkeys]
    decide +kernel
  obtain ⟨value, hvalue, hdisplay⟩ := Option.map_eq_some_iff.mp hlast
  rw [hevents, hvalue] at hshown
  exact hshown.trans (congrArg some hdisplay)

end Bindery
