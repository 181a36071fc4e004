import Mathlib.Data.List.Nodup
import Bindery.Proofs.Binding.Children
import Bindery.Proofs.Binding.WriteBack
import Bindery.Proofs.Markup.Scanned

/-!
# What a populated view shows

Populating puts markup into a container and binds its children from the first to the last.  An
attribute is filled when its child is bound, and the text of a child that comes later announces its
values once more: an attribute that has a slot for such a key then shows the bare value.

* `Model.shown`                what an attribute shows after keys were announced
* `populated_attribute_shows`  the attributes of every child of a populated view
* `title_in_front_of_text`     a title that is overwritten by the text of the next child
-/

namespace Bindery

/-- The template filled, or the value of the last of the keys announced for which it has a slot. -/
def Model.shown (d : Model) (announced : List String) (template : String) : String :=
  ((announced.filter (· ∈ d.keysIn template)).getLast?).elim (Template.fill d.get? template)
    fun k => ((d.get? k).getD .null).display

namespace Attributes

variable {d : Model} {entries : List (String × String)} {attr template : String}

theorem get?_overwrite_one (hn : (entries.map fun x => Text.lower x.1).Nodup)
    (hm : (attr, template) ∈ entries) (hb : isBooleanProperty attr = false) (k : String)
    (a : Attributes) :
    (a.overwrite d entries [k]).get? attr
      = if k ∈ d.keysIn template then some ((d.get? k).getD .null).display else a.get? attr := by
  have hsame : ∀ n ∈ ((d.slots entries).filter (·.2 = k)).map (·.1),
      Text.lower attr = Text.lower n → n = attr ∧ k ∈ d.keysIn template := by
    intro n hn' hl
    obtain ⟨⟨n', k'⟩, hs, rfl⟩ := List.mem_map.mp hn'
    obtain ⟨hs, hk⟩ := List.mem_filter.mp hs
    obtain ⟨t, ht, hk'⟩ := Model.mem_slots.mp hs
    have he : (n', t) = (attr, template) := List.inj_on_of_nodup_map hn ht hm hl.symm
    have hkk : k' = k := by simpa using hk
    cases he
    exact ⟨rfl, hkk ▸ hk'⟩
  simp only [overwrite, List.foldl_cons, List.foldl_nil]
  by_cases hk : k ∈ d.keysIn template
  · rw [if_pos hk, get?_foldl_of_mem hb ?_ fun n hn' hl => (hsame n hn' hl).1]
    have hs : (attr, k) ∈ d.slots entries := Model.mem_slots.mpr ⟨template, hm, hk⟩
    exact List.mem_map.mpr ⟨(attr, k), List.mem_filter.mpr ⟨hs, decide_eq_true rfl⟩, rfl⟩
  · rw [if_neg hk, get?_foldl_of_not_mem]
    exact fun n hn' hl => hk (hsame n hn' hl).2

/-- Keys announced one after the other: the last one counts. -/
theorem get?_overwrite (hn : (entries.map fun x => Text.lower x.1).Nodup)
    (hm : (attr, template) ∈ entries) (hb : isBooleanProperty attr = false) (keys : List String)
    (a : Attributes) :
    (a.overwrite d entries keys).get? attr
      = ((keys.filter (· ∈ d.keysIn template)).getLast?).elim (a.get? attr)
          fun k => some ((d.get? k).getD .null).display := by
  induction keys generalizing a with
  | nil => rfl
  | cons k r ih =>
    have hcons : a.overwrite d entries (k :: r)
        = (a.overwrite d entries [k]).overwrite d entries r := by
      simp only [overwrite, List.foldl_cons, List.foldl_nil]
    rw [hcons, ih, get?_overwrite_one hn hm hb]
    by_cases hk : k ∈ d.keysIn template
    · have hf : (k :: r).filter (· ∈ d.keysIn template) = k :: r.filter (· ∈ d.keysIn template) :=
        List.filter_cons_of_pos (by simpa using hk)
      rw [if_pos hk, hf, List.getLast?_cons]
      cases (r.filter (· ∈ d.keysIn template)).getLast? <;> rfl
    · rw [if_neg hk, List.filter_cons_of_neg (by simpa using hk)]

end Attributes

/-! ## Populating -/

namespace Page

variable {κ σ : Type} {p q : Page κ σ}

/-- The page on which a view begins to bind the children that the markup gave it. -/
def furnish (p : Page κ σ) (v : ViewId) (view : View) (markup : String) : Page κ σ :=
  let p := (p.hold (.view v)).setMarkup view.container markup
  p.modifyView v fun w => { w with children := p.childElements view.container, state := .populated }

theorem populate_of_refused {engine : Engine κ σ} {v : ViewId} {view : View}
    (hv : p.view? v = some view) (hstate : view.state ∉ [ViewState.uninitialized, .fetching])
    (markup : String) :
    engine.populate v markup p = some (.error (.invalidState "populate" view.state.name), p) := by
  have hrefused : Engine.allowed "populate" [.uninitialized, .fetching] view
      = .error (.invalidState "populate" view.state.name) := if_neg hstate
  rw [Engine.populate, Run.get_bind, hv]
  simp only [hrefused]
  rfl

theorem populate_of_waiting {engine : Engine κ σ} {v : ViewId} {view : View}
    (hv : p.view? v = some view) (hstate : view.state ∈ [ViewState.uninitialized, .fetching])
    (markup : String) :
    engine.populate v markup p = ((do
      match ← engine.bindChildren v view.bus view.model
          ((p.furnish v view markup).childElements view.container) with
      | .ok () =>
        Engine.enterState v .bound
        return .ok ()
      | .error failure =>
        Engine.enterState v .errored
        return .error (.bus failure) : Run κ σ (Except ViewError Unit)) >>= fun outcome =>
      (do modify (Page.release (.view v)); return outcome : Run κ σ (Except ViewError Unit)))
        (p.furnish v view markup) := by
  have hallowed : Engine.allowed "populate" [.uninitialized, .fetching] view = .ok () :=
    if_pos hstate
  rw [Engine.populate, Run.get_bind, hv]
  simp only [hallowed]
  unfold holding Engine.fillContainer
  simp only [bind_assoc, Run.modify_bind, Run.get_bind]
  rfl

theorem populate_eq_some {engine : Engine κ σ} {v : ViewId} {view : View} {markup : String}
    (hv : p.view? v = some view) :
    engine.populate v markup p = some (.ok (), q) ↔
      view.state ∈ [ViewState.uninitialized, .fetching] ∧
      ∃ s, engine.bindChildren v view.bus view.model
          ((p.furnish v view markup).childElements view.container) (p.furnish v view markup)
            = some (.ok (), s) ∧
        q = (s.modifyView v fun w => { w with state := .bound }).release (.view v) := by
  by_cases hstate : view.state ∈ [ViewState.uninitialized, .fetching]
  · rw [populate_of_waiting hv hstate]
    constructor
    · intro h
      obtain ⟨outcome, t, hfill, hend⟩ := Run.bind_eq_some.mp h
      obtain ⟨outcome', s, hs, hlast⟩ := Run.bind_eq_some.mp hfill
      cases hend
      cases outcome' with
      | error failure => cases hlast
      | ok u =>
        cases hlast
        exact ⟨hstate, s, hs, rfl⟩
    · rintro ⟨-, s, hs, rfl⟩
      exact Run.bind_of_eq (Run.bind_of_eq hs _) _
  · rw [populate_of_refused hv hstate]
    exact ⟨fun h => (by cases h), fun h => absurd h.1 hstate⟩

theorem laid_furnish {v : ViewId} {view : View} {box : PageElement κ} (hv : p.view? v = some view)
    (hbox : p.element? view.container = some box) (markup : String) :
    ∃ row, (p.furnish v view markup).childElements view.container = row.filterMap Child.element? ∧
      Laid (p.furnish v view markup) (Fragment.ofText markup) row p.elements.size
        (p.furnish v view markup).elements.size ∧
      (p.furnish v view markup).models = p.models ∧ (p.furnish v view markup).buses = p.buses ∧
      (p.furnish v view markup).Shows v (row.filterMap Child.element?) := by
  obtain ⟨row, hrow, hlaid⟩ := laid_setMarkup (p := p.hold (.view v)) hbox markup
  have hset := setMarkup_eq (p.hold (.view v)) view.container markup
  unfold furnish
  generalize (p.hold (.view v)).setMarkup view.container markup = s at hrow hlaid hset ⊢
  have hheld : .view v ∈ s.held := by
    rw [hset]
    exact List.mem_cons_self
  have hview : s.view? v = some view := by
    rw [hset]
    exact hv
  refine ⟨row, hrow, hlaid.frame fun _ _ _ => rfl, ?_, ?_, hheld, ?_⟩
  · show s.models = p.models
    rw [hset]
    rfl
  · show s.buses = p.buses
    rw [hset]
    rfl
  · refine ⟨{ view with children := row.filterMap Child.element?, state := .populated }, ?_,
      fun _ h => h⟩
    rw [← hrow]
    exact view?_modifyView_self hview _

/-- A view that was populated shows this in the attributes of every child: the template filled, unless
the text of a later child has a slot for one of its keys.  Then it shows the value of the key that
comes last among the slots of the later texts. -/
theorem populated_attribute_shows {callbacks : Callbacks κ σ} {frames : Nat} {v : ViewId} {view : View}
    {d : Model} {r : Registry (Listener κ)} {box : PageElement κ} (markup : String)
    (hv : p.view? v = some view) (hm : p.model? view.model = some d)
    (hr : p.bus? view.bus = some r) (hsilent : r.channels = [])
    (hbox : p.element? view.container = some box)
    (hplain : ∀ k value, d.get? k = some value → value.Plain)
    (h : (Engine.ofFrames callbacks frames).populate v markup p = some (.ok (), q)) :
    q.model? view.model = some d ∧
      (q.childElements view.container).length = (Fragment.ofText markup).faces.length ∧
      ∀ (i : Nat) (e : ElementId) (c : Face), (q.childElements view.container)[i]? = some e →
        (Fragment.ofText markup).faces[i]? = some c →
        ∀ attr template, (attr, template) ∈ c.attributes.entries → isBooleanProperty attr = false →
          Template.Tidy template → d.keysIn template ≠ [] →
          (q.attributesOf e).get? attr = some (d.shown
            (((Fragment.ofText markup).faces.drop (i + 1)).flatMap fun c => d.keysIn c.text)
            template) := by
  obtain ⟨-, s, hs, hq⟩ := (populate_eq_some hv).mp h
  obtain ⟨row, hrow, hlaid, hmodels, hbuses, hshows⟩ := laid_furnish hv hbox markup
  generalize p.furnish v view markup = p₀ at hs hrow hlaid hmodels hbuses hshows
  have hm₀ : p₀.model? view.model = some d := (model?_of_models hmodels view.model).trans hm
  have hr₀ : p₀.bus? view.bus = some r := (bus?_of_buses hbuses view.bus).trans hr
  -- nobody listens yet
  have hnone : ∀ event, ∀ l, l ∉ r.heard event := by
    intro event l hl
    rw [Registry.heard_of_no_channels hsilent] at hl
    cases hl
  have hquiet : r.Quiet := fun event l hl => absurd hl (hnone event l)
  have hspares : ∀ x, r.Spares x := fun x event l hl => absurd hl (hnone event l)
  have hfaces := hlaid.faces (Nat.le_refl _)
  have hjoined := joinedAll_of_bindChildren (Engine.publishes_ofFrames callbacks frames) hr₀ hquiet hm₀
    hshows (fun _ h => h)
    (hfaces.imp fun e c hc => ⟨hc.1, hc.2, hspares e, fun x _ => hspares x⟩) hlaid.apart (hrow ▸ hs)
  -- the container is older than its children
  have hold : view.container ∉ row.filterMap Child.element? := by
    intro hmem
    obtain ⟨child, hin, hc⟩ := List.mem_filterMap.mp hmem
    have hlt : view.container.index < p.elements.size := (Array.getElem?_eq_some_iff.mp hbox).1
    cases child with
    | text content => cases hc
    | element e =>
      cases hc
      have hge := (hlaid.bounds hin).1.1
      omega
  have hchildren : q.childElements view.container = row.filterMap Child.element? := by
    rw [hq, ← hrow]
    exact childElements_of_sameChildren (hjoined.children view.container hold (hspares _))
  refine ⟨?_, ?_, ?_⟩
  · rw [hq]
    show s.model? view.model = _
    exact (model?_of_models hjoined.models view.model).trans hm₀
  · rw [hchildren, hfaces.length_eq]
  · intro i e c he hc attr template hmem hbool htidy hkeys
    rw [hchildren] at he
    obtain ⟨el, hel, ha⟩ := Option.map_eq_some_iff.mp (hjoined.shown i e c he hc)
    have hattr : q.attributesOf e = el.attributes := by
      rw [hq]
      show s.attributesOf e = _
      unfold attributesOf
      rw [hel]
    obtain ⟨x, hx, hxc⟩ := Fragment.exists_element_of_mem_faces (List.mem_of_getElem? hc)
    have hn : (c.attributes.entries.map fun x => Text.lower x.1).Nodup := by
      rw [← hxc]
      exact ((Fragment.scanned_ofText markup).sound x hx).nodup_lower
    rw [hattr, ha, Attributes.get?_overwrite hn hmem hbool,
      Attributes.get?_showAll_of_tidy hn hmem hbool hkeys htidy fun n _ => hplain n]
    unfold Model.shown
    cases ((_ : List String).filter (· ∈ d.keysIn template)).getLast? <;> rfl

end Page

/-! ## A title and a text -/

def letterView : View := { bus := ⟨0⟩, container := ⟨0⟩, model := ⟨0⟩, path := "t" }

def letterPage : Page Unit Unit where
  buses := #[{ maxDepth := 8 }]
  models := #[letterModel]
  elements := #[{ tag := "div" }]
  views := #[letterView]
  host := ()

theorem plain_letterModel {k : String} {value : Value} (h : letterModel.get? k = some value) :
    value.Plain := by
  change Record.get? k [("k", Value.text "a")] = some value at h
  unfold Record.get? at h
  split at h
  · cases h
    decide
  · cases h

def populatedLetters (markup : String) : Option (Page Unit Unit) :=
  ((Engine.ofFrames idleCode 2).populate ⟨0⟩ markup letterPage).bind fun a =>
    a.1.toOption.map fun _ => a.2

theorem populate_of_populatedLetters {markup : String} {q : Page Unit Unit}
    (h : populatedLetters markup = some q) :
    (Engine.ofFrames idleCode 2).populate ⟨0⟩ markup letterPage = some (.ok (), q) := by
  obtain ⟨⟨outcome, s⟩, hs, h⟩ := Option.bind_eq_some_iff.mp h
  cases outcome with
  | error failure => cases h
  | ok u =>
    cases h
    exact hs

theorem title_behind_text :
    ∃ q e, populatedLetters "<p>${k}</p><p title=\"b ${k}\"></p>" = some q ∧
      (q.childElements ⟨0⟩)[1]? = some e ∧ (q.attributesOf e).get? "title" = some "b a" := by
  have hsome : (populatedLetters "<p>${k}</p><p title=\"b ${k}\"></p>").isSome = true := by
    decide +kernel
  have hface : (Fragment.ofText "<p>${k}</p><p title=\"b ${k}\"></p>").faces
      = [⟨⟨[]⟩, "${k}"⟩, ⟨⟨[("title", "b ${k}")]⟩, ""⟩] := by decide +kernel
  obtain ⟨q, hq⟩ := Option.isSome_iff_exists.mp hsome
  have hview : letterPage.view? ⟨0⟩ = some letterView := rfl
  obtain ⟨-, hlength, hshown⟩ := Page.populated_attribute_shows _ hview rfl rfl rfl rfl
    (fun _ _ => plain_letterModel) (populate_of_populatedLetters hq)
  rw [hface] at hlength hshown
  change (q.childElements ⟨0⟩).length = 2 at hlength
  obtain ⟨e, he⟩ : ∃ e, (q.childElements ⟨0⟩)[1]? = some e :=
    ⟨_, List.getElem?_eq_getElem (by rw [hlength]; decide)⟩
  refine ⟨q, e, hq, he, ?_⟩
  rw [hshown 1 e _ he rfl "title" "b ${k}" List.mem_cons_self (by decide) (by decide +kernel)
    (by decide +kernel)]
  decide +kernel

/-- A title in front of a text that shows the same key is overwritten: it shows the value alone,
although nothing is wrong with the templates and nobody else listens. -/
theorem title_in_front_of_text :
    ∃ q e, populatedLetters "<p title=\"b ${k}\"></p><p>${k}</p>" = some q ∧
      (∀ c ∈ (Fragment.ofText "<p title=\"b ${k}\"></p><p>${k}</p>").faces,
        Template.Tidy c.text ∧ ∀ a ∈ c.attributes.entries, Template.Tidy a.2) ∧
      (∀ k value, letterModel.get? k = some value → value.Plain) ∧
      (q.childElements ⟨0⟩)[0]? = some e ∧ (q.attributesOf e).get? "title" = some "a" ∧
      Template.fill letterModel.get? "b ${k}" = "b a" := by
  have htitle : (populatedLetters "<p title=\"b ${k}\"></p><p>${k}</p>").bind (fun q =>
      (q.childElements ⟨0⟩)[0]?.bind fun e => (q.attributesOf e).get? "title") = some "a" := by
    decide +kernel
  obtain ⟨q, hq, htitle⟩ := Option.bind_eq_some_iff.mp htitle
  obtain ⟨e, he, htitle⟩ := Option.bind_eq_some_iff.mp htitle
  exact ⟨q, e, hq, by decide +kernel, fun _ _ => plain_letterModel, he, htitle, by decide +kernel⟩

end Bindery
