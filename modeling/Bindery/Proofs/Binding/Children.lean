import Bindery.Proofs.Binding.Replay
import Bindery.Proofs.Page.Grafting
import Bindery.View.Lifecycle

/-!
# Binding the children of a view

The children of a view are bound one after the other.  Each is filled when its turn comes; from then
on it listens, and every text bound later announces its values to it.

* `Registry.Spares`        no listener writes an element
* `Page.Joined`            what binding one element does to the page
* `Attributes.overwrite`   attributes whose keys are announced later
* `bindChildren_joins`     what binding a row of children does
-/

namespace Bindery

namespace Model

def announces (d : Model) (text : String) : List (String × Value) :=
  (d.keysIn text).map fun k => (d.event k, (d.get? k).getD .null)

end Model

namespace Registry

variable {κ : Type}

def Spares (r : Registry (Listener κ)) (c : ElementId) : Prop :=
  ∀ event, ∀ l ∈ r.heard event, l.writesText c = false ∧ l.propertyOn c = none

theorem Spares.filterMap_eq_nil {r : Registry (Listener κ)} {c : ElementId} (h : r.Spares c)
    (event : String) : (r.heard event).filterMap (Listener.propertyOn c) = [] :=
  List.filterMap_eq_nil_iff.mpr fun l hl => (h event l hl).2

theorem spares_addAll {r : Registry (Listener κ)} {c : ElementId} (h : r.Spares c)
    {ls : List (String × Listener κ)}
    (hl : ∀ l ∈ ls, l.2.writesText c = false ∧ l.2.propertyOn c = none) : (r.addAll ls).Spares c := by
  intro event l hm
  rw [Page.heard_addAll] at hm
  rcases List.mem_append.mp hm with hm | hm
  · exact h event l hm
  · obtain ⟨x, hx, rfl⟩ := List.mem_map.mp hm
    exact hl x (List.mem_filter.mp hx).1

end Registry

namespace Attributes

variable {κ : Type}

/-- What is announced to attributes depends on the properties that listen. -/
theorem announced_congr {r s : Registry (Listener κ)} {c : ElementId}
    (h : ∀ event, (s.heard event).filterMap (Listener.propertyOn c)
      = (r.heard event).filterMap (Listener.propertyOn c))
    (anns : List (String × Value)) (a : Attributes) : a.announced s c anns = a.announced r c anns := by
  unfold announced
  simp only [h]

theorem announced_append (r : Registry (Listener κ)) (c : ElementId) (xs ys : List (String × Value))
    (a : Attributes) : a.announced r c (xs ++ ys) = (a.announced r c xs).announced r c ys :=
  List.foldl_append

theorem announced_of_spares {r : Registry (Listener κ)} {c : ElementId} (h : r.Spares c)
    (anns : List (String × Value)) (a : Attributes) : a.announced r c anns = a :=
  announced_of_none (fun event l hl => (h event l hl).2) anns a

/-- The attributes after keys were announced one after the other: each attribute with a slot for the
key shows its value. -/
def overwrite (d : Model) (entries : List (String × String)) (keys : List String) (a : Attributes) :
    Attributes :=
  keys.foldl (fun a k => (((d.slots entries).filter (·.2 = k)).map (·.1)).foldl
    (fun a n => a.setProperty n ((d.get? k).getD .null)) a) a

theorem announced_eq_overwrite {r : Registry (Listener κ)} {c : ElementId} {d : Model}
    {entries : List (String × String)}
    (h : ∀ event, (r.heard event).filterMap (Listener.propertyOn c)
      = ((d.slots entries).filter (d.event ·.2 = event)).map (·.1))
    (keys : List String) (a : Attributes) :
    a.announced r c (keys.map fun k => (d.event k, (d.get? k).getD .null))
      = a.overwrite d entries keys := by
  have he : ∀ k, (d.slots entries).filter (fun s => d.event s.2 = d.event k)
      = (d.slots entries).filter (·.2 = k) := by
    intro k
    refine List.filter_congr fun s _ => ?_
    exact decide_eq_decide.mpr ⟨d.event_injective, fun h => by rw [h]⟩
  unfold announced overwrite
  rw [List.foldl_map]
  simp only [h, he]

end Attributes

/-! ## One element -/

namespace Page

variable {κ σ : Type} {bus : BusId} {d : Model} {e : ElementId} {c : Face} {p q : Page κ σ}
  {r s : Registry (Listener κ)}

/-- From `p` to `q` an element with the face `c`, which nothing wrote before, was bound. -/
structure Joined (bus : BusId) (d : Model) (e : ElementId) (c : Face) (p q : Page κ σ)
    (r s : Registry (Listener κ)) : Prop where
  models : q.models = p.models
  held : q.held = p.held
  size : q.elements.size = p.elements.size
  registry : q.bus? bus = some s
  quiet : s.Quiet
  filled : (q.element? e).map PageElement.attributes
    = some (c.attributes.showAll d c.attributes.entries)
  listens : ∀ event, (s.heard event).filterMap (Listener.propertyOn e)
    = ((d.slots c.attributes.entries).filter (d.event ·.2 = event)).map (·.1)
  spares : ∀ x, x ≠ e → r.Spares x → s.Spares x
  others : ∀ x, x ≠ e → ∀ event, (s.heard event).filterMap (Listener.propertyOn x)
    = (r.heard event).filterMap (Listener.propertyOn x)
  children : ∀ x, x ≠ e → r.Spares x → SameChildren p q x
  announced : ∀ x, x ≠ e → p.isRooted [x] = true → (q.element? x).map PageElement.attributes
    = (p.element? x).map fun d' => d'.attributes.announced r x (d.announces c.text)

/-- The listeners of a text have nothing to do with another element. -/
theorem apart_textListeners (d : Model) (m : ModelId) (template : String) (keys : List String)
    {x : ElementId} (hx : x ≠ e) : ∀ l ∈ keys.map fun k => (d.event k,
      (.text (.weak e) (.weak m) template (Template.names template) k : Listener κ)),
      l.2.writesText x = false ∧ l.2.propertyOn x = none := by
  intro l hl
  obtain ⟨k, _, rfl⟩ := List.mem_map.mp hl
  exact ⟨decide_eq_false (Ne.symm hx), rfl⟩

theorem apart_propertyListeners (d : Model) (slots : List (String × String)) {x : ElementId}
    (hx : x ≠ e) : ∀ l ∈ slots.map fun s => (d.event s.2, (.property (.weak e) s.1 : Listener κ)),
      l.2.writesText x = false ∧ l.2.propertyOn x = none := by
  intro l hl
  obtain ⟨s, _, rfl⟩ := List.mem_map.mp hl
  exact ⟨rfl, if_neg (Ne.symm hx)⟩

theorem joined_of_bindElement {callbacks : Callbacks κ σ} {engine : Engine κ σ}
    (he : engine.Publishes callbacks) {m : ModelId} (hr : p.bus? bus = some r) (hq : r.Quiet)
    (hm : p.model? m = some d) (ha : (p.element? e).map PageElement.attributes = some c.attributes)
    (ht : p.textContent e = c.text) (hs : r.Spares e) {targets : List Target}
    (h : engine.bindElement bus m e p = some (.ok targets, q)) :
    q.views = p.views ∧ ∃ s, Joined bus d e c p q r s := by
  obtain ⟨el, hel, hattr⟩ := Option.map_eq_some_iff.mp ha
  obtain ⟨p₁, p₂, el₁, hs', hrep, ⟨hel₁, hattr₁, -⟩, hw, -, hq'⟩ :=
    stages_of_bindElement he hr hq hm hel (fun event l hl => (hs event l hl).2) ht h
  rw [hattr] at hattr₁ hw
  generalize hls : (d.keysIn c.text).map (fun k => (d.event k,
    (.text (.weak e) (.weak m) c.text (Template.names c.text) k : Listener κ))) = ls at hrep
  generalize hms : (d.slots c.attributes.entries).map (fun s => (d.event s.2,
    (.property (.weak e) s.1 : Listener κ))) = ms at hw
  have hlsE : ∀ l ∈ ls, ∀ x, x ≠ e → l.2.writesText x = false ∧ l.2.propertyOn x = none := by
    intro l hl x hx
    exact apart_textListeners d m c.text (d.keysIn c.text) hx l (hls ▸ hl)
  have hmsE : ∀ l ∈ ms, ∀ x, x ≠ e → l.2.writesText x = false ∧ l.2.propertyOn x = none := by
    intro l hl x hx
    exact apart_propertyListeners d (d.slots c.attributes.entries) hx l (hms ▸ hl)
  have hspare₁ : ∀ x, x ≠ e → r.Spares x → (r.addAll ls).Spares x := fun x hx hsx =>
    Registry.spares_addAll hsx fun l hl => hlsE l hl x hx
  have hsize : q.elements.size = p.elements.size := by
    rw [hq']
    exact hw.size.trans hrep.size
  have hrest : q = { p with buses := q.buses, elements := q.elements } := by
    rw [hq', hw.rest, hrep.rest]
    simp only [release, hold, List.erase_cons_head]
  -- an element that is not the one bound changes by the replay only
  have hother : ∀ x, x ≠ e → ∀ dx, p.element? x = some dx → ∃ dx', q.element? x = some dx' ∧
      (p.isRooted [x] = true → dx'.attributes = dx.attributes.announced r x (d.announces c.text)) ∧
      (r.Spares x → dx'.children = dx.children) := by
    intro x hx dx hpx
    obtain ⟨dx', hdx', -, -, hshown, hkept⟩ := hrep.element r x dx hr hpx
    refine ⟨dx', ?_, fun hroot => hshown (isRooted_hold (isRooted_hold hroot _) _), fun hsx => ?_⟩
    · rw [hq']
      exact (hw.elements x hx).trans hdx'
    · exact hkept fun event l hl => (hspare₁ x hx hsx event l hl).1
  refine ⟨by rw [hrest], (r.addAll ls).addAll ms, ?_⟩
  exact
    { models := by rw [hrest]
      held := by rw [hrest]
      size := hsize
      registry := by
        rw [hq']
        exact hw.registry _ (hrep.registry r hr)
      quiet := by
        refine quiet_addAll (quiet_addAll hq fun l hl => (hrep.quiet l hl).1) fun l hl => ?_
        rw [← hms] at hl
        obtain ⟨k, _, rfl⟩ := List.mem_map.mp hl
        rfl
      filled := by
        rw [hq']
        show (p₂.element? e).map _ = _
        rw [hw.element el₁ hel₁, Option.map_some, hattr₁]
      listens := fun event => by
        have hnil : ((r.addAll ls).heard event).filterMap (Listener.propertyOn e) = [] := by
          rw [propertyOn_addAll r (fun l hl => (hrep.quiet l hl).2 e), hs.filterMap_eq_nil]
        rw [heard_addAll, List.filterMap_append, hnil, List.nil_append, ← hms, List.filter_map,
          List.map_map, List.filterMap_map]
        exact List.filterMap_eq_map_iff_forall_eq_some.mpr fun s _ => if_pos rfl
      spares := fun x hx hsx =>
        Registry.spares_addAll (hspare₁ x hx hsx) fun l hl => hmsE l hl x hx
      others := fun x hx event => by
        rw [propertyOn_addAll _ fun l hl => (hmsE l hl x hx).2,
          propertyOn_addAll _ fun l hl => (hlsE l hl x hx).2]
      children := fun x hx hsx => by
        unfold SameChildren
        cases hpx : p.element? x with
        | none => rw [element?_eq_none_of_size hsize hpx]
        | some dx =>
          obtain ⟨dx', hdx', -, hkept⟩ := hother x hx dx hpx
          rw [hdx', Option.map_some, hkept hsx, Option.map_some]
      announced := fun x hx hroot => by
        cases hpx : p.element? x with
        | none =>
          rw [element?_eq_none_of_size hsize hpx]
          rfl
        | some dx =>
          obtain ⟨dx', hdx', hshown, -⟩ := hother x hx dx hpx
          rw [hdx', Option.map_some, hshown hroot]
          rfl }

/-! ## A row of elements -/

/-- An element with this face is there, and no listener writes it or anything inside it. -/
structure Unbound (p : Page κ σ) (r : Registry (Listener κ)) (e : ElementId) (c : Face) : Prop where
  attributes : (p.element? e).map PageElement.attributes = some c.attributes
  text : p.textContent e = c.text
  spares : r.Spares e
  inside : ∀ x, p.Inside e x → r.Spares x

/-- The program holds a view of these elements. -/
structure Shows (p : Page κ σ) (v : ViewId) (all : List ElementId) : Prop where
  held : .view v ∈ p.held
  view : ∃ view, p.view? v = some view ∧ ∀ e ∈ all, e ∈ view.children

theorem Shows.isRooted {v : ViewId} {all : List ElementId} (h : p.Shows v all) {x : ElementId}
    (hx : x ∈ all) : p.isRooted [x] = true := by
  obtain ⟨view, hv, hall⟩ := h.view
  have hkeep : view.keeps x = true := by
    unfold View.keeps
    rw [List.contains_iff_mem.mpr (hall x hx), Bool.or_true, Bool.true_or]
  exact isRooted_singleton.mpr (Or.inr ⟨v, view, h.held, hv, hkeep⟩)

namespace Unbound

variable {b : ElementId} {cb : Face}

theorem ne_of_inside (hin : ¬ p.Inside b e) {x : ElementId} (hx : p.Inside b x) : x ≠ e := by
  rintro rfl
  exact hin hx

theorem inside_of_joined (h : Unbound p r b cb) (hj : Joined bus d e c p q r s) (hne : e ≠ b)
    (hin : ¬ p.Inside b e) {x : ElementId} (hx : q.Inside b x) : p.Inside b x :=
  hx.of_sameChildren (hj.children b (Ne.symm hne) h.spares) fun c hc =>
    hj.children c (ne_of_inside hin hc) (h.inside c hc)

/-- Binding an element leaves those alone in which it does not stand. -/
theorem of_joined (h : Unbound p r b cb) (hj : Joined bus d e c p q r s) (hne : e ≠ b)
    (hin : ¬ p.Inside b e) (hroot : p.isRooted [b] = true) : Unbound q s b cb where
  attributes := by
    rw [hj.announced b (Ne.symm hne) hroot]
    simp only [Attributes.announced_of_spares h.spares]
    exact h.attributes
  text := by
    rw [← h.text]
    refine textContent_congr hj.size (hj.children b (Ne.symm hne) h.spares) fun c hc => ?_
    exact hj.children c (ne_of_inside hin hc) (h.inside c hc)
  spares := hj.spares b (Ne.symm hne) h.spares
  inside x hx := by
    have hp := h.inside_of_joined hj hne hin hx
    exact hj.spares x (ne_of_inside hin hp) (h.inside x hp)

end Unbound

/-- From `p` to `q` the elements `es` with the faces `cs` were bound one after the other. -/
structure JoinedAll (d : Model) (all es : List ElementId) (cs : List Face) (p q : Page κ σ)
    (r : Registry (Listener κ)) : Prop where
  models : q.models = p.models
  announced : ∀ x ∈ all, x ∉ es → (q.element? x).map PageElement.attributes
    = (p.element? x).map fun d' => d'.attributes.announced r x (cs.flatMap fun c => d.announces c.text)
  children : ∀ x, x ∉ es → r.Spares x → SameChildren p q x
  shown : ∀ (i : Nat) (e : ElementId) (c : Face), es[i]? = some e → cs[i]? = some c →
    (q.element? e).map PageElement.attributes
    = some ((c.attributes.showAll d c.attributes.entries).overwrite d c.attributes.entries
      ((cs.drop (i + 1)).flatMap fun c => d.keysIn c.text))

theorem JoinedAll.nil (d : Model) (all : List ElementId) (p : Page κ σ) (r : Registry (Listener κ)) :
    JoinedAll d all [] [] p p r where
  models := rfl
  announced x _ _ := by
    cases p.element? x <;> rfl
  children _ _ _ := rfl
  shown _ _ _ h := nomatch h

theorem JoinedAll.cons {all es : List ElementId} {cs : List Face} {t : Page κ σ}
    (hj : Joined bus d e c p q r s) (hk : p.Shows v all) (he : e ∈ all) (hnot : e ∉ es)
    (h : JoinedAll d all es cs q t s) : JoinedAll d all (e :: es) (c :: cs) p t r where
  models := h.models.trans hj.models
  announced x hx hxe := by
    rw [List.mem_cons, not_or] at hxe
    rw [h.announced x hx hxe.2]
    have hstep := hj.announced x hxe.1 (hk.isRooted hx)
    simp only [Attributes.announced_congr (hj.others x hxe.1)]
    rw [← Function.comp_def (fun a : Attributes => a.announced r x _) PageElement.attributes,
      ← Option.map_map, hstep, Option.map_map]
    congr 1
    funext d'
    exact (Attributes.announced_append r x _ _ _).symm
  children x hxe hs := by
    rw [List.mem_cons, not_or] at hxe
    exact (h.children x hxe.2 (hj.spares x hxe.1 hs)).trans (hj.children x hxe.1 hs)
  shown i x cx hx hcx := by
    cases i with
    | zero =>
      cases hx
      cases hcx
      rw [h.announced e he hnot]
      obtain ⟨d', hd', ha⟩ := Option.map_eq_some_iff.mp hj.filled
      rw [hd', Option.map_some, ha, ← Attributes.announced_eq_overwrite hj.listens, List.map_flatMap]
      rfl
    | succ i => exact h.shown i x cx hx hcx

theorem exists_of_mem_forall₂ {α β : Type} {R : α → β → Prop} {as : List α} {bs : List β}
    (h : List.Forall₂ R as bs) {a : α} (ha : a ∈ as) : ∃ b ∈ bs, R a b := by
  induction h with
  | nil => cases ha
  | cons hab _ ih =>
    rcases List.mem_cons.mp ha with rfl | ha
    · exact ⟨_, List.mem_cons_self, hab⟩
    · obtain ⟨b, hb, hr⟩ := ih ha
      exact ⟨b, List.mem_cons_of_mem _ hb, hr⟩

variable {v : ViewId} {engine : Engine κ σ} {m : ModelId}

theorem bindChildren_cons_eq_some {rest : List ElementId}
    (h : engine.bindChildren v bus m (e :: rest) p = some (.ok (), q)) :
    ∃ targets p₁, engine.bindElement bus m e p = some (.ok targets, p₁) ∧
      engine.bindChildren v bus m rest
        (p₁.modifyView v fun view => { view with targets := view.targets ++ targets })
        = some (.ok (), q) := by
  unfold Engine.bindChildren at h
  obtain ⟨outcome, p₁, h₁, h⟩ := Run.bind_eq_some.mp h
  cases outcome with
  | error failure => cases h
  | ok targets => exact ⟨targets, p₁, h₁, h⟩

/-- Binding a row of children on a quiet bus, if it ends well.  No child may stand inside a later
one. -/
theorem joinedAll_of_bindChildren {callbacks : Callbacks κ σ} (hpub : engine.Publishes callbacks)
    {all es : List ElementId} {cs : List Face} (hr : p.bus? bus = some r) (hq : r.Quiet)
    (hm : p.model? m = some d) (hk : p.Shows v all) (hall : ∀ e ∈ es, e ∈ all)
    (hu : List.Forall₂ (p.Unbound r) es cs) (hp : es.Pairwise fun a b => a ≠ b ∧ ¬ p.Inside b a)
    (h : engine.bindChildren v bus m es p = some (.ok (), q)) : JoinedAll d all es cs p q r := by
  induction es generalizing p r cs with
  | nil =>
    cases hu
    cases h
    exact JoinedAll.nil d all _ r
  | cons e es ih =>
    obtain ⟨c, cs, hec, hus, rfl⟩ := List.forall₂_cons_left_iff.mp hu
    rw [List.pairwise_cons] at hp
    obtain ⟨targets, p₁, h₁, h⟩ := bindChildren_cons_eq_some h
    obtain ⟨hviews, s, hj⟩ := joined_of_bindElement hpub hr hq hm hec.attributes hec.text hec.spares h₁
    have he : e ∈ all := hall e List.mem_cons_self
    have hrest : ∀ b ∈ es, b ∈ all := fun b hb => hall b (List.mem_cons_of_mem _ hb)
    generalize hp₂ : (p₁.modifyView v fun view => { view with targets := view.targets ++ targets })
      = p₂ at h
    -- the targets that the view remembers are nothing to the elements
    have hj₂ : Joined bus d e c p p₂ r s := by
      rw [← hp₂]
      exact ⟨hj.models, hj.held, hj.size, hj.registry, hj.quiet, hj.filled, hj.listens, hj.spares,
        hj.others, hj.children, hj.announced⟩
    have hk₂ : p₂.Shows v all := by
      obtain ⟨view, hv, hc⟩ := hk.view
      refine ⟨hj₂.held ▸ hk.held, { view with targets := view.targets ++ targets }, ?_, hc⟩
      rw [← hp₂]
      exact view?_modifyView_self ((view?_of_views hviews v).trans hv) _
    have hm₂ : p₂.model? m = some d := (model?_of_models hj₂.models m).trans hm
    have hnot : e ∉ es := fun hin => (hp.1 e hin).1 rfl
    refine JoinedAll.cons hj₂ hk he hnot (ih hj₂.registry hj₂.quiet hm₂ hk₂ hrest ?_ ?_ h)
    · have hin : ∀ b ∈ es, (e ≠ b ∧ ¬ p.Inside b e) ∧ b ∈ all := fun b hb => ⟨hp.1 b hb, hrest b hb⟩
      refine ((List.forall₂_and_left es cs).mpr ⟨hin, hus⟩).imp fun b cb hb => ?_
      exact hb.2.of_joined hj₂ hb.1.1.1 hb.1.1.2 (hk.isRooted hb.1.2)
    · refine hp.2.imp_of_mem fun {a b} _ hb hab => ⟨hab.1, fun hin => hab.2 ?_⟩
      obtain ⟨cb, _, hub⟩ := exists_of_mem_forall₂ hus hb
      exact hub.inside_of_joined hj₂ (hp.1 b hb).1 (hp.1 b hb).2 hin

end Page

end Bindery
