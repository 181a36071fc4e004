import Bindery.Proofs.Binding.Deeds

/-!
# Trails

A trail leads from one page to another, step by step: values are announced, attributes are bound or
written, and in between nothing happens that an attribute depends on.  What an attribute shows at the
end is decided by what was announced on the way.

* `Page.Aside`        a change that no attribute depends on
* `Happens`           one step, with what was done
* `Trail`             steps one after the other; nothing that died on the way is alive in the end
* `Trail.split`       the step at which an element was bound
* `Trail.decides`     an attribute that is written by announcements only shows the last one
-/

namespace Bindery

variable {κ σ : Type}

/-! ## What an attribute shows -/

namespace Attributes

/-- The attribute shows a value: as a text, or as a truth value by being there. -/
def Displays (a : Attributes) (attr : String) (value : Value) : Prop :=
  if isBooleanProperty attr then a.contains attr = value.isTruthy
  else a.get? attr = some value.display

theorem displays_congr {a a' : Attributes} {attr : String} (h : a'.get? attr = a.get? attr)
    (value : Value) : a'.Displays attr value ↔ a.Displays attr value := by
  unfold Displays contains
  rw [h]

theorem displays_setProperty (a : Attributes) (attr : String) (value : Value) :
    (a.setProperty attr value).Displays attr value := by
  unfold Displays
  split
  · rename_i hb
    unfold setProperty contains
    rw [if_pos hb]
    split
    · rename_i ht
      rw [get?_set_self, ht]
      rfl
    · rename_i ht
      rw [get?_erase_self]
      exact (Bool.eq_false_iff.mpr ht).symm
  · rename_i hb
    exact get?_setProperty_self (Bool.eq_false_iff.mpr hb) a value

/-- The attribute shows the value that was announced last, and is as it was if there is none. -/
def Decided (a a' : Attributes) (attr : String) : Option Value → Prop
  | some value => a'.Displays attr value
  | none => a'.get? attr = a.get? attr

theorem Decided.trans {a a' a'' : Attributes} {attr : String} {x y : Option Value}
    (h : a.Decided a' attr x) (k : a'.Decided a'' attr y) : a.Decided a'' attr (y.or x) := by
  cases y with
  | some value => exact k
  | none =>
    cases x with
    | some value => exact (displays_congr k value).mpr h
    | none => exact Eq.trans k h

end Attributes

/-! ## Steps -/

namespace Page

variable {b : BusId} {e : ElementId} {p q s : Page κ σ}

/-- A change that no attribute depends on: the bus keeps the listeners of attributes, and elements
keep their attributes. -/
structure Aside (b : BusId) (p q : Page κ σ) : Prop where
  bus : ∀ {r}, p.bus? b = some r → ∃ r', q.bus? b = some r' ∧ (r.Quiet → r'.Quiet) ∧
    ∀ event e name, r'.Displays event e name ↔
      r.Displays event e name
  attributes : ∀ {e d}, p.element? e = some d →
    ∃ d', q.element? e = some d' ∧ d'.attributes = d.attributes

/-- What is alive in `q` was alive in `p`, if it was there. -/
structure Ended (p q : Page κ σ) : Prop where
  size : p.elements.size ≤ q.elements.size
  alive : ∀ {e d}, p.element? e = some d → q.elementAlive e = true → p.elementAlive e = true

theorem exists_element_of_le (h : p.elements.size ≤ q.elements.size) {d : PageElement κ}
    (hd : p.element? e = some d) : ∃ d', q.element? e = some d' := by
  have hlt : e.index < p.elements.size := (Array.getElem?_eq_some_iff.mp hd).1
  exact ⟨_, Array.getElem?_eq_getElem (Nat.lt_of_lt_of_le hlt h)⟩

namespace Ended

theorem refl (p : Page κ σ) : p.Ended p := ⟨Nat.le_refl _, fun _ h => h⟩

theorem trans (h : p.Ended q) (k : q.Ended s) : p.Ended s where
  size := Nat.le_trans h.size k.size
  alive hd ha := by
    obtain ⟨d', hd'⟩ := exists_element_of_le h.size hd
    exact h.alive hd (k.alive hd' ha)

theorem of_shrinks (h : Shrinks p q) : p.Ended q :=
  ⟨Nat.le_of_eq h.size.symm, fun _ ha => elementAlive_of_shrinks h ha⟩

end Ended

end Page

open Page

/-- One step, with what was done. -/
inductive Happens (b : BusId) : Page κ σ → List Deed → Page κ σ → Prop where
  | aside {p q : Page κ σ} : p.Aside b q → Happens b p [] q
  | announced {p : Page κ σ} {r : Registry (Listener κ)} (event : String) (value : Value) :
      p.bus? b = some r →
      Happens b p [.announced b event value] (p.receiveAll value (r.heard event))
  | bound {p : Page κ σ} {m : ModelId} {d : Model} (e : ElementId) : p.model? m = some d →
      Happens b p [.bound b e d (p.attributesOf e).entries]
        (p.bindAttributes b m e (p.attributesOf e).entries).2
  | edited {p : Page κ σ} (e : ElementId) (name : String) (f : Attributes → Attributes) :
      (∀ a other, Text.lower other ≠ Text.lower name → (f a).get? other = a.get? other) →
      Happens b p [.edited e name]
        (p.modifyElement e fun d => { d with attributes := f d.attributes })

/-- Steps one after the other, with all that was done.  What is alive in the end was alive at each. -/
inductive Trail (b : BusId) : Page κ σ → List Deed → Page κ σ → Prop where
  | refl (p : Page κ σ) : Trail b p [] p
  | step {p s q : Page κ σ} {ds ds' : List Deed} :
      Happens b p ds s → p.Ended q → Trail b s ds' q → Trail b p (ds ++ ds') q

/-! ## Listeners -/

/-- By these deeds an attribute came to listen to an event. -/
def Joins (ds : List Deed) (b : BusId) (e : ElementId) (name event : String) : Prop :=
  ∃ d entries template k, Deed.bound b e d entries ∈ ds ∧ (name, template) ∈ entries ∧
    k ∈ d.keysIn template ∧ event = d.event k

variable {b : BusId} {e : ElementId} {p q s : Page κ σ} {ds ds' : List Deed}

theorem Happens.bus (h : Happens b p ds q) {r : Registry (Listener κ)} (hr : p.bus? b = some r) :
    ∃ r', q.bus? b = some r' ∧ (r.Quiet → r'.Quiet) ∧
      ∀ event e name, r'.Displays event e name ↔
        r.Displays event e name ∨ Joins ds b e name event := by
  have hnone : (∀ e d entries, Deed.bound b e d entries ∉ ds) →
      ∀ e name event, ¬ Joins ds b e name event := by
    rintro hno e name event ⟨d, entries, template, k, hm, -⟩
    exact hno e d entries hm
  cases h with
  | aside h =>
    obtain ⟨r', hr', hq, hl⟩ := h.bus hr
    refine ⟨r', hr', hq, fun event e name => ?_⟩
    rw [hl, or_iff_left (hnone (fun _ _ _ h => nomatch h) e name event)]
  | announced event value hr₀ =>
    refine ⟨r, (bus?_receiveAll ..).trans hr, id, fun event e name => ?_⟩
    rw [or_iff_left (hnone (fun _ _ _ h => by simp at h) e name event)]
  | @bound m d e hm =>
    obtain ⟨hs, hw, -⟩ := wired_bindAttributes b e hm (p.attributesOf e).entries
    refine ⟨_, hw.registry r hr, fun hq => quiet_addAll hq fun l hl => ?_, fun event c name => ?_⟩
    · obtain ⟨x, -, rfl⟩ := List.mem_map.mp hl
      rfl
    · unfold Registry.Displays
      simp only [heard_addAll, List.mem_append, or_and_right, exists_or]
      refine or_congr_right ⟨?_, ?_⟩
      · rintro ⟨l, hl, hon⟩
        obtain ⟨⟨event', l⟩, hmem, rfl⟩ := List.mem_map.mp hl
        obtain ⟨hmem, hev⟩ := List.mem_filter.mp hmem
        obtain ⟨⟨name', k⟩, hslot, hx⟩ := List.mem_map.mp hmem
        obtain ⟨template, hentry, hk⟩ := Model.mem_slots.mp hslot
        cases hx
        obtain ⟨_, ⟨⟩, rfl⟩ := propertyOn_eq_some.mp hon
        exact ⟨d, _, template, k, List.mem_singleton_self _, hentry, hk,
          (of_decide_eq_true hev).symm⟩
      · rintro ⟨d', entries, template, k, hmem, hentry, hk, rfl⟩
        cases List.mem_singleton.mp hmem
        refine ⟨.property (.weak e) name, List.mem_map.mpr ⟨(d.event k, _),
          List.mem_filter.mpr ⟨?_, decide_eq_true rfl⟩, rfl⟩, if_pos rfl⟩
        exact List.mem_map.mpr ⟨(name, k), Model.mem_slots.mpr ⟨template, hentry, hk⟩, rfl⟩
  | edited e name f hf =>
    refine ⟨r, hr, id, fun event e name => ?_⟩
    rw [or_iff_left (hnone (fun _ _ _ h => by simp at h) e name event)]

/-- The attribute listens to these events, and to no others; nor does any other attribute that goes by
the same name. -/
structure Page.Follows (b : BusId) (p : Page κ σ) (e : ElementId) (attr : String)
    (events : List String) : Prop where
  hears : ∃ r, p.bus? b = some r ∧ ∀ event ∈ events, r.Displays event e attr
  only : ∀ r, p.bus? b = some r → ∀ event name, r.Displays event e name →
    Text.lower attr = Text.lower name → name = attr ∧ event ∈ events

variable {attr : String} {events : List String}

theorem Page.Follows.step (h : p.Follows b e attr events) (hs : Happens b p ds q)
    (hno : ∀ x ∈ ds, ¬ x.Touches e attr) : q.Follows b e attr events := by
  obtain ⟨r, hr, hall⟩ := h.hears
  obtain ⟨r', hr', -, hl⟩ := hs.bus hr
  refine ⟨⟨r', hr', fun event he => (hl ..).mpr (Or.inl (hall event he))⟩, ?_⟩
  intro r₁ hr₁ event name hm hlower
  cases hr'.symm.trans hr₁
  rcases (hl ..).mp hm with hm | ⟨d, entries, template, k, hbound, -⟩
  · exact h.only r hr event name hm hlower
  · exact absurd rfl (hno _ hbound)

/-! ## What an attribute becomes -/

/-- One step: what was announced to the attribute is what it shows. -/
theorem Happens.decides (h : Happens b p ds q) (hf : p.Follows b e attr events)
    (hno : ∀ x ∈ ds, ¬ x.Touches e attr) {d : PageElement κ} (hd : p.element? e = some d)
    (ha : q.elementAlive e = true) :
    ∃ d', q.element? e = some d' ∧
      d.attributes.Decided d'.attributes attr (lastAnnounced b events ds) := by
  cases h with
  | aside h =>
    obtain ⟨d', hd', hattr⟩ := h.attributes hd
    exact ⟨d', hd', congrArg (Attributes.get? · attr) hattr⟩
  | @announced r event value hr =>
    obtain ⟨d', hd', hattr⟩ := attributes_receiveAll hd ha
    refine ⟨d', hd', ?_⟩
    have hmem : ∀ name, name ∈ (r.heard event).filterMap (Listener.propertyOn e) ↔
        r.Displays event e name := fun name => List.mem_filterMap
    have hsame : ∀ name ∈ (r.heard event).filterMap (Listener.propertyOn e),
        Text.lower attr = Text.lower name → name = attr ∧ event ∈ events :=
      fun name hn => hf.only r hr event name ((hmem name).mp hn)
    rw [hattr]
    by_cases hev : event ∈ events
    · have hlast : lastAnnounced b events [.announced b event value] = some value := by
        simp [lastAnnounced, Deed.payload?, hev]
      rw [hlast]
      obtain ⟨r', hr', hall⟩ := hf.hears
      cases hr.symm.trans hr'
      obtain ⟨a, hlastWrite⟩ := Attributes.exists_get?_foldl_of_mem (a := d.attributes)
        ((hmem attr).mpr (hall event hev)) (fun name hn hlower => (hsame name hn hlower).1) value
      exact (Attributes.displays_congr hlastWrite value).mpr (a.displays_setProperty attr value)
    · have hlast : lastAnnounced b events [.announced b event value] = none := by
        simp [lastAnnounced, Deed.payload?, hev]
      rw [hlast]
      exact Attributes.get?_foldl_of_not_mem
        (fun name hn hlower => hev (hsame name hn hlower).2) value
  | @bound m d' c hm =>
    obtain ⟨hs, hw, -⟩ := wired_bindAttributes b c hm (p.attributesOf c).entries
    have hne : e ≠ c := fun hec => hno _ (List.mem_singleton_self _) hec.symm
    exact ⟨d, (hw.elements e hne).trans hd, rfl⟩
  | edited c name f hother =>
    by_cases hc : c = e
    · subst hc
      refine ⟨_, element?_modifyElement_self hd _, hother _ _ fun hlower => ?_⟩
      exact hno _ (List.mem_singleton_self _) ⟨rfl, hlower⟩
    · exact ⟨d, (element?_modifyElement_of_ne hc _).trans hd, rfl⟩

namespace Trail

theorem ended (h : Trail b p ds q) : p.Ended q := by
  cases h with
  | refl => exact .refl p
  | step _ hend _ => exact hend

theorem single (h : Happens b p ds q) (hend : p.Ended q) : Trail b p ds q := by
  have hstep := Trail.step h hend (.refl q)
  rw [List.append_nil] at hstep
  exact hstep

theorem trans (h : Trail b p ds s) (k : Trail b s ds' q) : Trail b p (ds ++ ds') q := by
  induction h with
  | refl => exact k
  | step hone hend _ ih =>
    rw [List.append_assoc]
    exact .step hone (hend.trans k.ended) (ih k)

theorem bus (h : Trail b p ds q) {r : Registry (Listener κ)} (hr : p.bus? b = some r) :
    ∃ r', q.bus? b = some r' ∧ (r.Quiet → r'.Quiet) := by
  induction h generalizing r with
  | refl => exact ⟨r, hr, id⟩
  | step hone _ _ ih =>
    obtain ⟨r₁, hr₁, hq₁, -⟩ := hone.bus hr
    obtain ⟨r₂, hr₂, hq₂⟩ := ih hr₁
    exact ⟨r₂, hr₂, fun hq => hq₂ (hq₁ hq)⟩

/-- An attribute that is written by announcements only shows the last of those that it listens to. -/
theorem decides (h : Trail b p ds q) (hf : p.Follows b e attr events)
    (hno : ∀ x ∈ ds, ¬ x.Touches e attr) {d : PageElement κ} (hd : p.element? e = some d)
    (ha : q.elementAlive e = true) :
    ∃ d', q.element? e = some d' ∧
      d.attributes.Decided d'.attributes attr (lastAnnounced b events ds) := by
  induction h generalizing d with
  | refl => exact ⟨d, hd, rfl⟩
  | @step p s q ds ds' hone _ hrest ih =>
    have hno₁ := fun x hx => hno x (List.mem_append_left _ hx)
    have hs : ∃ d', s.element? e = some d' := by
      cases hone with
      | aside h =>
        obtain ⟨d', hd', -⟩ := h.attributes hd
        exact ⟨d', hd'⟩
      | announced event value hr =>
        exact exists_element_of_size (size_receiveAll ..) hd
      | bound c hm =>
        obtain ⟨hs, hw, -⟩ := wired_bindAttributes b c hm (p.attributesOf c).entries
        exact exists_element_of_size hw.size hd
      | edited c name f _ => exact exists_element_of_size (size_modifyElement ..) hd
    obtain ⟨d₀, hd₀⟩ := hs
    obtain ⟨d₁, hd₁, hone'⟩ := hone.decides hf hno₁ hd (hrest.ended.alive hd₀ ha)
    obtain ⟨d₂, hd₂, hrest'⟩ := ih (hf.step hone hno₁)
      (fun x hx => hno x (List.mem_append_right _ hx)) hd₁ ha
    refine ⟨d₂, hd₂, ?_⟩
    rw [lastAnnounced_append]
    exact hone'.trans hrest'

/-- The attributes of an element were about to be bound on `s`, and none of them listened to
anything; the rest is a trail to `q`. -/
structure Binds (b : BusId) (e : ElementId) (d : Model) (entries : List (String × String))
    (after : List Deed) (q s : Page κ σ) (m : ModelId) : Prop where
  model : s.model? m = some d
  read : entries = (s.attributesOf e).entries
  free : ∃ r, s.bus? b = some r ∧ ∀ event name, ¬ r.Displays event e name
  trail : Trail b (s.bindAttributes b m e entries).2 after q

theorem split {d : Model} {entries : List (String × String)} {before after : List Deed}
    (h : Trail b p (before ++ .bound b e d entries :: after) q)
    (hbefore : ∀ d entries, Deed.bound b e d entries ∉ before)
    (hfree : ∃ r, p.bus? b = some r ∧ ∀ event name, ¬ r.Displays event e name) :
    ∃ s m, Binds b e d entries after q s m := by
  generalize hall : before ++ .bound b e d entries :: after = ds at h
  induction h generalizing before with
  | refl => cases before <;> cases hall
  | @step p s q ds ds' hone _ hrest ih =>
    -- the element is bound by one of the steps that follow
    have hlater : ∀ bs, before = ds ++ bs → ds' = bs ++ .bound b e d entries :: after →
        ∃ s m, Binds b e d entries after q s m := by
      rintro bs rfl hds'
      obtain ⟨r, hr, hnone⟩ := hfree
      obtain ⟨r', hr', -, hl⟩ := hone.bus hr
      refine ih (fun d' entries' hm => hbefore d' entries' (List.mem_append_right _ hm))
        ⟨r', hr', fun event name hm => ?_⟩ hds'.symm
      rcases (hl ..).mp hm with hm | ⟨d', entries', _, _, hbound, -⟩
      · exact hnone event name hm
      · exact hbefore d' entries' (List.mem_append_left _ hbound)
    rcases List.append_eq_append_iff.mp hall with ⟨as, hds, htail⟩ | ⟨bs, hds, htail⟩
    · cases as with
      | nil => exact hlater [] (by rw [hds, List.append_nil, List.append_nil]) htail.symm
      | cons x as =>
        obtain ⟨rfl, rfl⟩ := List.cons_eq_cons.mp htail
        -- it is bound by this step
        cases hone with
        | aside h => cases before <;> cases hds
        | announced event value hr =>
          cases before with
          | nil => cases hds
          | cons y ys => cases ys <;> cases hds
        | edited c name f hf =>
          cases before with
          | nil => cases hds
          | cons y ys => cases ys <;> cases hds
        | bound c hm =>
          cases before with
          | nil =>
            cases hds
            exact ⟨p, _, hm, rfl, hfree, hrest⟩
          | cons y ys => cases ys <;> cases hds
    · exact hlater bs hds htail

end Trail

end Bindery
