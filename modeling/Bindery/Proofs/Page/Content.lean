import Bindery.Page.Tree
import Bindery.Proofs.Page.Alive

/-!
# The text of an element

The text of an element depends on the children of the element and of those inside it, and on nothing
else of the page.

* `Page.Inside`                one element stands somewhere below another
* `textContent_congr`          the text is the same if all these children are
* `textContent_modifyElement`  so writing an element somewhere else leaves it alone
* `elementAlive_of_outside`    an element is kept alive by what it stands in
-/

namespace Bindery

namespace Page

variable {κ σ : Type} {p q s : Page κ σ}

/-- The second element is a child of the first, or inside one of its children. -/
inductive Inside (p : Page κ σ) : ElementId → ElementId → Prop where
  | child {e c : ElementId} {d : PageElement κ} :
      p.element? e = some d → Child.element c ∈ d.children → Inside p e c
  | deeper {e x c : ElementId} {d : PageElement κ} :
      p.element? e = some d → Child.element x ∈ d.children → Inside p x c → Inside p e c

/-- Elements have only children that they had before. -/
def NoNewChildren (p q : Page κ σ) : Prop :=
  ∀ ⦃e c d⦄, q.element? e = some d → Child.element c ∈ d.children →
    ∃ d', p.element? e = some d' ∧ Child.element c ∈ d'.children

theorem NoNewChildren.refl (p : Page κ σ) : NoNewChildren p p := fun _ _ d hd hc => ⟨d, hd, hc⟩

theorem NoNewChildren.trans (h : NoNewChildren p q) (k : NoNewChildren q s) : NoNewChildren p s := by
  intro e c d hd hc
  obtain ⟨d', hd', hc'⟩ := k hd hc
  exact h hd' hc'

theorem Shrinks.noNewChildren (h : Shrinks p q) : NoNewChildren p q := by
  intro e c d hd hc
  obtain ⟨d', hd', hs⟩ := h.children hd
  exact ⟨d', hd', hs c hc⟩

theorem noNewChildren_modifyElement {e : ElementId} {f : PageElement κ → PageElement κ}
    (hf : ∀ d c, Child.element c ∈ (f d).children → Child.element c ∈ d.children) :
    NoNewChildren p (p.modifyElement e f) :=
  (Shrinks.modifyElement p e hf).noNewChildren

theorem noNewChildren_createElement (p : Page κ σ) (tag : String) :
    NoNewChildren p (p.createElement tag).2 := by
  intro e c d hd hc
  change (p.elements.push _)[e.index]? = some d at hd
  rw [Array.getElem?_push] at hd
  split at hd
  · cases hd
    cases hc
  · exact ⟨d, hd, hc⟩

theorem Inside.of_noNewChildren (h : NoNewChildren p q) {e c : ElementId} (hi : q.Inside e c) :
    p.Inside e c := by
  induction hi with
  | child hd hc =>
    obtain ⟨d', hd', hc'⟩ := h hd hc
    exact .child hd' hc'
  | deeper hd hc _ ih =>
    obtain ⟨d', hd', hc'⟩ := h hd hc
    exact .deeper hd' hc' ih

theorem Inside.of_shrinks (h : Shrinks p q) {e c : ElementId} (hi : q.Inside e c) : p.Inside e c :=
  hi.of_noNewChildren h.noNewChildren

theorem element?_of_elements (h : q.elements = p.elements) (e : ElementId) :
    q.element? e = p.element? e := by
  unfold element?
  rw [h]

theorem noNewChildren_of_elements (h : q.elements = p.elements) : NoNewChildren p q := by
  intro e c d hd hc
  rw [element?_of_elements h] at hd
  exact ⟨d, hd, hc⟩

theorem Inside.of_elements (h : q.elements = p.elements) {e c : ElementId} (hi : q.Inside e c) :
    p.Inside e c :=
  hi.of_noNewChildren (noNewChildren_of_elements h)

/-- Nothing stands inside an element without elements as children. -/
theorem not_inside_of_childElements {e x : ElementId} (h : p.childElements e = []) :
    ¬ p.Inside e x := by
  have hnone : ∀ {d : PageElement κ} {c : ElementId}, p.element? e = some d →
      Child.element c ∉ d.children := by
    intro d c hd hc
    unfold childElements at h
    rw [hd] at h
    cases List.filterMap_eq_nil_iff.mp h (.element c) hc
  intro hi
  cases hi with
  | child hd hc => exact hnone hd hc
  | deeper hd hc _ => exact hnone hd hc

/-- The element is there in both pages or in neither, with the same children. -/
def SameChildren (p q : Page κ σ) (e : ElementId) : Prop :=
  (q.element? e).map PageElement.children = (p.element? e).map PageElement.children

/-- What stands inside an element stood there before, if nothing there has other children now. -/
theorem Inside.of_sameChildren {e x : ElementId} (hi : q.Inside e x) (he : SameChildren p q e)
    (h : ∀ c, p.Inside e c → SameChildren p q c) : p.Inside e x := by
  have hback : ∀ {e : ElementId} {d : PageElement κ}, SameChildren p q e → q.element? e = some d →
      ∃ d', p.element? e = some d' ∧ d'.children = d.children := by
    intro e d he hd
    unfold SameChildren at he
    rw [hd] at he
    exact Option.map_eq_some_iff.mp he.symm
  induction hi with
  | child hd hc =>
    obtain ⟨d', hd', hs⟩ := hback he hd
    exact .child hd' (hs ▸ hc)
  | @deeper e y c d hd hy _ ih =>
    obtain ⟨d', hd', hs⟩ := hback he hd
    have hy' : Child.element y ∈ d'.children := hs ▸ hy
    exact .deeper hd' hy' (ih (h y (.child hd' hy')) fun z hz => h z (.deeper hd' hy' hz))

theorem textContent_row {below below' : List Child → Fragment ElementId} {children : List Child}
    (h : ∀ e, Child.element e ∈ children → SameChildren p q e ∧
      ∀ d, p.element? e = some d → (below' d.children).textContent = (below d.children).textContent) :
    (q.row below' children).textContent = (p.row below children).textContent := by
  induction children with
  | nil => rfl
  | cons child r ih =>
    have hr := ih fun e he => h e (List.mem_cons_of_mem _ he)
    cases child with
    | text content => exact congrArg (content.toList ++ ·) hr
    | element e =>
      obtain ⟨hs, hb⟩ := h e List.mem_cons_self
      unfold SameChildren at hs
      unfold row
      cases hp : p.element? e with
      | none =>
        rw [hp, Option.map_none, Option.map_eq_none_iff] at hs
        rw [hs]
        exact hr
      | some d =>
        rw [hp, Option.map_some, Option.map_eq_some_iff] at hs
        obtain ⟨d', hq, hc⟩ := hs
        rw [hq]
        show (below' d'.children).textContent ++ _ = (below d.children).textContent ++ _
        rw [hc, hb d hp, hr]

theorem textContent_rowWithin (depth : Nat) {children : List Child}
    (h : ∀ e, Child.element e ∈ children → SameChildren p q e ∧
      ∀ c, p.Inside e c → SameChildren p q c) :
    (q.rowWithin depth children).textContent = (p.rowWithin depth children).textContent := by
  induction depth generalizing children with
  | zero => exact textContent_row fun e he => ⟨(h e he).1, fun _ _ => rfl⟩
  | succ depth ih =>
    refine textContent_row fun e he => ⟨(h e he).1, fun d hd => ih fun c hc => ?_⟩
    exact ⟨(h e he).2 c (.child hd hc), fun x hx => (h e he).2 x (.deeper hd hc hx)⟩

/-- The text of an element, by its own children and those of the elements inside it. -/
theorem textContent_congr (hsize : q.elements.size = p.elements.size) {e : ElementId}
    (he : SameChildren p q e) (h : ∀ c, p.Inside e c → SameChildren p q c) :
    q.textContent e = p.textContent e := by
  unfold textContent inner
  unfold SameChildren at he
  cases hp : p.element? e with
  | none =>
    rw [hp, Option.map_none, Option.map_eq_none_iff] at he
    rw [he]
  | some d =>
    rw [hp, Option.map_some, Option.map_eq_some_iff] at he
    obtain ⟨d', hq, hc⟩ := he
    rw [hq, hsize]
    show String.ofList (q.rowWithin _ d'.children).textContent = _
    rw [hc, textContent_rowWithin]
    exact fun c hm => ⟨h c (.child hp hm), fun x hx => h x (.deeper hp hm hx)⟩

theorem sameChildren_modifyElement_of_ne {e c : ElementId} (h : e ≠ c)
    (f : PageElement κ → PageElement κ) : SameChildren p (p.modifyElement e f) c := by
  unfold SameChildren
  rw [element?_modifyElement_of_ne h]

/-- Writing an element that does not stand inside leaves the text alone. -/
theorem textContent_modifyElement {e c : ElementId} (hne : c ≠ e) (hi : ¬ p.Inside e c)
    (f : PageElement κ → PageElement κ) :
    (p.modifyElement c f).textContent e = p.textContent e := by
  refine textContent_congr (size_modifyElement ..) (sameChildren_modifyElement_of_ne hne f) ?_
  intro x hx
  exact sameChildren_modifyElement_of_ne (fun he : c = x => hi (he.symm ▸ hx)) f

theorem textContent_of_sameChildren (hsize : q.elements.size = p.elements.size)
    (h : ∀ c, SameChildren p q c) (e : ElementId) : q.textContent e = p.textContent e :=
  textContent_congr hsize (h e) fun c _ => h c

theorem textContent_of_elements (h : q.elements = p.elements) (e : ElementId) :
    q.textContent e = p.textContent e :=
  textContent_of_sameChildren (congrArg Array.size h)
    (fun c => congrArg (Option.map PageElement.children) (element?_of_elements h c)) e

@[simp] theorem textContent_hold (h : Handle) (p : Page κ σ) (e : ElementId) :
    (p.hold h).textContent e = p.textContent e :=
  textContent_of_elements (p := p) (q := p.hold h) rfl e

theorem childElements_of_sameChildren {e : ElementId} (h : SameChildren p q e) :
    q.childElements e = p.childElements e := by
  unfold childElements
  unfold SameChildren at h
  cases hp : p.element? e with
  | none =>
    rw [hp, Option.map_none, Option.map_eq_none_iff] at h
    rw [h]
  | some d =>
    rw [hp, Option.map_some, Option.map_eq_some_iff] at h
    obtain ⟨d', hq, hc⟩ := h
    rw [hq]
    exact congrArg (List.filterMap Child.element?) hc

theorem sameChildren_modifyElement (e : ElementId) {f : PageElement κ → PageElement κ}
    (hf : ∀ d, (f d).children = d.children) (c : ElementId) :
    SameChildren p (p.modifyElement e f) c := by
  unfold SameChildren
  rw [element?_modifyElement]
  split
  · rw [Option.map_map]
    congr 1
    exact funext hf
  · rfl

/-- An element that is alive stays so if nothing is let go of, nobody stops listening, and all that it
stands in keep their children. -/
theorem elementAlive_of_outside {x : ElementId} (hsize : q.elements.size = p.elements.size)
    (hviews : q.views = p.views) (hheld : ∀ h ∈ p.held, h ∈ q.held)
    (hcaptured : ∀ {h}, p.captures h = true → q.captures h = true)
    (houter : ∀ e, p.Inside e x → SameChildren p q e) (ha : p.elementAlive x = true) :
    q.elementAlive x = true := by
  have hfades : Fades (fun e => e = x ∨ p.Inside e x) q p := by
    refine ⟨Nat.le_of_eq hsize, fun _ hr => ?_, hcaptured, fun {e c d} hc hd hm => ?_⟩
    · rw [isRooted_singleton] at hr ⊢
      refine hr.imp (hheld _) fun ⟨v, view, hv, hview, hk⟩ => ⟨v, view, hheld _ hv, ?_, hk⟩
      unfold view?
      rw [hviews]
      exact hview
    · have hin : p.Inside e x := by
        rcases hc with rfl | hc
        · exact .child hd hm
        · exact .deeper hd hm hc
      have hs := houter e hin
      unfold SameChildren at hs
      rw [hd, Option.map_some, Option.map_eq_some_iff] at hs
      obtain ⟨d', hd', hchildren⟩ := hs
      exact ⟨Or.inr hin, d', hd', hchildren ▸ hm⟩
  exact elementAlive_of_fades hfades (Or.inl rfl) ha

theorem textContent_of_element? {e : ElementId} {d : PageElement κ} (hd : p.element? e = some d) :
    p.textContent e = String.ofList (p.rowWithin p.elements.size d.children).textContent := by
  unfold textContent inner
  rw [hd]

theorem textContent_rowWithin_text (p : Page κ σ) (depth : Nat) (text : String) :
    (p.rowWithin depth (if text = "" then [] else [.text text])).textContent = text.toList := by
  by_cases ht : text = ""
  · rw [if_pos ht, ht]
    cases depth <;> rfl
  · rw [if_neg ht]
    cases depth <;> exact List.append_nil _

theorem textContent_setText {e : ElementId} {d : PageElement κ} (hd : p.element? e = some d)
    (text : String) : (p.setText e text).textContent e = text := by
  have he := element?_modifyElement_self hd fun d =>
    { d with children := if text = "" then [] else [.text text] }
  unfold setText
  rw [textContent_of_element? he, textContent_rowWithin_text, String.ofList_toList]

end Page

end Bindery
