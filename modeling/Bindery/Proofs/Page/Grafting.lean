import Mathlib.Data.List.Forall2
import Bindery.Proofs.Markup.RoundTrip
import Bindery.Proofs.Page.Content

/-!
# Grafted fragments

Grafting makes the elements of a fragment one after the other, those inside an element before the
element itself.  So the tree below the k-th element of a row takes up the identities between the
element in front of it and itself, and what happens to one element of the row is nothing to the
others.

* `Fragment.faces`   the elements of a row as binding meets them: attributes and text
* `Page.Laid`        a fragment stands in a page, on a range of identities
* `laid_graft`       where grafting puts it
* `Laid.faces`, `Laid.apart`   what it looks like there, and that its elements are apart
* `Laid.bare_rowWithin`      the layout of such a row is the fragment
-/

namespace Bindery

/-- What there is to bind in an element. -/
structure Face where
  attributes : Attributes
  text : String
deriving DecidableEq

namespace Fragment

variable {ι : Type}

def faces : Fragment ι → List Face
  | nil => []
  | text _ rest => rest.faces
  | element _ _ attributes children rest =>
    ⟨attributes, String.ofList children.textContent⟩ :: rest.faces

theorem exists_element_of_mem_faces {f : Fragment ι} {c : Face} (h : c ∈ f.faces) :
    ∃ x ∈ f.elements, x.attributes = c.attributes := by
  induction f with
  | nil => cases h
  | text content rest ih => exact ih h
  | element label tag attributes children rest _ ih =>
    rcases List.mem_cons.mp h with rfl | h
    · exact ⟨_, List.mem_cons_self, rfl⟩
    · obtain ⟨x, hx, he⟩ := ih h
      exact ⟨x, List.mem_cons_of_mem _ hx, he⟩

end Fragment

theorem Child.mem_elements {row : List Child} {e : ElementId} :
    e ∈ row.filterMap Child.element? ↔ Child.element e ∈ row := by
  constructor
  · intro h
    obtain ⟨child, hchild, he⟩ := List.mem_filterMap.mp h
    cases child with
    | text content => cases he
    | element c =>
      cases he
      exact hchild
  · intro h
    exact List.mem_filterMap.mpr ⟨_, h, rfl⟩

namespace Page

variable {κ σ : Type} {p q s : Page κ σ}

theorem mem_childElements {e x : ElementId} :
    x ∈ p.childElements e ↔ ∃ d, p.element? e = some d ∧ Child.element x ∈ d.children := by
  unfold childElements
  cases p.element? e with
  | none => exact ⟨fun h => absurd h List.not_mem_nil, fun ⟨_, h, _⟩ => nomatch h⟩
  | some d =>
    refine Child.mem_elements.trans ⟨fun h => ⟨d, rfl, h⟩, ?_⟩
    rintro ⟨d', ⟨⟩, h⟩
    exact h

/-- From `p` to `q` elements were added, and nothing else happened. -/
structure Grows (p q : Page κ σ) : Prop where
  rest : q = { p with elements := q.elements }
  size : p.elements.size ≤ q.elements.size
  kept : ∀ e : ElementId, e.index < p.elements.size → q.element? e = p.element? e

namespace Grows

theorem refl (p : Page κ σ) : Grows p p := ⟨rfl, Nat.le_refl _, fun _ _ => rfl⟩

theorem trans (h : Grows p q) (k : Grows q s) : Grows p s where
  rest := by rw [k.rest, h.rest]
  size := Nat.le_trans h.size k.size
  kept e he := (k.kept e (Nat.lt_of_lt_of_le he h.size)).trans (h.kept e he)

theorem addElement (p : Page κ σ) (d : PageElement κ) : Grows p (p.addElement d).2 where
  rest := rfl
  size := by
    show _ ≤ (p.elements.push d).size
    rw [Array.size_push]
    omega
  kept e he := by
    show (p.elements.push d)[e.index]? = _
    rw [Array.getElem?_push_lt he]
    exact (Array.getElem?_eq_getElem he).symm

end Grows

/-- The fragment stands in the page as this row, on identities from `lo` up to `hi`.  Those below an
element come right before it. -/
inductive Laid (p : Page κ σ) : Fragment Unit → List Child → Nat → Nat → Prop where
  | nil {lo hi : Nat} : lo ≤ hi → Laid p .nil [] lo hi
  | text {content : String} {rest : Fragment Unit} {row : List Child} {lo hi : Nat} :
      Laid p rest row lo hi → Laid p (.text content rest) (.text content :: row) lo hi
  | element {tag : String} {attributes : Attributes} {inside rest : Fragment Unit}
      {inner row : List Child} {lo e hi : Nat} :
      p.element? ⟨e⟩ = some { tag, attributes, children := inner } →
      Laid p inside inner lo e → Laid p rest row (e + 1) hi →
      Laid p (.element () tag attributes inside rest) (.element ⟨e⟩ :: row) lo hi

namespace Laid

variable {f : Fragment Unit} {row : List Child} {lo hi : Nat}

theorem le (h : Laid p f row lo hi) : lo ≤ hi := by
  induction h with
  | nil hle => exact hle
  | text _ ih => exact ih
  | element _ _ _ ihi ihr => omega

theorem frame (h : Laid p f row lo hi)
    (hq : ∀ e : ElementId, lo ≤ e.index → e.index < hi → q.element? e = p.element? e) :
    Laid q f row lo hi := by
  induction h with
  | nil hle => exact .nil hle
  | text _ ih => exact .text (ih hq)
  | @element tag attributes inside rest inner row lo e hi hd hi' hr ihi ihr =>
    have hle := hi'.le
    have hre := hr.le
    refine .element ((hq ⟨e⟩ hle (by omega : e < hi)).trans hd) (ihi ?_) (ihr ?_)
    · intro c hlo hc
      exact hq c hlo (by omega)
    · intro c hlo hc
      exact hq c (by omega) hc

/-- The elements of the row are in the range, and each follows those inside it. -/
theorem bounds (h : Laid p f row lo hi) {e : ElementId} (he : Child.element e ∈ row) :
    (lo ≤ e.index ∧ e.index < hi) ∧ ∀ x, p.Inside e x → lo ≤ x.index ∧ x.index < e.index := by
  induction h generalizing e with
  | nil => cases he
  | text _ ih =>
    rcases List.mem_cons.mp he with he | he
    · cases he
    · exact ih he
  | @element tag attributes inside rest inner row lo c hi hd hi' hr ihi ihr =>
    have hle := hi'.le
    have hre := hr.le
    rcases List.mem_cons.mp he with he | he
    · cases he
      refine ⟨⟨hle, hre⟩, fun x hx => ?_⟩
      cases hx with
      | child hd' hc =>
        cases hd.symm.trans hd'
        exact (ihi hc).1
      | deeper hd' hc hx =>
        cases hd.symm.trans hd'
        have h1 := (ihi hc).1
        have h2 := (ihi hc).2 x hx
        exact ⟨h2.1, Nat.lt_trans h2.2 h1.2⟩
    · obtain ⟨h1, h2⟩ := ihr he
      refine ⟨by omega, fun x hx => ?_⟩
      have := h2 x hx
      omega

/-- No element of the row is another one of them, or stands inside one that comes later. -/
theorem apart (h : Laid p f row lo hi) :
    (row.filterMap Child.element?).Pairwise fun a b => a ≠ b ∧ ¬ p.Inside b a := by
  induction h with
  | nil => exact List.Pairwise.nil
  | text _ ih => exact ih
  | @element tag attributes inside rest inner row lo e hi hd hi' hr ihi ihr =>
    refine List.pairwise_cons.mpr ⟨fun b hb => ?_, ihr⟩
    obtain ⟨h1, h2⟩ := hr.bounds (Child.mem_elements.mp hb)
    refine ⟨fun he => ?_, fun hin => ?_⟩
    · subst he
      exact absurd h1.1 (Nat.not_succ_le_self e)
    · have h3 := (h2 _ hin).1
      dsimp only at h3
      omega

/-- Deep enough, the layout of the row is the fragment. -/
theorem bare_rowWithin (h : Laid p f row lo hi) {depth : Nat} (hdepth : hi ≤ lo + depth) :
    (p.rowWithin depth row).bare = f := by
  induction h generalizing depth with
  | nil => cases depth <;> rfl
  | @text content rest row lo hi _ ih =>
    have hr := ih hdepth
    cases depth with
    | zero => exact congrArg (Fragment.text content) hr
    | succ depth => exact congrArg (Fragment.text content) hr
  | @element tag attributes inside rest inner row lo e hi hd hi' hr ihi ihr =>
    have hle := hi'.le
    have hre := hr.le
    cases depth with
    | zero => omega
    | succ depth =>
      have h1 : (p.rowWithin depth inner).bare = inside := ihi (by omega)
      have h2 : (p.rowWithin (depth + 1) row).bare = rest := ihr (by omega)
      unfold rowWithin Page.row
      rw [hd]
      show Fragment.element () tag attributes (p.rowWithin depth inner).bare
        (p.rowWithin (depth + 1) row).bare = _
      rw [h1, h2]

theorem textContent (h : Laid p f row lo hi) {depth : Nat} (hdepth : hi ≤ lo + depth) :
    (p.rowWithin depth row).textContent = f.textContent := by
  rw [← Fragment.textContent_bare, h.bare_rowWithin hdepth]

theorem faces (h : Laid p f row lo hi) (hsize : hi ≤ p.elements.size) :
    List.Forall₂ (fun e c => (p.element? e).map PageElement.attributes = some c.attributes ∧
      p.textContent e = c.text) (row.filterMap Child.element?) f.faces := by
  induction h with
  | nil => exact .nil
  | text _ ih => exact ih hsize
  | @element tag attributes inside rest inner row lo e hi hd hi' hr ihi ihr =>
    have hre := hr.le
    refine .cons ⟨?_, ?_⟩ (ihr hsize)
    · rw [hd]
      rfl
    · rw [textContent_of_element? hd]
      exact congrArg String.ofList (hi'.textContent (by omega))

theorem handlers (h : Laid p f row lo hi) {e : ElementId} (he : Child.element e ∈ row) :
    (p.element? e).map PageElement.handlers = some [] := by
  induction h with
  | nil => cases he
  | text _ ih =>
    rcases List.mem_cons.mp he with he | he
    · cases he
    · exact ih he
  | element hd _ _ _ ihr =>
    rcases List.mem_cons.mp he with he | he
    · cases he
      rw [hd]
      rfl
    · exact ihr he

/-- Behind some elements of the row the rest of the fragment stands, and it is apart from them. -/
theorem behind (h : Laid p f row lo hi) {front rest : List ElementId}
    (hrow : row.filterMap Child.element? = front ++ rest) :
    ∃ f' row' mid, Laid p f' row' mid hi ∧ row'.filterMap Child.element? = rest ∧
      f'.faces = f.faces.drop front.length ∧ lo ≤ mid ∧ ∀ x ∈ front, x.index < mid := by
  induction h generalizing front with
  | @nil lo hi hle =>
    obtain ⟨rfl, rfl⟩ := List.append_eq_nil_iff.mp hrow.symm
    exact ⟨.nil, [], lo, .nil hle, rfl, rfl, Nat.le_refl _, fun _ hx => absurd hx List.not_mem_nil⟩
  | text _ ih => exact ih hrow
  | @element tag attributes inside tail inner row lo e hi hd hi' hr ihi ihr =>
    cases front with
    | nil =>
      exact ⟨_, _, lo, .element hd hi' hr, hrow, rfl, Nat.le_refl _,
        fun _ hx => absurd hx List.not_mem_nil⟩
    | cons x front =>
      obtain ⟨rfl, htail⟩ := List.cons.inj hrow
      obtain ⟨f', row', mid, hlaid, hrest, hfaces, hle, hfront⟩ := ihr htail
      have hlo := hi'.le
      refine ⟨f', row', mid, hlaid, hrest, hfaces, by omega, fun y hy => ?_⟩
      rcases List.mem_cons.mp hy with rfl | hy
      · exact hle
      · exact hfront y hy

end Laid

/-! ## Grafting -/

theorem grows_graft (f : Fragment Unit) (p : Page κ σ) : Grows p (graft f p).2 := by
  induction f generalizing p with
  | nil => exact Grows.refl p
  | text content rest ih => exact ih p
  | element label tag attributes children rest ihc ihr =>
    have h1 := ihc p
    have h2 := Grows.addElement (graft children p).2 { tag, attributes, children := (graft children p).1 }
    exact (h1.trans h2).trans (ihr _)

theorem size_graft (f : Fragment Unit) (p : Page κ σ) :
    (graft f p).2.elements.size = p.elements.size + f.descendants.length := by
  induction f generalizing p with
  | nil => rfl
  | text content rest ih => exact ih p
  | element label tag attributes children rest ihc ihr =>
    have hadd : ((graft children p).2.addElement
        { tag, attributes, children := (graft children p).1 }).2.elements.size
          = (graft children p).2.elements.size + 1 := Array.size_push _
    have hrest := ihr ((graft children p).2.addElement
      { tag, attributes, children := (graft children p).1 }).2
    rw [hadd, ihc] at hrest
    refine hrest.trans ?_
    rw [Fragment.descendants, List.length_append, List.length_cons]
    omega

/-- Grafting lays a fragment out on the next identities. -/
theorem laid_graft (f : Fragment Unit) (p : Page κ σ) :
    Laid (graft f p).2 f (graft f p).1 p.elements.size (graft f p).2.elements.size := by
  induction f generalizing p with
  | nil => exact .nil (Nat.le_refl _)
  | text content rest ih => exact .text (ih p)
  | element label tag attributes children rest ihc ihr =>
    generalize hg : graft children p = g at ihc
    generalize ha : g.2.addElement { tag, attributes, children := g.1 } = a
    have hc := ihc p
    rw [hg] at hc
    have hsize : a.2.elements.size = g.2.elements.size + 1 := by
      rw [← ha]
      exact Array.size_push _
    have hid : a.1 = ⟨g.2.elements.size⟩ := by rw [← ha]; rfl
    have hnew : a.2.element? ⟨g.2.elements.size⟩
        = some { tag, attributes, children := g.1 } := by
      rw [← ha]
      exact Array.getElem?_push_size
    have hgrow : Grows g.2 a.2 := by
      rw [← ha]
      exact Grows.addElement ..
    have hr := ihr a.2
    have hrest := grows_graft rest a.2
    rw [hsize] at hr
    have hshape : graft (.element label tag attributes children rest) p
        = (.element a.1 :: (graft rest a.2).1, (graft rest a.2).2) := by
      rw [← ha, ← hg]
      rfl
    rw [hshape, hid]
    refine .element ?_ (hc.frame fun e _ he => ?_) hr
    · rw [hrest.kept _ (by rw [hsize]; exact Nat.lt_succ_self _)]
      exact hnew
    · rw [hrest.kept e (by omega), hgrow.kept e he]

/-- The row is new, and so are the children of the elements made, which come before them. -/
theorem new_of_graft (f : Fragment Unit) (p : Page κ σ) :
    (∀ c, Child.element c ∈ (graft f p).1 →
      p.elements.size ≤ c.index ∧ c.index < (graft f p).2.elements.size) ∧
      ∀ e d, p.elements.size ≤ e.index → (graft f p).2.element? e = some d →
        ∀ c, Child.element c ∈ d.children → p.elements.size ≤ c.index ∧ c.index < e.index := by
  induction f generalizing p with
  | nil =>
    refine ⟨fun c hc => absurd hc List.not_mem_nil, fun e d he hd => ?_⟩
    exact absurd (Array.getElem?_eq_some_iff.mp hd).1 (Nat.not_lt.mpr he)
  | text content rest ih =>
    refine ⟨fun c hc => ?_, (ih p).2⟩
    exact (ih p).1 c ((List.mem_cons.mp hc).resolve_left Child.noConfusion)
  | element label tag attributes children rest ihc ihr =>
    have hgrow := grows_graft children p
    obtain ⟨hrow, hinside⟩ := ihc p
    generalize hg : graft children p = g at hgrow hrow hinside
    have hadd := Grows.addElement g.2 { tag, attributes, children := g.1 }
    have hnew : (g.2.addElement { tag, attributes, children := g.1 }).2.element? ⟨g.2.elements.size⟩
        = some { tag, attributes, children := g.1 } := Array.getElem?_push_size
    have hsize : (g.2.addElement { tag, attributes, children := g.1 }).2.elements.size
        = g.2.elements.size + 1 := Array.size_push _
    generalize ha : (g.2.addElement { tag, attributes, children := g.1 }).2 = s at hadd hnew hsize
    have hle := Nat.le_trans hgrow.size hadd.size
    obtain ⟨hrest, hafter⟩ := ihr s
    have hkept := grows_graft rest s
    have hshape : graft (.element label tag attributes children rest) p
        = (.element ⟨g.2.elements.size⟩ :: (graft rest s).1, (graft rest s).2) := by
      rw [← ha, ← hg]
      rfl
    rw [hshape]
    refine ⟨fun c hc => ?_, fun e d he hd c hc => ?_⟩
    · rcases List.mem_cons.mp hc with hc | hc
      · cases hc
        have hlast : g.2.elements.size < (graft rest s).2.elements.size := by
          have := hkept.size
          omega
        exact ⟨hgrow.size, hlast⟩
      · obtain ⟨hlo, hhi⟩ := hrest c hc
        exact ⟨Nat.le_trans hle hlo, hhi⟩
    · by_cases hs : s.elements.size ≤ e.index
      · obtain ⟨hlo, hhi⟩ := hafter e d hs hd c hc
        exact ⟨Nat.le_trans hle hlo, hhi⟩
      · rw [hkept.kept e (Nat.not_le.mp hs)] at hd
        by_cases hlast : e.index < g.2.elements.size
        · rw [hadd.kept e hlast] at hd
          exact hinside e d he hd c hc
        · -- the element itself
          have hid : e = ⟨g.2.elements.size⟩ := congrArg ElementId.mk (by omega)
          rw [hid, hnew] at hd
          cases hd
          rw [hid]
          exact hrow c hc

theorem element_of_graft {P : PageElement κ → Prop}
    (hnew : ∀ tag attributes children, P { tag, attributes, children }) (f : Fragment Unit)
    (h : ∀ e d, p.element? e = some d → P d) :
    ∀ e d, (graft f p).2.element? e = some d → P d := by
  induction f generalizing p with
  | nil => exact h
  | text content rest ih => exact ih h
  | element label tag attributes children rest ihc ihr =>
    refine ihr fun e d hd => ?_
    change ((graft children p).2.elements.push _)[e.index]? = some d at hd
    rw [Array.getElem?_push] at hd
    split at hd
    · cases hd
      exact hnew tag attributes _
    · exact ihc h e d hd

theorem setMarkup_of_some {e : ElementId} {d : PageElement κ} (hd : p.element? e = some d)
    (markup : String) :
    p.setMarkup e markup = (graft (Fragment.ofText markup) p).2.modifyElement e
      fun d => { d with children := (graft (Fragment.ofText markup) p).1 } := by
  unfold setMarkup
  rw [hd]

theorem setMarkup_of_none {e : ElementId} (hn : p.element? e = none) (markup : String) :
    p.setMarkup e markup = p := by
  unfold setMarkup
  rw [hn]

theorem setMarkup_eq (p : Page κ σ) (e : ElementId) (markup : String) :
    p.setMarkup e markup = { p with elements := (p.setMarkup e markup).elements } := by
  cases hd : p.element? e with
  | none => rw [setMarkup_of_none hd]
  | some d =>
    rw [setMarkup_of_some hd, (grows_graft (Fragment.ofText markup) p).rest]
    rfl

theorem element?_setMarkup {e : ElementId} {d : PageElement κ} (hd : p.element? e = some d)
    (markup : String) :
    ∃ row, (p.setMarkup e markup).element? e = some { d with children := row } ∧
      Laid (p.setMarkup e markup) (Fragment.ofText markup) row p.elements.size
        (p.setMarkup e markup).elements.size := by
  have hgrow := grows_graft (Fragment.ofText markup) p
  have hlaid := laid_graft (Fragment.ofText markup) p
  have hset := setMarkup_of_some hd markup
  generalize graft (Fragment.ofText markup) p = g at hgrow hlaid hset
  have hlt : e.index < p.elements.size := (Array.getElem?_eq_some_iff.mp hd).1
  have hd' : g.2.element? e = some d := (hgrow.kept e hlt).trans hd
  rw [hset]
  refine ⟨g.1, element?_modifyElement_self hd' _, ?_⟩
  rw [size_modifyElement]
  refine hlaid.frame fun c hc _ => element?_modifyElement_of_ne (fun he => ?_) _
  rw [he] at hlt
  omega

/-- A child after markup was put into an element is new, and comes before the element if that is new
as well, or it was a child of the same element before. -/
theorem child_of_setMarkup (p : Page κ σ) (e : ElementId) (markup : String) {x c : ElementId}
    {d : PageElement κ} (hd : (p.setMarkup e markup).element? x = some d)
    (hc : Child.element c ∈ d.children) :
    p.elements.size ≤ c.index ∧ (x = e ∨ p.elements.size ≤ x.index ∧ c.index < x.index) ∨
      x ≠ e ∧ p.element? x = some d := by
  have hgrow := grows_graft (Fragment.ofText markup) p
  obtain ⟨hrow, hinside⟩ := new_of_graft (Fragment.ofText markup) p
  cases he : p.element? e with
  | none =>
    rw [setMarkup_of_none he] at hd
    refine Or.inr ⟨fun hx => ?_, hd⟩
    rw [← hx, hd] at he
    cases he
  | some d₀ =>
    rw [setMarkup_of_some he, element?_modifyElement] at hd
    by_cases hx : e = x
    · rw [if_pos hx] at hd
      obtain ⟨d', -, rfl⟩ := Option.map_eq_some_iff.mp hd
      exact Or.inl ⟨(hrow c hc).1, Or.inl hx.symm⟩
    · rw [if_neg hx] at hd
      by_cases hold : x.index < p.elements.size
      · exact Or.inr ⟨Ne.symm hx, (hgrow.kept x hold).symm.trans hd⟩
      · obtain ⟨hlo, hhi⟩ := hinside x d (Nat.not_lt.mp hold) hd c hc
        exact Or.inl ⟨hlo, Or.inr ⟨Nat.not_lt.mp hold, hhi⟩⟩

theorem attributes_setMarkup (p : Page κ σ) (e : ElementId) (markup : String) {x : ElementId}
    {d : PageElement κ} (hd : p.element? x = some d) :
    ∃ d', (p.setMarkup e markup).element? x = some d' ∧ d'.attributes = d.attributes := by
  cases he : p.element? e with
  | none =>
    rw [setMarkup_of_none he]
    exact ⟨d, hd, rfl⟩
  | some d₀ =>
    have hlt : x.index < p.elements.size := (Array.getElem?_eq_some_iff.mp hd).1
    have hkept := (grows_graft (Fragment.ofText markup) p).kept x hlt
    rw [setMarkup_of_some he, element?_modifyElement, hkept, hd]
    split
    · exact ⟨_, rfl, rfl⟩
    · exact ⟨d, rfl, rfl⟩

theorem size_setMarkup (p : Page κ σ) (e : ElementId) (markup : String) :
    p.elements.size ≤ (p.setMarkup e markup).elements.size := by
  cases he : p.element? e with
  | none => exact Nat.le_of_eq (congrArg (fun q => q.elements.size) (setMarkup_of_none he markup).symm)
  | some d =>
    rw [setMarkup_of_some he, size_modifyElement]
    exact (grows_graft (Fragment.ofText markup) p).size

theorem laid_setMarkup {e : ElementId} {d : PageElement κ} (hd : p.element? e = some d)
    (markup : String) :
    ∃ row, (p.setMarkup e markup).childElements e = row.filterMap Child.element? ∧
      Laid (p.setMarkup e markup) (Fragment.ofText markup) row p.elements.size
        (p.setMarkup e markup).elements.size := by
  obtain ⟨row, hrow, hlaid⟩ := element?_setMarkup hd markup
  refine ⟨row, ?_, hlaid⟩
  rw [childElements, hrow]

end Page

end Bindery
