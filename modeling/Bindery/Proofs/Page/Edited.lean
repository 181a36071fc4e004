import Bindery.Proofs.Markup.Edits
import Bindery.Proofs.Markup.Scanned
import Bindery.Proofs.Page.RoundTrip

/-!
# The attributes of an element in the course of time

An element is made by hand, without attributes, or from markup.  Then its attributes are written, one
by one or as properties, while other things happen to the page.  At any time they are an ordered map that
follows the writes to the element.

* `Page.edit`                   a write to the attributes of an element of the page
* `Page.Since`                  what was written to an element since it was made
* `attributes_follow_history`   its attributes after that
-/

namespace Bindery

open Attributes (Edit)

namespace Page

variable {κ σ : Type} {p q : Page κ σ} {e : ElementId}

def edit (e : ElementId) : Edit → Page κ σ → Page κ σ
  | .set name value => setAttribute e name value
  | .erase name => removeAttribute e name
  | .setProperty name value => setProperty e name value

/-- The page at some time after an element was made with some attributes, and the writes to the element
since then.  Anything may happen in between that leaves its attributes alone. -/
inductive Since (e : ElementId) : Page κ σ → Attributes → List Edit → Prop where
  | created (q : Page κ σ) (tag : String) :
      (q.createElement tag).1 = e → Since e (q.createElement tag).2 .empty []
  | parsed (q : Page κ σ) (c : ElementId) (markup : String) {d : PageElement κ} :
      q.elements.size ≤ e.index → (q.setMarkup c markup).element? e = some d →
      Since e (q.setMarkup c markup) d.attributes []
  | written {p : Page κ σ} {start : Attributes} {edits : List Edit} (x : Edit) :
      Since e p start edits → Since e (p.edit e x) start (edits ++ [x])
  | other {p q : Page κ σ} {start : Attributes} {edits : List Edit} :
      Since e p start edits →
      (q.element? e).map PageElement.attributes = (p.element? e).map PageElement.attributes →
      Since e q start edits

theorem edit_eq (e : ElementId) (x : Edit) (p : Page κ σ) :
    p.edit e x = p.modifyElement e fun d => { d with attributes := x.run d.attributes } := by
  cases x <;> rfl

theorem element?_edit_self {d : PageElement κ} (hd : p.element? e = some d) (x : Edit) :
    (p.edit e x).element? e = some { d with attributes := x.run d.attributes } := by
  rw [edit_eq]
  exact element?_modifyElement_self hd _

theorem element?_edit_of_ne {c : ElementId} (h : c ≠ e) (x : Edit) :
    (p.edit c x).element? e = p.element? e := by
  rw [edit_eq]
  exact element?_modifyElement_of_ne h _

/-! ## Elements made from markup -/

/-- If the elements from one identity on have each name once, then so do they with those that a fragment
makes. -/
theorem sound_of_graft {f : Fragment Unit} (hf : f.Scanned) {lo : Nat} {p : Page κ σ}
    (h : ∀ e d, lo ≤ e.index → p.element? e = some d → d.attributes.Sound) :
    ∀ e d, lo ≤ e.index → (graft f p).2.element? e = some d → d.attributes.Sound := by
  induction f generalizing p with
  | nil => exact h
  | text content rest ih => exact ih hf.2 h
  | element label tag attributes children rest ihc ihr =>
    obtain ⟨htag, hchildren, hrest⟩ := hf
    refine ihr hrest fun e d hlo hd => ?_
    change ((graft children p).2.elements.push _)[e.index]? = some d at hd
    rw [Array.getElem?_push] at hd
    split at hd
    · cases hd
      exact htag.sound
    · exact ihc hchildren h e d hlo hd

theorem sound_of_setMarkup {c : ElementId} {markup : String} (he : p.elements.size ≤ e.index)
    {d : PageElement κ} (hd : (p.setMarkup c markup).element? e = some d) : d.attributes.Sound := by
  have hold : ∀ x d, p.elements.size ≤ x.index → p.element? x = some d → d.attributes.Sound :=
    fun x d hlo hd => absurd (Array.getElem?_eq_some_iff.mp hd).1 (Nat.not_lt.mpr hlo)
  have hnew := sound_of_graft (Fragment.scanned_ofText markup) hold
  cases hc : p.element? c with
  | none =>
    rw [setMarkup_of_none hc] at hd
    exact hold e d he hd
  | some d₀ =>
    rw [setMarkup_of_some hc, element?_modifyElement] at hd
    split at hd
    · obtain ⟨d', hd', rfl⟩ := Option.map_eq_some_iff.mp hd
      exact hnew e d' he hd'
    · exact hnew e d he hd

/-! ## The whole history -/

theorem Since.attributes_eq {start : Attributes} {edits : List Edit} (h : p.Since e start edits) :
    start.Sound ∧ ∃ d, p.element? e = some d ∧ d.attributes = Edit.runAll edits start := by
  -- along the history: only a write to the element itself changes its attributes
  induction h with
  | created q tag he =>
    subst he
    refine ⟨⟨List.nodup_nil, fun n hn => absurd hn List.not_mem_nil⟩, { tag := Text.lower tag }, ?_, rfl⟩
    exact Array.getElem?_push_size
  | parsed q c markup he hd => exact ⟨sound_of_setMarkup he hd, _, hd, rfl⟩
  | written x _ ih =>
    obtain ⟨hsound, d, hd, ha⟩ := ih
    refine ⟨hsound, _, element?_edit_self hd x, ?_⟩
    show x.run d.attributes = Edit.runAll (_ ++ [x]) _
    rw [ha, Edit.runAll, Edit.runAll, List.foldl_append]
    rfl
  | other _ hsame ih =>
    obtain ⟨hsound, d, hd, ha⟩ := ih
    rw [hd] at hsame
    obtain ⟨d', hd', hattributes⟩ := Option.map_eq_some_iff.mp hsame
    exact ⟨hsound, d', hd', hattributes.trans ha⟩

/-- At any time the attributes of an element have each name once and in lower case.  A name in any letter
case shows what the last write to it left, and if that was written as a property, the property is the
value turned into its kind.  The next write moves no name but its own, and the elements beside it do not
notice. -/
theorem attributes_follow_history {start : Attributes} {edits : List Edit}
    (h : p.Since e start edits) :
    ∃ d, p.element? e = some d ∧
      (d.attributes.names.Nodup ∧ ∀ n ∈ d.attributes.names, Text.lower n = n) ∧
      d.attributes.entries = d.attributes.names.map (fun n => (n, (d.attributes.get? n).getD "")) ∧
      (∀ name, d.attributes.get? name = match Edit.last? name edits with
        | some x => x.leaves
        | none => start.get? name) ∧
      (∀ name written value, Edit.last? name edits = some (.setProperty written value) →
        p.property e name = value.asProperty name) ∧
      ∀ x : Edit,
        (∃ b, (p.edit e x).element? e = some { d with attributes := b } ∧ x.Moves d.attributes b) ∧
        ∀ c, c ≠ e → (p.edit c x).element? e = some d := by
  obtain ⟨hsound, d, hd, ha⟩ := h.attributes_eq
  have hnow : d.attributes.Sound := ha ▸ Edit.sound_runAll hsound edits
  refine ⟨d, hd, ⟨hnow.nodup, hnow.lower⟩, hnow.entries_eq, fun name => ?_, fun name written value hl => ?_,
    fun x => ⟨⟨_, element?_edit_self hd x, Edit.moves_run x d.attributes⟩, fun c hc => ?_⟩⟩
  · have hget := Edit.get?_runAll edits start name
    rw [← ha] at hget
    cases hl : Edit.last? name edits with
    | none =>
      rw [hl] at hget
      exact hget
    | some x =>
      rw [hl] at hget
      exact hget
  · unfold property
    rw [hd]
    exact (congrArg (Attributes.property · name) ha).trans (Edit.property_runAll hl start)
  · rw [element?_edit_of_ne hc, hd]

/-- A paragraph made from markup, written with names in all letter cases, and taken out of its place in
between. -/
def editedPage : Page Unit Unit :=
  let marked := (emptyPage.setMarkup ⟨0⟩ "<p Title=a ID=b>").edit ⟨1⟩ (.setProperty "CHECKED" (.bool true))
  let moved := (marked.edit ⟨1⟩ (.set "tITLE" "c")).setText ⟨0⟩ "e"
  ((moved.edit ⟨1⟩ (.erase "Id")).edit ⟨1⟩ (.setProperty "Checked" (.text "false"))).edit ⟨1⟩ (.set "iD" "d")

theorem paragraph_follows_history :
    editedPage.Since ⟨1⟩ ⟨[("title", "a"), ("id", "b")]⟩
      [.setProperty "CHECKED" (.bool true), .set "tITLE" "c", .erase "Id",
        .setProperty "Checked" (.text "false"), .set "iD" "d"] ∧
    ∃ d, editedPage.element? ⟨1⟩ = some d ∧ d.attributes = ⟨[("title", "c"), ("id", "d")]⟩ ∧
      d.attributes.get? "TITLE" = some "c" ∧ editedPage.property ⟨1⟩ "cHECKED" = .bool false := by
  have hmade : ((emptyPage.setMarkup ⟨0⟩ "<p Title=a ID=b>").element? ⟨1⟩).map PageElement.attributes
      = some ⟨[("title", "a"), ("id", "b")]⟩ := by decide +kernel
  obtain ⟨made, hmade, ha⟩ := Option.map_eq_some_iff.mp hmade
  have h : editedPage.Since ⟨1⟩ made.attributes _ :=
    .written (.set "iD" "d") <| .written (.setProperty "Checked" (.text "false")) <|
      .written (.erase "Id") <| .other (.written (.set "tITLE" "c") <|
        .written (.setProperty "CHECKED" (.bool true)) <|
          .parsed emptyPage ⟨0⟩ "<p Title=a ID=b>" (Nat.le_refl 1) hmade) <|
            congrArg (Option.map _) (element?_modifyElement_of_ne (by decide) _)
  rw [ha] at h
  obtain ⟨d, hd, -, -, hshown, hproperty, -⟩ := attributes_follow_history h
  refine ⟨h, d, hd, ?_, hshown "TITLE", hproperty "cHECKED" "Checked" (.text "false") rfl⟩
  have hall : (editedPage.element? ⟨1⟩).map PageElement.attributes
      = some ⟨[("title", "c"), ("id", "d")]⟩ := by decide +kernel
  rw [hd] at hall
  exact Option.some.inj hall

end Page

end Bindery
