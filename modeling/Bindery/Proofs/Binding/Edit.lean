import Bindery.Proofs.Markup.Property

/-!
# What becomes of an edit

The handlers of a form control write its slots back one after the other, and every write shows in all
attributes with the key before the next handler reads.  `Entry.play` is this play of values alone: what
each attribute reads and what is stored.  `survives` follows an edit through it without looking at a
value, only at the order of the slots and the kinds of the attributes.

* `Entry.play`          the values, write by write
* `survives`            the last write to a key comes from an attribute that shows the edit
* `stored_of_survives`  then the edit is stored
* `stored_iff_survives` and else it is not, unless a value happens to be the same
* `survives_of_alone`   no other attribute has the key
-/

namespace Bindery

/-- What the attributes of a control read, and what is stored under each key. -/
structure Entry where
  reads : String → Value
  stored : String → Option Value

section

variable (slots : List (String × String)) (observed : List String)

namespace Entry

def write (slot : String × String) (s : Entry) : Entry where
  reads attr :=
    if slot.2 ∈ observed ∧ (attr, slot.2) ∈ slots then (s.reads slot.1).asProperty attr
    else s.reads attr
  stored key := if key = slot.2 then some (s.reads slot.1) else s.stored key

def play (todo : List (String × String)) (s : Entry) : Entry :=
  todo.foldl (fun s slot => s.write slots observed slot) s

end Entry

/-- Which attributes show the edit of `edited` after a slot was written back.  The text of an edit is
lost in a truth value; the truth of an edit is kept in a text. -/
def showsAfter (edited : String) (slot : String × String) (shows : String → Bool) (attr : String) :
    Bool :=
  if slot.2 ∈ observed ∧ (attr, slot.2) ∈ slots then
    shows slot.1 && (isBooleanProperty edited || !isBooleanProperty attr)
  else shows attr

/-- Whether the last write to `key` is the edit of `edited`; `kept` is the answer so far. -/
def survivesFrom (edited key : String) :
    List (String × String) → (String → Bool) → Bool → Bool
  | [], _, kept => kept
  | slot :: r, shows, kept =>
    survivesFrom edited key r (showsAfter slots observed edited slot shows)
      (if slot.2 = key then shows slot.1 && isBooleanProperty slot.1 == isBooleanProperty edited
      else kept)

/-- The edit of an attribute is what the handlers leave under a key. -/
def survives (edited key : String) : Bool :=
  survivesFrom slots observed edited key slots (· = edited) false

end

/-! ## Values that show an edit -/

def Value.FitsProperty (name : String) (v : Value) : Prop := v.asProperty name = v

theorem Attributes.fitsProperty_property (a : Attributes) (name : String) :
    (a.property name).FitsProperty name := by
  unfold Value.FitsProperty Value.asProperty Attributes.property
  split
  · rfl
  · show Value.text (String.ofList (String.toList _)) = _
    rw [String.ofList_toList]

namespace Value

theorem asProperty_of_text {name : String} (h : isBooleanProperty name = false) (s : String) :
    (text s).asProperty name = text s := by
  unfold asProperty
  rw [if_neg (by simp [h])]
  show text (String.ofList s.toList) = _
  rw [String.ofList_toList]

theorem asProperty_of_boolean {name : String} (h : isBooleanProperty name = true) (v : Value) :
    v.asProperty name = bool v.isTruthy := if_pos h

theorem display_bool (b : Bool) : (bool b).display = if b then "true" else "false" := by
  cases b <;> decide

theorem isTruthy_display_bool (b : Bool) : (text (bool b).display).isTruthy = b := by
  cases b <;> decide

theorem FitsProperty.cases {name : String} {v : Value} (h : v.FitsProperty name) :
    isBooleanProperty name = true ∧ (∃ b, v = bool b) ∨
      isBooleanProperty name = false ∧ ∃ s, v = text s := by
  unfold FitsProperty asProperty at h
  by_cases hb : isBooleanProperty name = true
  · rw [if_pos hb] at h
    exact Or.inl ⟨hb, _, h.symm⟩
  · rw [if_neg hb] at h
    exact Or.inr ⟨by simpa using hb, _, h.symm⟩

theorem fitsProperty_asProperty (name : String) (v : Value) :
    (v.asProperty name).FitsProperty name := by
  unfold FitsProperty
  by_cases hb : isBooleanProperty name = true
  · rw [asProperty_of_boolean hb, asProperty_of_boolean hb]
    rfl
  · have hf : isBooleanProperty name = false := by simpa using hb
    unfold asProperty
    rw [if_neg hb, if_neg hb]
    exact congrArg text (String.ofList_toList)

theorem isTruthy_asProperty {v : Value} {name : String} (h : v.FitsProperty name) (other : String) :
    (v.asProperty other).isTruthy = v.isTruthy := by
  by_cases ho : isBooleanProperty other = true
  · rw [asProperty_of_boolean ho]
    rfl
  · have hf : isBooleanProperty other = false := by simpa using ho
    rcases h.cases with ⟨-, b, rfl⟩ | ⟨-, s, rfl⟩
    · unfold asProperty
      rw [if_neg ho]
      exact isTruthy_display_bool b
    · rw [asProperty_of_text hf]

/-- A value that shows an edit makes the attributes that can show it show it. -/
theorem asProperty_asProperty {edit : Value} {edited : String} (h : edit.FitsProperty edited)
    {attr other : String}
    (ha : isBooleanProperty edited = true ∨ isBooleanProperty attr = false)
    (ho : isBooleanProperty edited = true ∨ isBooleanProperty other = false) :
    (edit.asProperty attr).asProperty other = edit.asProperty other := by
  rcases h.cases with ⟨he, b, rfl⟩ | ⟨he, s, rfl⟩
  · by_cases hb : isBooleanProperty other = true
    · rw [asProperty_of_boolean hb, asProperty_of_boolean hb,
        isTruthy_asProperty h]
    · have hf : isBooleanProperty other = false := by simpa using hb
      by_cases hab : isBooleanProperty attr = true
      · rw [asProperty_of_boolean hab]
        rfl
      · unfold asProperty
        rw [if_neg hab, if_neg hb, if_neg hb]
        exact congrArg text String.ofList_toList
  · rw [he] at ha ho
    rw [asProperty_of_text (ha.resolve_left Bool.false_ne_true), asProperty_of_text]
    exact ho.resolve_left Bool.false_ne_true

/-- What makes a value count as the edit, in an attribute of any kind. -/
def Recalls (edit v : Value) : Prop :=
  match edit with
  | bool b => v.isTruthy = b
  | _ => v = edit

theorem recalls_self {edit : Value} {edited : String} (h : edit.FitsProperty edited) :
    edit.Recalls edit := by
  rcases h.cases with ⟨-, b, rfl⟩ | ⟨-, s, rfl⟩ <;> rfl

/-- A text that is no truth value in writing. -/
def Distinctive (edit : Value) : Prop := edit ≠ text "true" ∧ edit ≠ text "false"

/-- A value that does not count as the edit makes no attribute count as it. -/
theorem not_recalls_asProperty {edit v : Value} {edited attr : String}
    (h : edit.FitsProperty edited) (hd : edit.Distinctive) (hv : v.FitsProperty attr)
    (hn : ¬ edit.Recalls v) (other : String) : ¬ edit.Recalls (v.asProperty other) := by
  rcases h.cases with ⟨-, b, rfl⟩ | ⟨-, s, rfl⟩
  · show ¬ (v.asProperty other).isTruthy = b
    rw [isTruthy_asProperty hv]
    exact hn
  · show ¬ v.asProperty other = text s
    intro he
    have hfit := fitsProperty_asProperty other v
    rw [he] at hfit
    have ho : isBooleanProperty other = false := by
      rcases hfit.cases with ⟨-, b, hb⟩ | ⟨ho, -⟩
      · cases hb
      · exact ho
    rcases hv.cases with ⟨-, b, rfl⟩ | ⟨-, t, rfl⟩
    · unfold asProperty at he
      rw [if_neg (by simp [ho]), display_bool] at he
      cases b with
      | true => exact hd.1 he.symm
      | false => exact hd.2 he.symm
    · rw [asProperty_of_text ho] at he
      exact hn he

end Value

/-! ## Following the edit -/

section

variable {slots : List (String × String)} {observed : List String} {edited : String} {edit : Value}

/-- What is known of a play in which `edit` was given to `edited`, by the attributes marked so far. -/
structure Follows (slots : List (String × String)) (edited : String) (edit : Value) (s : Entry)
    (shows : String → Bool) : Prop where
  fits : ∀ attr, (s.reads attr).FitsProperty attr
  shown : ∀ attr, shows attr = true → s.reads attr = edit.asProperty attr
  kind : ∀ attr, shows attr = true →
    isBooleanProperty edited = true ∨ isBooleanProperty attr = false

theorem Follows.write {s : Entry} {shows : String → Bool} (hedit : edit.FitsProperty edited)
    (h : Follows slots edited edit s shows) (slot : String × String) :
    Follows slots edited edit (s.write slots observed slot)
      (showsAfter slots observed edited slot shows) := by
  refine ⟨fun attr => ?_, fun attr ha => ?_, fun attr ha => ?_⟩
  · show (if _ then _ else _ : Value).FitsProperty attr
    split
    · exact Value.fitsProperty_asProperty attr _
    · exact h.fits attr
  · show (if _ then _ else _ : Value) = _
    unfold showsAfter at ha
    split at ha
    · rename_i hc
      rw [if_pos hc]
      rw [Bool.and_eq_true, Bool.or_eq_true, Bool.not_eq_true'] at ha
      rw [h.shown slot.1 ha.1]
      exact Value.asProperty_asProperty hedit (h.kind slot.1 ha.1) ha.2
    · rename_i hc
      rw [if_neg hc]
      exact h.shown attr ha
  · unfold showsAfter at ha
    split at ha
    · rw [Bool.and_eq_true, Bool.or_eq_true, Bool.not_eq_true'] at ha
      exact ha.2
    · exact h.kind attr ha

theorem Follows.reads_eq {s : Entry} {shows : String → Bool} (hedit : edit.FitsProperty edited)
    (h : Follows slots edited edit s shows) {attr : String}
    (ha : (shows attr && isBooleanProperty attr == isBooleanProperty edited) = true) :
    s.reads attr = edit := by
  rw [Bool.and_eq_true, beq_iff_eq] at ha
  rw [h.shown attr ha.1]
  unfold Value.asProperty
  rw [ha.2]
  exact hedit

theorem stored_of_survivesFrom (hedit : edit.FitsProperty edited) {key : String}
    {todo : List (String × String)} {s : Entry} {shows : String → Bool} {kept : Bool}
    (h : Follows slots edited edit s shows) (hk : kept = true → s.stored key = some edit)
    (hs : survivesFrom slots observed edited key todo shows kept = true) :
    (s.play slots observed todo).stored key = some edit := by
  induction todo generalizing s shows kept with
  | nil => exact hk hs
  | cons slot r ih =>
    refine ih (h.write hedit slot) (fun hkept => ?_) hs
    show (if key = slot.2 then some (s.reads slot.1) else s.stored key) = some edit
    by_cases he : slot.2 = key
    · rw [if_pos he] at hkept
      rw [if_pos he.symm, h.reads_eq hedit hkept]
    · rw [if_neg he] at hkept
      rw [if_neg (Ne.symm he)]
      exact hk hkept

theorem stored_of_survives {s : Entry} {key : String}
    (hfits : ∀ attr, (s.reads attr).FitsProperty attr)
    (hs : survives slots observed edited key = true) :
    (s.play slots observed slots).stored key = some (s.reads edited) := by
  have hedit := hfits edited
  refine stored_of_survivesFrom hedit ⟨hfits, fun attr ha => ?_, fun attr ha => ?_⟩
    (fun h => absurd h Bool.false_ne_true) hs
  · rw [of_decide_eq_true ha]
    exact hedit.symm
  · rw [of_decide_eq_true ha]
    cases isBooleanProperty edited
    · exact Or.inr rfl
    · exact Or.inl rfl

/-! ## Losing the edit -/

/-- Attributes that are not marked do not count as the edit. -/
def Apart (slots : List (String × String)) (edit : Value) (s : Entry) (shows : String → Bool) : Prop :=
  ∀ slot ∈ slots, shows slot.1 = false → ¬ edit.Recalls (s.reads slot.1)

theorem Apart.write {s : Entry} {shows : String → Bool} (hedit : edit.FitsProperty edited)
    (hd : edit.Distinctive) (h : Follows slots edited edit s shows) (ha : Apart slots edit s shows)
    {slot : String × String} (hm : slot ∈ slots) :
    Apart slots edit (s.write slots observed slot) (showsAfter slots observed edited slot shows) := by
  intro x hx hn
  show ¬ edit.Recalls (if _ then _ else _)
  unfold showsAfter at hn
  split at hn
  · rename_i hc
    rw [if_pos hc]
    cases hs : shows slot.1 with
    | false =>
      exact Value.not_recalls_asProperty hedit hd (h.fits slot.1) (ha slot hm hs) x.1
    | true =>
      -- the attribute cannot show the edit: a text edit in a truth value
      rw [hs, Bool.true_and, Bool.or_eq_false_iff, Bool.not_eq_false'] at hn
      rcases hedit.cases with ⟨he, -⟩ | ⟨-, t, rfl⟩
      · rw [hn.1] at he
        cases he
      · rw [Value.asProperty_of_boolean hn.2]
        exact nofun
  · rename_i hc
    rw [if_neg hc]
    exact ha x hx hn

theorem survivesFrom_of_stored (hedit : edit.FitsProperty edited) (hd : edit.Distinctive)
    {key : String} {todo : List (String × String)} {s : Entry} {shows : String → Bool} {kept : Bool}
    (hsub : ∀ slot ∈ todo, slot ∈ slots) (h : Follows slots edited edit s shows)
    (ha : Apart slots edit s shows)
    (hk : kept = false → (∃ slot ∈ todo, slot.2 = key) ∨ s.stored key ≠ some edit)
    (hs : (s.play slots observed todo).stored key = some edit) :
    survivesFrom slots observed edited key todo shows kept = true := by
  induction todo generalizing s shows kept with
  | nil =>
    cases kept with
    | true => rfl
    | false =>
      rcases hk rfl with ⟨slot, hm, -⟩ | hne
      · cases hm
      · exact absurd hs hne
  | cons slot r ih =>
    have hm := hsub slot List.mem_cons_self
    refine ih (fun x hx => hsub x (List.mem_cons_of_mem _ hx)) (h.write hedit slot)
      (ha.write hedit hd h hm) (fun hkept => ?_) hs
    by_cases hr : ∃ x ∈ r, x.2 = key
    · exact Or.inl hr
    · right
      show (if key = slot.2 then some (s.reads slot.1) else s.stored key) ≠ some edit
      by_cases he : slot.2 = key
      · rw [if_pos he] at hkept
        rw [if_pos he.symm]
        intro hread
        rw [Option.some.injEq] at hread
        cases hshow : shows slot.1 with
        | false =>
          refine ha slot hm hshow ?_
          rw [hread]
          exact Value.recalls_self hedit
        | true =>
          rw [hshow, Bool.true_and, beq_eq_false_iff_ne] at hkept
          have hfit := h.fits slot.1
          rw [hread] at hfit
          rcases hedit.cases with ⟨he₁, b, hb⟩ | ⟨he₁, t, ht⟩ <;>
            rcases hfit.cases with ⟨he₂, c, hc⟩ | ⟨he₂, u, hu⟩
          · exact hkept (he₂.trans he₁.symm)
          · rw [hb] at hu
            cases hu
          · rw [ht] at hc
            cases hc
          · exact hkept (he₂.trans he₁.symm)
      · rw [if_neg he] at hkept
        rw [if_neg (Ne.symm he)]
        rcases hk hkept with ⟨x, hx, hxk⟩ | hne
        · rcases List.mem_cons.mp hx with rfl | hx
          · exact absurd hxk he
          · exact absurd ⟨x, hx, hxk⟩ hr
        · exact hne

/-- Unless another attribute happens to read the same, the edit is stored exactly if it survives. -/
theorem stored_iff_survives {s : Entry} {key : String}
    (hfits : ∀ attr, (s.reads attr).FitsProperty attr) (hslot : (edited, key) ∈ slots)
    (hd : (s.reads edited).Distinctive)
    (ha : ∀ slot ∈ slots, slot.1 ≠ edited → ¬ (s.reads edited).Recalls (s.reads slot.1)) :
    (s.play slots observed slots).stored key = some (s.reads edited) ↔
      survives slots observed edited key = true := by
  constructor
  · intro hs
    have hedit := hfits edited
    refine survivesFrom_of_stored hedit hd (fun _ h => h) ⟨hfits, fun attr ha => ?_, fun attr ha => ?_⟩
      (fun slot hm hn => ha slot hm (of_decide_eq_false hn))
      (fun _ => Or.inl ⟨_, hslot, rfl⟩) hs
    · rw [of_decide_eq_true ha]
      exact hedit.symm
    · rw [of_decide_eq_true ha]
      cases isBooleanProperty edited
      · exact Or.inr rfl
      · exact Or.inl rfl
  · exact stored_of_survives hfits

/-! ## A key with one attribute -/

theorem survivesFrom_of_alone {key : String} {todo : List (String × String)} {shows : String → Bool}
    {kept : Bool} (hshow : shows edited = true)
    (hkey : ∀ slot ∈ slots, slot.2 = key → slot.1 = edited)
    (hedited : ∀ slot ∈ slots, slot.1 = edited → slot.2 = key)
    (hsub : ∀ slot ∈ todo, slot ∈ slots)
    (hk : kept = true ∨ ∃ slot ∈ todo, slot.2 = key) :
    survivesFrom slots observed edited key todo shows kept = true := by
  induction todo generalizing shows kept with
  | nil =>
    rcases hk with hk | ⟨slot, hm, -⟩
    · exact hk
    · cases hm
  | cons slot r ih =>
    have hm := hsub slot List.mem_cons_self
    refine ih ?_ (fun x hx => hsub x (List.mem_cons_of_mem _ hx)) ?_
    · unfold showsAfter
      split
      · rename_i hc
        have hs : slot.1 = edited := hkey slot hm (hedited (edited, slot.2) hc.2 rfl)
        rw [hs, hshow]
        cases isBooleanProperty edited <;> rfl
      · exact hshow
    · by_cases he : slot.2 = key
      · left
        rw [if_pos he, hkey slot hm he, hshow]
        cases isBooleanProperty edited <;> rfl
      · rw [if_neg he]
        refine hk.imp_right ?_
        rintro ⟨x, hx, hxk⟩
        rcases List.mem_cons.mp hx with rfl | hx
        · exact absurd hxk he
        · exact ⟨x, hx, hxk⟩

/-- An edit survives if its attribute has one key and no other attribute has this key. -/
theorem survives_of_alone {key : String} (hslot : (edited, key) ∈ slots)
    (hkey : ∀ slot ∈ slots, slot.2 = key → slot.1 = edited)
    (hedited : ∀ slot ∈ slots, slot.1 = edited → slot.2 = key) :
    survives slots observed edited key = true :=
  survivesFrom_of_alone (decide_eq_true rfl) hkey hedited (fun _ h => h)
    (Or.inr ⟨_, hslot, rfl⟩)

end

example : survives [("title", "k"), ("value", "k")] ["k"] "value" "k" = false := by decide

example : survives [("value", "k"), ("title", "k")] ["k"] "value" "k" = true := by decide

end Bindery
