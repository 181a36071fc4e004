import Bindery.Template.Render

/-!
# Filling all slots at once

A template is filled one name after the other, each time the first slot left with that name.  For a
tidy template and values without `$` the order does not matter: the outcome is the template with every
slot whose name has a value filled, and the others left as they are.

* `Template.Tidy`, `Value.Plain`   every `$` begins a slot; no `$` in the display text
* `Template.fill`                  all slots filled at once
* `fillEach_eq_fill`               name by name, if each name comes often enough
* `render_eq_fill`                 the same for the text of a change
-/

namespace Bindery

/-- The display text has no `$`. -/
def Value.Plain (v : Value) : Prop := '$' ∉ v.displayChars

instance (v : Value) : Decidable v.Plain := inferInstanceAs (Decidable (¬ _))

namespace Template

/-- Every `$` begins a slot. -/
def Tidy (template : String) : Prop := Piece.char '$' ∉ pieces template.toList

instance (template : String) : Decidable (Tidy template) := inferInstanceAs (Decidable (¬ _))

/-- Every slot whose name has a value filled. -/
def fillPieces (lookup : String → Option Value) (ps : List Piece) : List Char :=
  ps.flatMap fun
    | .char c => [c]
    | .slot name =>
      match lookup (String.ofList name) with
      | some v => v.displayChars
      | none => slotChars name

/-- The template with every slot whose name has a value filled. -/
def fill (lookup : String → Option Value) (template : String) : String :=
  String.ofList (fillPieces lookup (pieces template.toList))

/-! ## Names in slots -/

/-- Pieces as they come out of a tidy template. -/
def Proper (ps : List Piece) : Prop :=
  ∀ p ∈ ps, match p with
    | .char c => c ≠ '$'
    | .slot name => ∀ c ∈ name, isNameChar c = true

theorem isNameChar_of_slotAt? {s name after : List Char} (h : slotAt? s = some (name, after)) :
    ∀ c ∈ name, isNameChar c = true := by
  unfold slotAt? at h
  split at h
  · rename_i r
    split at h
    · rename_i c n a ht hd
      cases h
      rw [← ht]
      exact fun d hd => List.all_eq_true.mp List.all_takeWhile d hd
    · cases h
  · cases h

theorem isNameChar_of_slot_mem {s name : List Char} (h : Piece.slot name ∈ pieces s) :
    ∀ c ∈ name, isNameChar c = true := by
  fun_induction pieces s with
  | case1 => cases h
  | case2 c r n after hs ih =>
    rcases List.mem_cons.mp h with h | h
    · cases h
      exact isNameChar_of_slotAt? hs
    · exact ih h
  | case3 c r hs ih =>
    rcases List.mem_cons.mp h with h | h
    · cases h
    · exact ih h

theorem Tidy.proper {template : String} (h : Tidy template) : Proper (pieces template.toList) := by
  intro p hp
  cases p with
  | char c =>
    rintro rfl
    exact h hp
  | slot name => exact isNameChar_of_slot_mem hp

theorem not_isNameChar {c : Char} (h : c = '$' ∨ c = '\x7b' ∨ c = '\x7d') : isNameChar c = false := by
  rcases h with rfl | rfl | rfl <;> decide

/-- A slot that stands in front of a text begins with no other slot. -/
theorem eq_of_slotChars_prefix {name other rest : List Char}
    (hn : ∀ c ∈ name, isNameChar c = true) (ho : ∀ c ∈ other, isNameChar c = true)
    (h : slotChars name <+: slotChars other ++ rest) : name = other := by
  have h' : name ++ ['\x7d'] <+: other ++ ('\x7d' :: rest) := by
    unfold slotChars at h
    simpa [List.cons_prefix_cons] using h
  clear h
  induction name generalizing other with
  | nil =>
    cases other with
    | nil => rfl
    | cons d s =>
      rw [List.nil_append, List.cons_append, List.cons_prefix_cons] at h'
      have := ho d List.mem_cons_self
      rw [← h'.1, not_isNameChar (Or.inr (Or.inr rfl))] at this
      cases this
  | cons c r ih =>
    cases other with
    | nil =>
      rw [List.nil_append, List.cons_append, List.cons_prefix_cons] at h'
      have := hn c List.mem_cons_self
      rw [h'.1, not_isNameChar (Or.inr (Or.inr rfl))] at this
      cases this
    | cons d s =>
      rw [List.cons_append, List.cons_append, List.cons_prefix_cons] at h'
      rw [h'.1, ih (fun x hx => hn x (List.mem_cons_of_mem _ hx))
        (fun x hx => ho x (List.mem_cons_of_mem _ hx)) h'.2]

/-! ## One slot -/

def fillOne (name : String) (value : List Char) : List Piece → List Piece
  | [] => []
  | .char c :: r => .char c :: fillOne name value r
  | .slot n :: r =>
    if String.ofList n = name then value.map .char ++ r else .slot n :: fillOne name value r

def slotNames (ps : List Piece) : List String := ps.filterMap Piece.name?

variable {ps : List Piece} {name : String} {value : List Char} {lookup : String → Option Value}

theorem source_map_char (s : List Char) : (s.map Piece.char).flatMap Piece.source = s := by
  induction s with
  | nil => rfl
  | cons c r ih =>
    rw [List.map_cons, List.flatMap_cons, ih]
    rfl

theorem slotNames_map_char (s : List Char) : slotNames (s.map Piece.char) = [] := by
  rw [slotNames, List.filterMap_eq_nil_iff]
  intro p hp
  obtain ⟨c, -, rfl⟩ := List.mem_map.mp hp
  rfl

theorem slotNames_fillOne : slotNames (fillOne name value ps) = (slotNames ps).erase name := by
  induction ps with
  | nil => rfl
  | cons p r ih =>
    cases p with
    | char c => exact ih
    | slot n =>
      show slotNames (if String.ofList n = name then _ else _) = (String.ofList n :: slotNames r).erase name
      by_cases h : String.ofList n = name
      · rw [if_pos h, h, List.erase_cons_head, slotNames, List.filterMap_append]
        show slotNames (value.map Piece.char) ++ slotNames r = _
        rw [slotNames_map_char, List.nil_append]
      · rw [if_neg h, List.erase_cons_tail (by simpa using h), ← ih]
        rfl

theorem Proper.fillOne (h : Proper ps) (hv : '$' ∉ value) : Proper (fillOne name value ps) := by
  induction ps with
  | nil => exact h
  | cons p r ih =>
    have hr := ih fun q hq => h q (List.mem_cons_of_mem _ hq)
    have hp := h p List.mem_cons_self
    cases p with
    | char c =>
      intro q hq
      rcases List.mem_cons.mp hq with rfl | hq
      · exact hp
      · exact hr q hq
    | slot n =>
      unfold Template.fillOne
      split
      · intro q hq
        rcases List.mem_append.mp hq with hq | hq
        · obtain ⟨c, hc, rfl⟩ := List.mem_map.mp hq
          rintro rfl
          exact hv hc
        · exact h q (List.mem_cons_of_mem _ hq)
      · intro q hq
        rcases List.mem_cons.mp hq with rfl | hq
        · exact hp
        · exact hr q hq

theorem fillFirstChars_source (h : Proper ps) (hname : ∀ c ∈ name.toList, isNameChar c = true) :
    fillFirstChars (ps.flatMap Piece.source) name.toList value
      = (fillOne name value ps).flatMap Piece.source := by
  induction ps with
  | nil => simp [fillFirstChars, Text.replaceFirst, slotChars, Template.fillOne]
  | cons p r ih =>
    have hr := ih fun q hq => h q (List.mem_cons_of_mem _ hq)
    have hp := h p List.mem_cons_self
    rw [List.flatMap_cons]
    cases p with
    | char c =>
      show fillFirstChars ([c] ++ _) _ _ = c :: (Template.fillOne name value r).flatMap Piece.source
      rw [fillFirstChars_append (by simpa using hp), hr]
      rfl
    | slot n =>
      show fillFirstChars (slotChars n ++ _) _ _
        = (if String.ofList n = name then _ else _ : List Piece).flatMap _
      by_cases hn : String.ofList n = name
      · rw [if_pos hn, ← hn, String.toList_ofList, List.flatMap_append, source_map_char]
        show Text.replaceFirst (slotChars n) value ('$' :: _) = _
        rw [Text.replaceFirst, if_pos]
        · show value ++ (slotChars n ++ r.flatMap Piece.source).drop _ = _
          rw [List.drop_left]
        · rw [List.isPrefixOf_iff_prefix]
          exact List.prefix_append (slotChars n) _
      · rw [if_neg hn, List.flatMap_cons, ← hr]
        show Text.replaceFirst (slotChars name.toList) value ('$' :: _) = slotChars n ++ _
        rw [Text.replaceFirst, if_neg]
        · have hc : ∀ c ∈ '\x7b' :: n ++ ['\x7d'], c ≠ '$' := by
            intro c hc he
            subst he
            have hd : isNameChar '$' = false := not_isNameChar (Or.inl rfl)
            simp only [List.cons_append, List.mem_cons, List.mem_append, List.not_mem_nil, or_false] at hc
            rcases hc with hc | hc | hc
            · exact absurd hc (by decide)
            · rw [hp _ hc] at hd
              cases hd
            · exact absurd hc (by decide)
          have hf := fillFirstChars_append hc (r.flatMap Piece.source) name.toList value
          exact congrArg ('$' :: ·) hf
        · rw [List.isPrefixOf_iff_prefix]
          intro hpre
          refine hn ?_
          rw [← eq_of_slotChars_prefix hname hp hpre, String.ofList_toList]

/-! ## All slots -/

theorem fillPieces_cons_of_some {n : List Char} {v : Value} (h : lookup (String.ofList n) = some v)
    (r : List Piece) : fillPieces lookup (.slot n :: r) = v.displayChars ++ fillPieces lookup r := by
  show (match lookup (String.ofList n) with
    | some v => v.displayChars
    | none => slotChars n) ++ _ = _
  rw [h]
  rfl

theorem fillPieces_cons_of_none {n : List Char} (h : lookup (String.ofList n) = none)
    (r : List Piece) : fillPieces lookup (.slot n :: r) = slotChars n ++ fillPieces lookup r := by
  show (match lookup (String.ofList n) with
    | some v => v.displayChars
    | none => slotChars n) ++ _ = _
  rw [h]
  rfl

theorem fillPieces_map_char (s : List Char) : fillPieces lookup (s.map Piece.char) = s := by
  induction s with
  | nil => rfl
  | cons c r ih => exact congrArg (c :: ·) ih

/-- A slot filled early is filled the same. -/
theorem fillPieces_fillOne {v : Value} (h : lookup name = some v) :
    fillPieces lookup (fillOne name v.displayChars ps) = fillPieces lookup ps := by
  induction ps with
  | nil => rfl
  | cons p r ih =>
    cases p with
    | char c => exact congrArg (c :: ·) ih
    | slot n =>
      unfold fillOne
      by_cases hn : String.ofList n = name
      · rw [if_pos hn]
        show (v.displayChars.map Piece.char ++ r).flatMap _ = _
        rw [List.flatMap_append]
        show fillPieces lookup (v.displayChars.map Piece.char) ++ fillPieces lookup r = _
        rw [fillPieces_map_char, fillPieces_cons_of_some (hn ▸ h)]
      · rw [if_neg hn, fillPieces, fillPieces, List.flatMap_cons, List.flatMap_cons]
        exact congrArg _ ih

theorem fillPieces_congr {other : String → Option Value}
    (h : ∀ n ∈ slotNames ps, lookup n = other n) : fillPieces lookup ps = fillPieces other ps := by
  induction ps with
  | nil => rfl
  | cons p r ih =>
    cases p with
    | char c => exact congrArg (c :: ·) (ih h)
    | slot n =>
      have h' : ∀ m ∈ String.ofList n :: slotNames r, lookup m = other m := h
      have hr := ih fun m hm => h' m (List.mem_cons_of_mem _ hm)
      have hn := h' _ List.mem_cons_self
      cases ho : other (String.ofList n) with
      | some v => rw [fillPieces_cons_of_some (hn.trans ho), fillPieces_cons_of_some ho, hr]
      | none => rw [fillPieces_cons_of_none (hn.trans ho), fillPieces_cons_of_none ho, hr]

theorem fill_congr {other : String → Option Value} {template : String}
    (h : ∀ n ∈ names template, lookup n = other n) : fill lookup template = fill other template :=
  congrArg String.ofList (fillPieces_congr h)

theorem fillPieces_of_none (h : ∀ n ∈ slotNames ps, lookup n = none) :
    fillPieces lookup ps = ps.flatMap Piece.source := by
  induction ps with
  | nil => rfl
  | cons p r ih =>
    cases p with
    | char c => exact congrArg (c :: ·) (ih h)
    | slot n =>
      have h' : ∀ m ∈ String.ofList n :: slotNames r, lookup m = none := h
      rw [fillPieces_cons_of_none (h' _ List.mem_cons_self)]
      exact congrArg (slotChars n ++ ·) (ih fun m hm => h' m (List.mem_cons_of_mem _ hm))

/-- Name by name or all at once: enough that each name with a value comes as often as its slots. -/
theorem fillEach_source (h : Proper ps) {names : List String}
    (hplain : ∀ n ∈ names, ∀ v, lookup n = some v → v.Plain)
    (hnames : ∀ n ∈ names, ∀ c ∈ n.toList, isNameChar c = true)
    (hcount : ∀ n, (lookup n).isSome → (slotNames ps).count n ≤ names.count n) :
    fillEach lookup names (ps.flatMap Piece.source) = fillPieces lookup ps := by
  induction names generalizing ps with
  | nil =>
    refine (fillPieces_of_none fun n hn => ?_).symm
    rw [← Option.not_isSome_iff_eq_none]
    intro hs
    have := hcount n hs
    rw [List.count_nil, Nat.le_zero, List.count_eq_zero] at this
    exact this hn
  | cons name r ih =>
    have hr : ∀ n ∈ r, ∀ c ∈ n.toList, isNameChar c = true := fun n hn =>
      hnames n (List.mem_cons_of_mem _ hn)
    have hpr : ∀ n ∈ r, ∀ v, lookup n = some v → v.Plain := fun n hn =>
      hplain n (List.mem_cons_of_mem _ hn)
    cases hv : lookup name with
    | none =>
      rw [fillEach_cons_of_none hv]
      refine ih h hpr hr fun n hn => ?_
      have hne : name ≠ n := by
        rintro rfl
        rw [hv] at hn
        cases hn
      have := hcount n hn
      rwa [List.count_cons_of_ne hne] at this
    | some v =>
      rw [fillEach_cons_of_some hv, fillFirstChars_source h (hnames name List.mem_cons_self),
        ih (h.fillOne (hplain _ List.mem_cons_self _ hv)) hpr hr, fillPieces_fillOne hv]
      intro n hn
      have := hcount n hn
      rw [slotNames_fillOne, List.count_erase]
      by_cases hne : name = n
      · subst hne
        rw [List.count_cons_self] at this
        simp only [beq_self_eq_true, if_true]
        omega
      · rw [List.count_cons_of_ne hne] at this
        rw [if_neg (by simpa using hne)]
        omega

theorem fill_of_none {template : String} (h : ∀ n ∈ names template, lookup n = none) :
    fill lookup template = template := by
  unfold fill
  rw [fillPieces_of_none h, source_pieces, String.ofList_toList]

theorem names_empty : names "" = [] := by
  unfold names
  rw [String.toList_empty, pieces]
  rfl

theorem isNameChar_of_mem_names {template n : String} (h : n ∈ names template) :
    ∀ c ∈ n.toList, isNameChar c = true := by
  obtain ⟨p, hp, hn⟩ := List.mem_filterMap.mp h
  cases p with
  | char c => cases hn
  | slot m =>
    cases hn
    rw [String.toList_ofList]
    exact isNameChar_of_slot_mem hp

/-- Filling a tidy template name by name fills all its slots, if the names cover it. -/
theorem fillEach_eq_fill {template : String} (h : Tidy template)
    (hplain : ∀ n ∈ names template, ∀ v, lookup n = some v → v.Plain) {l : List String}
    (hsub : ∀ n ∈ l, n ∈ names template)
    (hcount : ∀ n, (lookup n).isSome → (names template).count n ≤ l.count n) :
    String.ofList (fillEach lookup l template.toList) = fill lookup template := by
  have hs := fillEach_source h.proper (fun n hn => hplain n (hsub n hn))
    (fun n hn => isNameChar_of_mem_names (hsub n hn)) hcount
  rw [source_pieces] at hs
  exact congrArg String.ofList hs

theorem fillEach_append_singleton {name : String} {v : Value} (h : lookup name = some v)
    (l : List String) (text : List Char) :
    fillEach lookup (l ++ [name]) text
      = fillFirstChars (fillEach lookup l text) name.toList v.displayChars := by
  induction l generalizing text with
  | nil =>
    rw [List.nil_append, fillEach_cons_of_some h]
    rfl
  | cons n r ih =>
    rw [List.cons_append]
    cases hn : lookup n with
    | none => rw [fillEach_cons_of_none hn, fillEach_cons_of_none hn, ih]
    | some w => rw [fillEach_cons_of_some hn, fillEach_cons_of_some hn, ih]

theorem fillEach_congr {other : String → Option Value} {l : List String}
    (h : ∀ n ∈ l, other n = lookup n) (text : List Char) :
    fillEach other l text = fillEach lookup l text := by
  induction l generalizing text with
  | nil => rfl
  | cons n r ih =>
    have hr := fun m hm => h m (List.mem_cons_of_mem n hm)
    cases hn : lookup n with
    | none => rw [fillEach_cons_of_none hn, fillEach_cons_of_none ((h n List.mem_cons_self).trans hn),
        ih hr]
    | some v => rw [fillEach_cons_of_some hn, fillEach_cons_of_some ((h n List.mem_cons_self).trans hn),
        ih hr]

theorem render_congr {other : String → Option Value} {names : List String}
    (h : ∀ n ∈ names, other n = lookup n) (template changed : String) (value : Value) :
    render template names changed value other = render template names changed value lookup := by
  unfold render
  rw [fillEach_congr fun n hn => h n (List.mem_of_mem_erase hn)]

/-- The text after a change is the template filled with the values of today, if the value announced
is one of them. -/
theorem render_eq_fill {template changed : String} {value : Value} (h : Tidy template)
    (hplain : ∀ n ∈ names template, ∀ v, lookup n = some v → v.Plain)
    (hc : changed ∈ names template) (hv : lookup changed = some value) :
    render template (names template) changed value lookup = fill lookup template := by
  have hperm : ((names template).erase changed ++ [changed]).Perm (names template) :=
    (List.perm_append_singleton _ _).trans (List.perm_cons_erase hc).symm
  unfold render
  dsimp only
  rw [← fillEach_append_singleton hv]
  refine fillEach_eq_fill h hplain (fun n hn => hperm.mem_iff.mp hn) fun n _ => ?_
  exact Nat.le_of_eq (hperm.count_eq n).symm

end Template

end Bindery
