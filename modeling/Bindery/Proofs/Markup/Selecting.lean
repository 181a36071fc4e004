import Bindery.Markup.Selector

/-!
# What a selector names

The text of a selector without the blanks around it says which elements are meant: `#` and an identity,
`.` and one of the words of the class, or a tag.  Nothing at all, `#` alone and `.` alone mean none.

* `Text.IsWord`            a word stands between blanks or ends of a text
* `Text.mem_words_iff`     and those are the words there are
* `Selector.Names`         the elements that the text of a selector means
* `selects_iff_names`      are those that the selector selects
* `Fragment.find?_eq`      and the first of them is found
-/

namespace Bindery

namespace Text

/-! ## Words -/

/-- `x` is not empty, has no blanks, and stands in the text with a blank or an end on either side. -/
structure IsWord (x s : List Char) : Prop where
  nonempty : x ≠ []
  solid : ∀ c ∈ x, isAsciiBlank c = false
  stands : ∃ before after, s = before ++ x ++ after ∧
    (∀ c ∈ before.getLast?, isAsciiBlank c = true) ∧ ∀ c ∈ after.head?, isAsciiBlank c = true

theorem not_isWord_nil (x : List Char) : ¬ IsWord x [] := by
  rintro ⟨hne, -, before, after, hs, -, -⟩
  have hnil := (List.append_eq_nil_iff.mp hs.symm).1
  exact hne (List.append_eq_nil_iff.mp hnil).2

theorem isWord_cons_iff {c : Char} (hc : isAsciiBlank c = true) {x r : List Char} :
    IsWord x (c :: r) ↔ IsWord x r := by
  constructor
  · rintro ⟨hne, hsolid, before, after, hs, hlast, hhead⟩
    refine ⟨hne, hsolid, ?_⟩
    cases before with
    | nil =>
      obtain ⟨d, x, rfl⟩ := List.exists_cons_of_ne_nil hne
      obtain ⟨rfl, -⟩ := List.cons.inj hs
      exact absurd hc (Bool.eq_false_iff.mp (hsolid c List.mem_cons_self))
    | cons d before =>
      refine ⟨before, after, (List.cons.inj hs).2, fun e he => ?_, hhead⟩
      refine hlast e ?_
      rw [List.getLast?_cons, he]
      rfl
  · rintro ⟨hne, hsolid, before, after, rfl, hlast, hhead⟩
    refine ⟨hne, hsolid, c :: before, after, rfl, fun e he => ?_, hhead⟩
    cases hb : before.getLast? with
    | none =>
      rw [List.getLast?_cons, hb] at he
      cases he
      exact hc
    | some d =>
      rw [List.getLast?_cons, hb] at he
      cases he
      exact hlast d hb

theorem takeWhile_solid {w rest : List Char} (hw : ∀ c ∈ w, isAsciiBlank c = false)
    (hrest : ∀ c ∈ rest.head?, isAsciiBlank c = true) :
    (w ++ rest).takeWhile (fun c => !isAsciiBlank c) = w := by
  rw [List.takeWhile_append_of_pos fun c hc => by rw [hw c hc]; rfl]
  cases rest with
  | nil => rw [List.takeWhile_nil, List.append_nil]
  | cons d rest => rw [List.takeWhile_cons_of_neg (by rw [hrest d rfl]; decide), List.append_nil]

theorem isWord_append_iff {w : List Char} (hne : w ≠ []) (hw : ∀ c ∈ w, isAsciiBlank c = false)
    {x rest : List Char} (hrest : ∀ c ∈ rest.head?, isAsciiBlank c = true) :
    IsWord x (w ++ rest) ↔ x = w ∨ IsWord x rest := by
  constructor
  · rintro ⟨hxne, hsolid, before, after, hs, hlast, hhead⟩
    by_cases hb : before = []
    · -- both begin at the same place and end at the first blank
      left
      rw [hb, List.nil_append] at hs
      rw [← takeWhile_solid hsolid hhead, ← hs, takeWhile_solid hw hrest]
    · right
      rw [List.append_assoc] at hs
      rcases List.append_eq_append_iff.mp hs with ⟨gap, hbefore, hgap⟩ | ⟨gap, hwhole, -⟩
      · refine ⟨hxne, hsolid, gap, after, ?_, fun c hc => hlast c ?_, hhead⟩
        · rw [hgap, List.append_assoc]
        · rw [hbefore, List.getLast?_append, hc]
          rfl
      · -- what stands in front of the word ends with a blank, and the row has none
        obtain ⟨c, hc⟩ := Option.ne_none_iff_exists'.mp fun h => hb (List.getLast?_eq_none_iff.mp h)
        have hm : c ∈ w := hwhole ▸ List.mem_append_left _ (List.mem_of_getLast? hc)
        exact absurd (hlast c hc) (Bool.eq_false_iff.mp (hw c hm))
  · rintro (rfl | ⟨hxne, hsolid, before, after, rfl, hlast, hhead⟩)
    · exact ⟨hne, hw, [], rest, rfl, nofun, hrest⟩
    · refine ⟨hxne, hsolid, w ++ before, after, by simp only [List.append_assoc], fun c hc => ?_, hhead⟩
      cases hb : before.getLast? with
      | some d =>
        rw [List.getLast?_append, hb] at hc
        exact hlast c (hb.trans hc)
      | none =>
        -- then the word would begin with the blank
        rw [List.getLast?_eq_none_iff.mp hb, List.nil_append] at hrest
        obtain ⟨d, y, rfl⟩ := List.exists_cons_of_ne_nil hxne
        exact absurd (hrest d rfl) (Bool.eq_false_iff.mp (hsolid d List.mem_cons_self))

/-- `word` is the row in progress, last character first. -/
theorem mem_wordsFrom_iff {x word s : List Char}
    (hword : ∀ c ∈ word.reverse, isAsciiBlank c = false) :
    x ∈ wordsFrom word s ↔ IsWord x (word.reverse ++ s) := by
  induction s generalizing word with
  | nil =>
    rw [wordsFrom]
    by_cases hw : word = []
    · rw [if_pos (List.isEmpty_iff.mpr hw), hw]
      exact ⟨nofun, fun h => absurd h (not_isWord_nil x)⟩
    · have hend : ∀ c ∈ ([] : List Char).head?, isAsciiBlank c = true := nofun
      rw [if_neg (mt List.isEmpty_iff.mp hw),
        isWord_append_iff (mt List.reverse_eq_nil_iff.mp hw) hword hend, List.mem_singleton]
      exact ⟨Or.inl, fun h => h.resolve_right (not_isWord_nil x)⟩
  | cons c r ih =>
    rw [wordsFrom]
    by_cases hc : isAsciiBlank c = true
    · have hrest : x ∈ wordsFrom [] r ↔ IsWord x r := ih (fun d hd => nomatch hd)
      rw [if_pos hc]
      by_cases hw : word = []
      · rw [if_pos (List.isEmpty_iff.mpr hw), hw, List.reverse_nil, List.nil_append,
          isWord_cons_iff hc, hrest]
      · have hhead : ∀ d ∈ (c :: r).head?, isAsciiBlank d = true := fun d hd => Option.some.inj hd ▸ hc
        rw [if_neg (mt List.isEmpty_iff.mp hw),
          isWord_append_iff (mt List.reverse_eq_nil_iff.mp hw) hword hhead, isWord_cons_iff hc,
          List.mem_cons, hrest]
    · have hmore : ∀ d ∈ (c :: word).reverse, isAsciiBlank d = false := by
        intro d hd
        rw [List.reverse_cons, List.mem_append, List.mem_singleton] at hd
        rcases hd with hd | rfl
        · exact hword d hd
        · exact Bool.eq_false_iff.mpr hc
      rw [if_neg hc, ih hmore, List.reverse_cons, List.append_assoc]
      rfl

theorem mem_words_iff {x s : List Char} : x ∈ words s ↔ IsWord x s :=
  mem_wordsFrom_iff (fun _ h => nomatch h)

end Text

/-! ## Selectors -/

namespace Selector

/-- The elements that a selector without blanks around it means. -/
def Names (selector : List Char) (tag : String) (a : Attributes) : Prop :=
  match selector with
  | [] => False
  | '#' :: x => x ≠ [] ∧ a.get? "id" = some (String.ofList x)
  | '.' :: x => x ≠ [] ∧ ∃ v, a.get? "class" = some v ∧ Text.IsWord x v.toList
  | x => tag = Text.lower (String.ofList x)

theorem mem_classes_iff {a : Attributes} {x : List Char} :
    String.ofList x ∈ classes a ↔ ∃ v, a.get? "class" = some v ∧ Text.IsWord x v.toList := by
  unfold classes
  cases a.get? "class" with
  | none => exact ⟨nofun, nofun⟩
  | some v =>
    rw [List.mem_map]
    constructor
    · rintro ⟨y, hy, he⟩
      obtain rfl := String.ofList_injective he
      exact ⟨v, rfl, Text.mem_words_iff.mp hy⟩
    · rintro ⟨v', ⟨⟩, hx⟩
      exact ⟨x, Text.mem_words_iff.mpr hx, rfl⟩

/-- A text stands for a selector unless it is empty, `#` or `.`. -/
theorem ofText?_eq_none_iff {text : String} :
    ofText? text = none ↔
      Text.trim text.toList = [] ∨ Text.trim text.toList = ['#'] ∨ Text.trim text.toList = ['.'] := by
  unfold ofText?
  generalize Text.trim text.toList = s
  split
  · simp
  · rename_i r
    cases r <;> simp
  · rename_i r
    cases r <;> simp
  · rename_i hnil hid hclass
    refine ⟨nofun, fun h => ?_⟩
    rcases h with h | h | h
    · exact absurd h hnil
    · exact absurd h (hid [])
    · exact absurd h (hclass [])

/-- What the selector of a text selects is what the text names. -/
theorem names_iff {text : String} {tag : String} {a : Attributes} :
    Names (Text.trim text.toList) tag a ↔ ∃ s, ofText? text = some s ∧ s.selects tag a = true := by
  cases hs : ofText? text with
  | none =>
    refine ⟨fun h => ?_, fun ⟨_, h, _⟩ => nomatch h⟩
    rcases ofText?_eq_none_iff.mp hs with hnil | hid | hclass
    · rw [hnil] at h
      exact absurd h id
    · rw [hid] at h
      exact absurd rfl h.1
    · rw [hclass] at h
      exact absurd rfl h.1
  | some s =>
    have hsome : (∃ t, some s = some t ∧ t.selects tag a = true) ↔ s.selects tag a = true :=
      ⟨fun ⟨_, ht, hsel⟩ => Option.some.inj ht ▸ hsel, fun hsel => ⟨s, rfl, hsel⟩⟩
    rw [hsome]
    unfold ofText? at hs
    generalize Text.trim text.toList = trimmed at hs
    split at hs
    · cases hs
    · rename_i r
      cases r with
      | nil => cases hs
      | cons c r =>
        obtain rfl := Option.some.inj hs
        show c :: r ≠ [] ∧ a.get? "id" = some (String.ofList (c :: r)) ↔ _
        rw [selects, beq_iff_eq]
        exact and_iff_right (List.cons_ne_nil c r)
    · rename_i r
      cases r with
      | nil => cases hs
      | cons c r =>
        obtain rfl := Option.some.inj hs
        show c :: r ≠ [] ∧ (∃ v, a.get? "class" = some v ∧ Text.IsWord (c :: r) v.toList) ↔ _
        rw [selects, List.contains_iff_mem, mem_classes_iff]
        exact and_iff_right (List.cons_ne_nil c r)
    · rename_i hnil hid hclass
      obtain rfl := Option.some.inj hs
      rw [selects, beq_iff_eq]
      unfold Names
      split
      · exact absurd rfl hnil
      · exact absurd rfl (hid _)
      · exact absurd rfl (hclass _)
      · exact Iff.rfl

end Selector

namespace Fragment

variable {ι : Type}

theorem find?_eq (s : Selector) (f : Fragment ι) :
    f.find? s = f.descendants.find? fun x => s.selects x.tag x.attributes := by
  induction f with
  | nil => rfl
  | text content rest ih => exact ih
  | element label tag attributes children rest ihc ih =>
    rw [find?, descendants, List.cons_append, List.find?_cons, List.find?_append, ihc, ih]
    cases s.selects tag attributes <;> rfl

end Fragment

end Bindery
