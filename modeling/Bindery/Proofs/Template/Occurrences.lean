import Bindery.Proofs.Template.Spelling

/-!
# Where the slots of a text stand

The pieces of a text come from one pass over it, which goes on behind each slot it has taken.  The pass
misses no slot: a slot has one `$`, its first character, so no slot begins inside another one, and what
stands in front of a slot has no part in it.  The slots of the pieces are therefore the places where a
slot is written out, whatever else the text holds.

* `StandsAt`            a slot is written out at a place of a text
* `places`              the slots of the pieces, each with the place where it begins
* `mem_places`          the pieces have a slot where one is written out
* `names?_eq_places`    the names of a text, from the places where its slots stand
-/

namespace Bindery.Template

/-- The slot called `name` is written out at the place `i` of the text. -/
def StandsAt (text : String) (i : Nat) (name : String) : Prop :=
  name ≠ "" ∧ (∀ c ∈ name.toList, c.isAlphanum = true) ∧
    ∃ front back : String, front.length = i ∧ text = front ++ "$\x7b" ++ name ++ "\x7d" ++ back

/-- The slots among pieces, each with its place if the first piece begins at `i`. -/
def placesFrom (i : Nat) : List Piece → List (Nat × String)
  | [] => []
  | .char _ :: r => placesFrom (i + 1) r
  | .slot n :: r => (i, String.ofList n) :: placesFrom (i + (slotChars n).length) r

def places (text : String) : List (Nat × String) := placesFrom 0 (pieces text.toList)

/-! ## A slot in front of a text -/

section
variable {n m front rest back s : List Char}

theorem takeWhile_name (hn : ∀ c ∈ n, isNameChar c = true) :
    (n ++ '\x7d' :: rest).takeWhile isNameChar = n := by
  rw [List.takeWhile_append_of_pos hn, List.takeWhile_cons_of_neg, List.append_nil]
  rw [not_isNameChar (Or.inr (Or.inr rfl))]
  exact Bool.false_ne_true

theorem dropWhile_name (hn : ∀ c ∈ n, isNameChar c = true) :
    (n ++ '\x7d' :: rest).dropWhile isNameChar = '\x7d' :: rest := by
  rw [List.dropWhile_append_of_pos hn, List.dropWhile_cons_of_neg]
  rw [not_isNameChar (Or.inr (Or.inr rfl))]
  exact Bool.false_ne_true

theorem slotAt?_slotChars (hne : n ≠ []) (hn : ∀ c ∈ n, isNameChar c = true) (rest : List Char) :
    slotAt? (slotChars n ++ rest) = some (n, rest) := by
  have htext : slotChars n ++ rest = '$' :: '\x7b' :: (n ++ '\x7d' :: rest) := by
    simp [slotChars]
  rw [htext]
  simp only [slotAt?, takeWhile_name hn, dropWhile_name hn]
  cases n with
  | nil => exact absurd rfl hne
  | cons c r => rfl

theorem ne_nil_of_slotAt? (h : slotAt? s = some (n, rest)) : n ≠ [] := by
  unfold slotAt? at h
  split at h
  · split at h
    · cases h
      exact List.cons_ne_nil _ _
    · cases h
  · cases h

theorem slotAt?_eq_some_iff :
    slotAt? s = some (n, rest) ↔ n ≠ [] ∧ (∀ c ∈ n, isNameChar c = true) ∧ s = slotChars n ++ rest := by
  constructor
  · intro h
    exact ⟨ne_nil_of_slotAt? h, isNameChar_of_slotAt? h, eq_of_slotAt? h⟩
  · rintro ⟨hne, hn, rfl⟩
    exact slotAt?_slotChars hne hn rest

/-- A `$` behind the first character of a slot stands behind the slot. -/
theorem behind_of_append_eq (hm : ∀ c ∈ m, isNameChar c = true) (hf : front ≠ [])
    (h : slotChars m ++ rest = front ++ '$' :: back) :
    ∃ f, front = slotChars m ++ f ∧ rest = f ++ '$' :: back := by
  rcases List.append_eq_append_iff.mp h with ⟨f, hfront, hrest⟩ | ⟨f, hslot, hrest⟩
  · exact ⟨f, hfront, hrest⟩
  · cases f with
    | nil =>
      refine ⟨[], ?_, hrest.symm⟩
      rw [hslot, List.append_nil, List.append_nil]
    | cons d f =>
      -- the `$` would be one of the slot
      obtain ⟨c, g, rfl⟩ := List.exists_cons_of_ne_nil hf
      have hd : '$' = d := (List.cons.inj hrest).1
      have htail : '\x7b' :: m ++ ['\x7d'] = g ++ d :: f := (List.cons.inj hslot).2
      refine absurd ?_ (dollar_not_mem hm)
      rw [htail, ← hd]
      exact List.mem_append_right _ List.mem_cons_self

end

/-! ## The places of the pieces -/

section
variable {i j k : Nat} {name : String} {ps : List Piece}

theorem map_snd_placesFrom (i : Nat) (ps : List Piece) :
    (placesFrom i ps).map Prod.snd = slotNames ps := by
  induction ps generalizing i with
  | nil => rfl
  | cons p r ih =>
    cases p with
    | char c => exact ih (i + 1)
    | slot n => exact congrArg (String.ofList n :: ·) (ih _)

theorem le_of_mem_placesFrom (h : (j, name) ∈ placesFrom i ps) : i ≤ j := by
  induction ps generalizing i with
  | nil => cases h
  | cons p r ih =>
    cases p with
    | char c =>
      have hj : i + 1 ≤ j := ih h
      omega
    | slot n =>
      rcases List.mem_cons.mp h with h | h
      · cases h
        exact Nat.le_refl _
      · have hj : i + (slotChars n).length ≤ j := ih h
        omega

theorem pairwise_placesFrom (i : Nat) (ps : List Piece) :
    (placesFrom i ps).Pairwise (·.1 < ·.1) := by
  induction ps generalizing i with
  | nil => exact List.Pairwise.nil
  | cons p r ih =>
    cases p with
    | char c => exact ih (i + 1)
    | slot n =>
      refine List.pairwise_cons.mpr ⟨?_, ih _⟩
      intro ⟨j, m⟩ hm
      have hj := le_of_mem_placesFrom hm
      have hlen : (slotChars n).length = n.length + 3 := by simp [slotChars]
      show i < j
      omega

/-- One pass over a text finds every slot that is written out in it. -/
theorem mem_placesFrom_pieces {s n : List Char} :
    (j, String.ofList n) ∈ placesFrom i (pieces s) ↔
      n ≠ [] ∧ (∀ c ∈ n, isNameChar c = true) ∧
        ∃ front back, i + front.length = j ∧ s = front ++ (slotChars n ++ back) := by
  fun_induction pieces s generalizing i with
  | case1 =>
    constructor
    · intro h
      cases h
    · rintro ⟨-, -, front, back, -, h⟩
      simp [slotChars] at h
  | case2 c r m after hs ih =>
    have htext := eq_of_slotAt? hs
    have hm := isNameChar_of_slotAt? hs
    constructor
    · intro h
      rcases List.mem_cons.mp h with h | h
      · obtain ⟨rfl, hname⟩ := Prod.mk.inj h
        obtain rfl := String.ofList_inj.mp hname
        exact ⟨ne_nil_of_slotAt? hs, hm, [], after, rfl, htext⟩
      · obtain ⟨hne, hn, front, back, hj, rfl⟩ := ih.mp h
        refine ⟨hne, hn, slotChars m ++ front, back, ?_, ?_⟩
        · rw [List.length_append]
          omega
        · rw [htext, List.append_assoc]
    · rintro ⟨hne, hn, front, back, hj, h⟩
      by_cases hf : front = []
      · subst hf
        have hpre : slotChars n <+: slotChars m ++ after := by
          rw [← htext, h]
          exact List.prefix_append _ _
        rw [← hj, eq_of_slotChars_prefix hn hm hpre]
        exact List.mem_cons_self
      · obtain ⟨f, rfl, hafter⟩ := behind_of_append_eq hm hf (htext.symm.trans h)
        refine List.mem_cons_of_mem _ (ih.mpr ⟨hne, hn, f, back, ?_, hafter⟩)
        rw [List.length_append] at hj
        omega
  | case3 c r hs ih =>
    constructor
    · intro h
      obtain ⟨hne, hn, front, back, hj, rfl⟩ := ih.mp h
      refine ⟨hne, hn, c :: front, back, ?_, rfl⟩
      rw [List.length_cons]
      omega
    · rintro ⟨hne, hn, front, back, hj, h⟩
      cases front with
      | nil =>
        -- the pass would have taken this slot
        rw [h, List.nil_append, slotAt?_slotChars hne hn] at hs
        cases hs
      | cons d front =>
        obtain ⟨rfl, rfl⟩ := List.cons.inj h
        refine ih.mpr ⟨hne, hn, front, back, ?_, rfl⟩
        rw [List.length_cons] at hj
        omega

end

/-! ## The slots of a text -/

section
variable {text name : String} {i : Nat}

theorem toList_written (front name back : String) :
    (front ++ "$\x7b" ++ name ++ "\x7d" ++ back).toList
      = front.toList ++ (slotChars name.toList ++ back.toList) := by
  simp [slotChars]

/-- The pieces of a text have a slot where one is written out, and nowhere else. -/
theorem mem_places : (i, name) ∈ places text ↔ StandsAt text i name := by
  have hpass := mem_placesFrom_pieces (i := 0) (j := i) (s := text.toList) (n := name.toList)
  rw [String.ofList_toList] at hpass
  refine hpass.trans (and_congr (not_congr String.toList_eq_nil_iff) (and_congr Iff.rfl ?_))
  constructor
  · rintro ⟨front, back, hi, h⟩
    refine ⟨String.ofList front, String.ofList back, ?_, ?_⟩
    · rw [String.length_ofList]
      omega
    · apply String.toList_inj.mp
      rw [toList_written, String.toList_ofList, String.toList_ofList]
      exact h
  · rintro ⟨front, back, hi, rfl⟩
    refine ⟨front.toList, back.toList, ?_, toList_written front name back⟩
    rw [String.length_toList]
    omega

theorem map_snd_places (text : String) : (places text).map Prod.snd = names text :=
  map_snd_placesFrom 0 _

theorem mem_names_iff : name ∈ names text ↔ ∃ i, StandsAt text i name := by
  rw [← map_snd_places, List.mem_map]
  constructor
  · rintro ⟨⟨i, n⟩, h, rfl⟩
    exact ⟨i, mem_places.mp h⟩
  · rintro ⟨i, h⟩
    exact ⟨(i, name), mem_places.mpr h, rfl⟩

theorem names?_eq_none_iff : names? text = none ↔ names text = [] := by
  unfold names?
  cases names text <;> simp

/-- The names of a text are those of the slots written out in it, in the order of their places and one
for each place.  There are none just if no slot is written out anywhere. -/
theorem names?_eq_places (text : String) :
    (∃ slots : List (Nat × String), slots.Pairwise (·.1 < ·.1) ∧
      (∀ i name, (i, name) ∈ slots ↔ StandsAt text i name) ∧
      names? text = if slots = [] then none else some (slots.map Prod.snd)) ∧
    (names? text = none ↔ ∀ i name, ¬ StandsAt text i name) := by
  constructor
  · refine ⟨places text, pairwise_placesFrom 0 _, fun i name => mem_places, ?_⟩
    rw [map_snd_places, names?, ← map_snd_places]
    cases places text <;> rfl
  · rw [names?_eq_none_iff, List.eq_nil_iff_forall_not_mem]
    constructor
    · intro h i name hs
      exact h name (mem_names_iff.mpr ⟨i, hs⟩)
    · intro h name hm
      obtain ⟨i, hs⟩ := mem_names_iff.mp hm
      exact h i name hs

example : places "$$\x7ba\x7d$\x7bb$\x7bc\x7d$\x7b$\x7bd\x7d\x7d$\x7b\x7d" = [(1, "a"), (8, "c"), (14, "d")] := by
  decide +kernel

end

end Bindery.Template
