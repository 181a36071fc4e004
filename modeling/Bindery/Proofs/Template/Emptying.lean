import Bindery.Proofs.Template.Occurrences

/-!
# Filling slots until none is left

The names of a text come from one pass over it, and a slot is filled where a plain search finds it
written out.  Both speak of the same places: a slot is found where the pass takes the first slot of that
name.  In a text where every `$` begins a slot, and with values without `$`, filling one slot leaves a
text of the same kind with one name less.  Filling one slot for each name, whatever the order, leaves no
slot.

* `Orderly`                every `$` of a text begins a slot
* `tidy_iff_orderly`       the same said of the pieces
* `exists_first_place`     the first place of a name, and nothing of the kind in front of it
* `pieces_fillFirst`       the pieces of a text after one slot was filled
* `fillFirst_agrees`       the names of a text and the search for a slot agree
-/

namespace Bindery.Template

/-- Every `$` of the text begins a slot. -/
def Orderly (text : String) : Prop :=
  ∀ front back : String, text = front ++ "$" ++ back → ∃ name, StandsAt text front.length name

/-! ## The `$` of a text -/

section
variable {s : List Char}

theorem dollar_not_mem_pieces_iff :
    Piece.char '$' ∉ pieces s ↔
      ∀ front back, s = front ++ '$' :: back → (slotAt? ('$' :: back)).isSome = true := by
  fun_induction pieces s with
  | case1 => simp
  | case2 c r m after hs ih =>
    have htext := eq_of_slotAt? hs
    have hm := isNameChar_of_slotAt? hs
    have hmem : Piece.char '$' ∉ .slot m :: pieces after ↔ Piece.char '$' ∉ pieces after := by simp
    rw [hmem, ih]
    constructor
    · intro h front back he
      by_cases hf : front = []
      · rw [hf, List.nil_append] at he
        rw [← he, hs]
        rfl
      · obtain ⟨f, -, hafter⟩ := behind_of_append_eq hm hf (htext.symm.trans he)
        exact h f back hafter
    · rintro h front back rfl
      apply h (slotChars m ++ front) back
      rw [htext, List.append_assoc]
  | case3 c r hs ih =>
    have hmem : Piece.char '$' ∉ .char c :: pieces r ↔ c ≠ '$' ∧ Piece.char '$' ∉ pieces r := by
      simp [eq_comm]
    rw [hmem, ih]
    constructor
    · rintro ⟨hc, h⟩ front back he
      cases front with
      | nil => exact absurd (List.cons.inj he).1 hc
      | cons d f => exact h f back (List.cons.inj he).2
    · intro h
      constructor
      · rintro rfl
        have hsome := h [] r rfl
        rw [hs] at hsome
        cases hsome
      · rintro front back rfl
        exact h (c :: front) back rfl

end

section
variable {text name value : String} {front back : String}

theorem standsAt_iff_slotAt? (h : text = front ++ "$" ++ back) :
    StandsAt text front.length name ↔ ∃ after, slotAt? ('$' :: back.toList) = some (name.toList, after) := by
  have htext : text.toList = front.toList ++ '$' :: back.toList := by simp [h]
  simp only [slotAt?_eq_some_iff]
  constructor
  · rintro ⟨hne, hname, f, b, hlen, hf⟩
    have hsplit : front.toList ++ '$' :: back.toList = f.toList ++ (slotChars name.toList ++ b.toList) := by
      rw [← htext, hf, toList_written]
    have hlen : front.toList.length = f.toList.length := by
      rw [String.length_toList, String.length_toList, hlen]
    have hne : name.toList ≠ [] := fun h => hne (String.toList_eq_nil_iff.mp h)
    exact ⟨b.toList, hne, hname, (List.append_inj hsplit hlen).2⟩
  · rintro ⟨after, hne, hname, hslot⟩
    refine ⟨fun h => hne (String.toList_eq_nil_iff.mpr h), hname, front, String.ofList after, rfl, ?_⟩
    apply String.toList_inj.mp
    rw [toList_written, String.toList_ofList, ← hslot, htext]

theorem tidy_iff_orderly : Tidy text ↔ Orderly text := by
  unfold Tidy Orderly
  rw [dollar_not_mem_pieces_iff]
  constructor
  · intro h front back he
    have hsome := h front.toList back.toList (by simp [he])
    obtain ⟨⟨n, after⟩, hs⟩ := Option.isSome_iff_exists.mp hsome
    refine ⟨String.ofList n, (standsAt_iff_slotAt? he).mpr ⟨after, ?_⟩⟩
    rwa [String.toList_ofList]
  · intro h front back he
    have htext : text = String.ofList front ++ "$" ++ String.ofList back := by
      apply String.toList_inj.mp
      simp [he]
    obtain ⟨name, hs⟩ := h _ _ htext
    obtain ⟨after, hs⟩ := (standsAt_iff_slotAt? htext).mp hs
    rw [String.toList_ofList] at hs
    rw [hs]
    rfl

instance (text : String) : Decidable (Orderly text) := decidable_of_iff _ tidy_iff_orderly

/-! ## Where the search finds a slot -/

theorem standsAt_of_append {a b : List Char} (hne : name ≠ "")
    (hname : ∀ c ∈ name.toList, c.isAlphanum = true)
    (h : text.toList = a ++ (slotChars name.toList ++ b)) : StandsAt text a.length name := by
  refine ⟨hne, hname, String.ofList a, String.ofList b, String.length_ofList, ?_⟩
  apply String.toList_inj.mp
  rw [toList_written, String.toList_ofList, String.toList_ofList, h]

theorem names?_getD (text : String) : (names? text).getD [] = names text := by
  unfold names?
  cases names text <;> rfl

theorem fillFirst_of_not_mem (hne : name ≠ "") (hname : ∀ c ∈ name.toList, c.isAlphanum = true)
    (h : name ∉ names text) (value : String) : fillFirst text name value = text := by
  apply String.toList_inj.mp
  unfold fillFirst fillFirstChars
  rw [String.toList_ofList, Text.replaceFirst_eq]
  cases hs : Text.splitFirst? (slotChars name.toList) text.toList with
  | none => rfl
  | some cut =>
    obtain ⟨a, b⟩ := cut
    have htext := Text.append_of_splitFirst? hs
    rw [List.append_assoc] at htext
    exact absurd (mem_names_iff.mpr ⟨_, standsAt_of_append hne hname htext⟩) h

/-- The places of a text are listed in order, so a name does not stand in front of its first place. -/
theorem le_of_find?_places {i j : Nat} (h : (places text).find? (·.2 = name) = some (i, name))
    (hj : StandsAt text j name) : i ≤ j := by
  obtain ⟨-, earlier, later, hsplit, hearlier⟩ := List.find?_eq_some_iff_append.mp h
  have hplace : (j, name) ∈ places text := mem_places.mpr hj
  have hsorted : (places text).Pairwise (·.1 < ·.1) := pairwise_placesFrom 0 _
  rw [hsplit] at hplace hsorted
  rw [List.pairwise_append, List.pairwise_cons] at hsorted
  rcases List.mem_append.mp hplace with hplace | hplace
  · exact absurd (hearlier _ hplace) (by simp)
  · rcases List.mem_cons.mp hplace with hplace | hplace
    · exact Nat.le_of_eq (congrArg Prod.fst hplace).symm
    · exact Nat.le_of_lt (hsorted.2.1.1 _ hplace)

/-- The first slot of a name: nothing in front of it reads so. -/
theorem exists_first_place (h : name ∈ names text) :
    ∃ front back : String, text = front ++ slot name ++ back ∧
      (places text).find? (·.2 = name) = some (front.length, name) ∧
      ¬ slotChars name.toList <:+: front.toList := by
  obtain ⟨i, hi⟩ := mem_names_iff.mp h
  have hsome : ((places text).find? (·.2 = name)).isSome = true :=
    List.find?_isSome.mpr ⟨(i, name), mem_places.mpr hi, decide_eq_true rfl⟩
  obtain ⟨⟨j, m⟩, hfind⟩ := Option.isSome_iff_exists.mp hsome
  have hm := List.find?_some hfind
  obtain rfl : m = name := of_decide_eq_true hm
  obtain ⟨hne, hname, front, back, rfl, htext⟩ := mem_places.mp (List.mem_of_find?_eq_some hfind)
  refine ⟨front, back, ?_, hfind, ?_⟩
  · rw [htext]
    simp [slot, slotChars, ← String.toList_inj]
  · rintro ⟨a, b, hab⟩
    have hstands : StandsAt text a.length m := by
      apply standsAt_of_append (b := b ++ (slotChars m.toList ++ back.toList)) hne hname
      rw [htext, toList_written, ← hab]
      simp
    have hlt : a.length < front.length := by
      rw [← String.length_toList, ← hab]
      simp [slotChars]
    exact absurd (le_of_find?_places hfind hstands) (Nat.not_le_of_lt hlt)

theorem fillFirst_append_slot (hname : ∀ c ∈ name.toList, c.isAlphanum = true)
    (h : ¬ slotChars name.toList <:+: front.toList) (back value : String) :
    fillFirst (front ++ slot name ++ back) name value = front ++ value ++ back := by
  apply String.toList_inj.mp
  have hfill : fillFirstChars (front.toList ++ (slotChars name.toList ++ back.toList)) name.toList
      value.toList = front.toList ++ (value.toList ++ back.toList) :=
    fillFirstChars_append_slot hname h value.toList
  simpa [fillFirst, slot] using hfill

/-! ## The pieces of a text after one slot was filled -/

def Nonblank (ps : List Piece) : Prop := Piece.slot [] ∉ ps

theorem nonblank_pieces (s : List Char) : Nonblank (pieces s) := by
  unfold Nonblank
  fun_induction pieces s with
  | case1 => simp
  | case2 c r m after hs ih =>
    intro h
    rcases List.mem_cons.mp h with h | h
    · exact ne_nil_of_slotAt? hs (Piece.slot.inj h).symm
    · exact ih h
  | case3 c r hs ih =>
    intro h
    rcases List.mem_cons.mp h with h | h
    · cases h
    · exact ih h

/-- Pieces as they come out of a tidy text come out of what they are written as. -/
theorem pieces_source {ps : List Piece} (hp : Proper ps) (hb : Nonblank ps) :
    pieces (ps.flatMap Piece.source) = ps := by
  induction ps with
  | nil =>
    show pieces [] = []
    rw [pieces]
  | cons p r ih =>
    have hr := ih (fun q hq => hp q (List.mem_cons_of_mem _ hq))
      fun hq => hb (List.mem_cons_of_mem _ hq)
    cases p with
    | char c =>
      have hc : c ≠ '$' := hp (.char c) List.mem_cons_self
      have hs : slotAt? (c :: r.flatMap Piece.source) = none := by
        rw [Option.eq_none_iff_forall_ne_some]
        rintro ⟨n, after⟩ hs
        exact hc (List.cons.inj (eq_of_slotAt? hs)).1
      show pieces (c :: r.flatMap Piece.source) = .char c :: r
      rw [pieces]
      split
      · rename_i h
        rw [hs] at h
        cases h
      · rw [hr]
    | slot n =>
      have hne : n ≠ [] := by
        rintro rfl
        exact hb List.mem_cons_self
      have hs := slotAt?_slotChars hne (hp (.slot n) List.mem_cons_self) (r.flatMap Piece.source)
      show pieces ('$' :: ('\x7b' :: n ++ ['\x7d'] ++ r.flatMap Piece.source)) = .slot n :: r
      rw [pieces]
      split
      · rename_i h
        obtain ⟨rfl, rfl⟩ := Prod.mk.inj (Option.some.inj (hs.symm.trans h))
        rw [hr]
      · rename_i h
        exact absurd (hs.symm.trans h) (Option.some_ne_none _)

theorem Nonblank.fillOne {ps : List Piece} {v : List Char} (h : Nonblank ps) :
    Nonblank (fillOne name v ps) := by
  induction ps with
  | nil => exact h
  | cons p r ih =>
    have hr := ih fun hq => h (List.mem_cons_of_mem _ hq)
    have hp : Piece.slot [] ≠ p := by
      rintro rfl
      exact h List.mem_cons_self
    cases p with
    | char c =>
      intro hq
      rcases List.mem_cons.mp hq with hq | hq
      · cases hq
      · exact hr hq
    | slot n =>
      unfold Template.fillOne
      split
      · intro hq
        rcases List.mem_append.mp hq with hq | hq
        · obtain ⟨c, -, hc⟩ := List.mem_map.mp hq
          cases hc
        · exact h (List.mem_cons_of_mem _ hq)
      · intro hq
        rcases List.mem_cons.mp hq with hq | hq
        · exact hp hq
        · exact hr hq

theorem pieces_fillFirst (h : Tidy text) (hname : ∀ c ∈ name.toList, c.isAlphanum = true)
    (hvalue : '$' ∉ value.toList) :
    pieces (fillFirst text name value).toList = fillOne name value.toList (pieces text.toList) := by
  have hfill : fillFirstChars ((pieces text.toList).flatMap Piece.source) name.toList value.toList
      = (fillOne name value.toList (pieces text.toList)).flatMap Piece.source :=
    fillFirstChars_source h.proper hname
  rw [source_pieces] at hfill
  unfold fillFirst
  rw [String.toList_ofList, hfill]
  exact pieces_source (h.proper.fillOne hvalue) (nonblank_pieces _).fillOne

theorem Tidy.fillFirst (h : Tidy text) (hname : ∀ c ∈ name.toList, c.isAlphanum = true)
    (hvalue : '$' ∉ value.toList) : Tidy (fillFirst text name value) := by
  unfold Tidy
  rw [pieces_fillFirst h hname hvalue]
  intro hm
  exact h.proper.fillOne hvalue _ hm rfl

theorem names_fillFirst (h : Tidy text) (hname : ∀ c ∈ name.toList, c.isAlphanum = true)
    (hvalue : '$' ∉ value.toList) : names (fillFirst text name value) = (names text).erase name := by
  show slotNames (pieces _) = (slotNames (pieces _)).erase name
  rw [pieces_fillFirst h hname hvalue, slotNames_fillOne]

theorem dollar_not_mem_of_names (h : Tidy text) (hnames : names text = []) : '$' ∉ text.toList := by
  intro hm
  obtain ⟨a, b, hab⟩ := List.append_of_mem hm
  have htext : text = String.ofList a ++ "$" ++ String.ofList b := by
    apply String.toList_inj.mp
    simp [hab]
  obtain ⟨n, hs⟩ := tidy_iff_orderly.mp h _ _ htext
  have hn : n ∈ names text := mem_names_iff.mpr ⟨_, hs⟩
  rw [hnames] at hn
  cases hn

/-- One value for each slot, in any order: what is left is a text without slots. -/
theorem names_foldl_fillFirst {fills : List (String × String)} (h : Tidy text)
    (hnames : (fills.map Prod.fst).Perm (names text)) (hvalues : ∀ f ∈ fills, '$' ∉ f.2.toList) :
    Tidy (fills.foldl (fun t f => fillFirst t f.1 f.2) text) ∧
      names (fills.foldl (fun t f => fillFirst t f.1 f.2) text) = [] := by
  induction fills generalizing text with
  | nil => exact ⟨h, hnames.symm.eq_nil⟩
  | cons f r ih =>
    obtain ⟨hmem, hrest⟩ := List.cons_perm_iff_perm_erase.mp hnames
    have hname : ∀ c ∈ f.1.toList, c.isAlphanum = true := isNameChar_of_mem_names hmem
    have hvalue := hvalues f List.mem_cons_self
    apply ih (h.fillFirst hname hvalue)
    · rw [names_fillFirst h hname hvalue]
      exact hrest
    · intro g hg
      exact hvalues g (List.mem_cons_of_mem _ hg)

/-! ## The names of a text and the search for a slot -/

/-- Filling leaves a text alone that has no slot of the name, and replaces the first one otherwise.  In
a text where every `$` begins a slot, a value without `$` leaves a text of that kind and takes the name
away once, so that one value for each name leaves no slot. -/
theorem fillFirst_agrees (text name value : String) (hne : name ≠ "")
    (hname : ∀ c ∈ name.toList, c.isAlphanum = true) :
    (name ∉ (names? text).getD [] → fillFirst text name value = text) ∧
    (name ∈ (names? text).getD [] → ∃ front back : String,
      (places text).find? (·.2 = name) = some (front.length, name) ∧
      (∀ i, StandsAt text i name → front.length ≤ i) ∧
      text = front ++ slot name ++ back ∧ fillFirst text name value = front ++ value ++ back) ∧
    (Orderly text → '$' ∉ value.toList → Orderly (fillFirst text name value) ∧
      (names? (fillFirst text name value)).getD [] = ((names? text).getD []).erase name) ∧
    (Orderly text → ∀ fills : List (String × String),
      (fills.map Prod.fst).Perm ((names? text).getD []) → (∀ f ∈ fills, '$' ∉ f.2.toList) →
      names? (fills.foldl (fun t f => fillFirst t f.1 f.2) text) = none ∧
        '$' ∉ (fills.foldl (fun t f => fillFirst t f.1 f.2) text).toList) := by
  simp only [names?_getD]
  refine ⟨?_, ?_, ?_, ?_⟩
  · intro h
    exact fillFirst_of_not_mem hne hname h value
  · intro h
    obtain ⟨front, back, htext, hfind, hfront⟩ := exists_first_place h
    refine ⟨front, back, hfind, fun i hi => le_of_find?_places hfind hi, htext, ?_⟩
    rw [htext]
    exact fillFirst_append_slot hname hfront back value
  · intro h hvalue
    rw [← tidy_iff_orderly] at h ⊢
    exact ⟨h.fillFirst hname hvalue, names_fillFirst h hname hvalue⟩
  · intro h fills hnames hvalues
    have hleft := names_foldl_fillFirst (tidy_iff_orderly.mpr h) hnames hvalues
    exact ⟨names?_eq_none_iff.mpr hleft.2, dollar_not_mem_of_names hleft.1 hleft.2⟩

theorem fillFirst_prefix_name :
    (∃ front back : String, (places "${ab} ${a}${a}").find? (·.2 = "a") = some (front.length, "a") ∧
      "${ab} ${a}${a}" = front ++ slot "a" ++ back ∧
      fillFirst "${ab} ${a}${a}" "a" "X" = front ++ "X" ++ back) ∧
    fillFirst "${ab} ${a}${a}" "b" "X" = "${ab} ${a}${a}" ∧
    (names? (fillFirst "${ab} ${a}${a}" "a" "X")).getD [] = ["ab", "a"] ∧
    names? ([("a", "1"), ("ab", "2"), ("a", "")].foldl (fun t f => fillFirst t f.1 f.2) "${ab} ${a}${a}")
      = none := by
  have hnames : names? "${ab} ${a}${a}" = some ["ab", "a", "a"] := by decide +kernel
  have horderly : Orderly "${ab} ${a}${a}" := by decide +kernel
  have ha : ∀ c ∈ "a".toList, c.isAlphanum = true := List.all_eq_true.mp (by decide)
  have hb : ∀ c ∈ "b".toList, c.isAlphanum = true := List.all_eq_true.mp (by decide)
  obtain ⟨-, hfirst, hone, hall⟩ := fillFirst_agrees "${ab} ${a}${a}" "a" "X" (by decide) ha
  obtain ⟨hother, -⟩ := fillFirst_agrees "${ab} ${a}${a}" "b" "X" (by decide) hb
  rw [hnames] at hfirst hone hall hother
  obtain ⟨front, back, hfind, -, htext, hfill⟩ := hfirst (by decide)
  refine ⟨⟨front, back, hfind, htext, hfill⟩, hother (by decide), ?_, ?_⟩
  · exact (hone horderly (by decide +kernel)).2
  · exact (hall horderly [("a", "1"), ("ab", "2"), ("a", "")] (by decide) (by decide +kernel)).1

end

end Bindery.Template
