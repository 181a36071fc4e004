import Bindery.Proofs.Template.Filling

/-!
# An announcement of a value that is not stored

The value announced for a key need not be the one stored under it: anybody may publish the event of the
key, and a listener that is called earlier may write the key once more.  In a tidy template the value
announced fills one slot only, the last one with the name that changed.  Every other slot, those of the
same name included, is filled with what is stored.

* `fillOne_append`      the first slot of a name in two rows of pieces
* `fillEach_awaiting`   filling name by name, while the last slot of one name waits
* `render_announced`    the text after an announcement of any value
-/

namespace Bindery.Template

variable {lookup : String → Option Value} {front back ps : List Piece} {name changed : String}
  {value : List Char}

theorem fillOne_append (front back : List Piece) :
    fillOne name value (front ++ back)
      = if name ∈ slotNames front then fillOne name value front ++ back
        else front ++ fillOne name value back := by
  induction front with
  | nil => rfl
  | cons p r ih =>
    cases p with
    | char c =>
      show Piece.char c :: fillOne name value (r ++ back) = if name ∈ slotNames r then _ else _
      rw [ih]
      split <;> rfl
    | slot n =>
      show (if String.ofList n = name then value.map .char ++ (r ++ back)
        else .slot n :: fillOne name value (r ++ back)) = if name ∈ String.ofList n :: slotNames r then _ else _
      by_cases hn : String.ofList n = name
      · rw [if_pos hn, if_pos (List.mem_cons.mpr (Or.inl hn.symm)), fillOne, if_pos hn,
          List.append_assoc]
      · have hmem : name ∈ String.ofList n :: slotNames r ↔ name ∈ slotNames r :=
          List.mem_cons.trans (or_iff_right (Ne.symm hn))
        rw [if_neg hn, ih, fillOne, if_neg hn]
        simp only [hmem]
        split <;> rfl

theorem slotNames_append_slot (front back : List Piece) :
    slotNames (front ++ .slot changed.toList :: back)
      = slotNames front ++ changed :: slotNames back := by
  unfold slotNames
  rw [List.filterMap_append]
  show _ ++ String.ofList changed.toList :: _ = _
  rw [String.ofList_toList]

theorem count_erase_le {l r : List String} {n : String} (h : l.count n ≤ (name :: r).count n) :
    (l.erase name).count n ≤ r.count n := by
  rw [List.count_cons] at h
  rw [List.count_erase]
  omega

/-- While the last slot called `changed` waits, each name fills the first slot left with that name, so
long as `changed` comes as often as it has slots in front. -/
theorem fillEach_awaiting (h : Proper (front ++ .slot changed.toList :: back))
    (hlast : changed ∉ slotNames back) (hv : (lookup changed).isSome = true) {l : List String}
    (hplain : ∀ n ∈ l, ∀ v, lookup n = some v → v.Plain)
    (hnames : ∀ n ∈ l, ∀ c ∈ n.toList, isNameChar c = true)
    (hcount : ∀ n, (lookup n).isSome = true → (slotNames front ++ slotNames back).count n ≤ l.count n)
    (hchanged : l.count changed ≤ (slotNames front).count changed) :
    fillFirstChars (fillEach lookup l ((front ++ .slot changed.toList :: back).flatMap Piece.source))
        changed.toList value
      = fillPieces lookup front ++ (value ++ fillPieces lookup back) := by
  induction l generalizing front back with
  | nil =>
    -- the slots that are left have no value
    have hnone : ∀ n ∈ slotNames front ++ slotNames back, lookup n = none := by
      intro n hn
      rw [← Option.not_isSome_iff_eq_none]
      intro hs
      have hle := hcount n hs
      rw [List.count_nil, Nat.le_zero, List.count_eq_zero] at hle
      exact hle hn
    have hfront : changed ∉ slotNames front := by
      intro hm
      rw [hnone changed (List.mem_append_left _ hm)] at hv
      cases hv
    have hname : ∀ c ∈ changed.toList, isNameChar c = true :=
      h (.slot changed.toList) (List.mem_append_right _ List.mem_cons_self)
    show fillFirstChars ((front ++ _).flatMap Piece.source) _ _ = _
    rw [fillFirstChars_source h hname, fillOne_append, if_neg hfront, fillOne,
      if_pos String.ofList_toList, List.flatMap_append, List.flatMap_append, source_map_char,
      fillPieces_of_none fun n hn => hnone n (List.mem_append_left _ hn),
      fillPieces_of_none fun n hn => hnone n (List.mem_append_right _ hn)]
  | cons name r ih =>
    have hpr : ∀ n ∈ r, ∀ v, lookup n = some v → v.Plain := fun n hn =>
      hplain n (List.mem_cons_of_mem _ hn)
    have hr : ∀ n ∈ r, ∀ c ∈ n.toList, isNameChar c = true := fun n hn =>
      hnames n (List.mem_cons_of_mem _ hn)
    cases hlookup : lookup name with
    | none =>
      rw [fillEach_cons_of_none hlookup]
      refine ih h hlast hpr hr (fun n hs => ?_) (Nat.le_trans List.count_le_count_cons hchanged)
      have hne : name ≠ n := by
        rintro rfl
        rw [hlookup] at hs
        cases hs
      have hle := hcount n hs
      rwa [List.count_cons_of_ne hne] at hle
    | some v =>
      have hproper : Proper (fillOne name v.displayChars (front ++ .slot changed.toList :: back)) :=
        h.fillOne (hplain name List.mem_cons_self v hlookup)
      rw [fillEach_cons_of_some hlookup, fillFirstChars_source h (hnames name List.mem_cons_self)]
      by_cases hfront : name ∈ slotNames front
      · rw [fillOne_append, if_pos hfront] at hproper ⊢
        rw [ih hproper hlast hpr hr, fillPieces_fillOne hlookup]
        · intro n hs
          rw [slotNames_fillOne, ← List.erase_append_left _ hfront]
          exact count_erase_le (hcount n hs)
        · rw [slotNames_fillOne, List.count_erase]
          rw [List.count_cons] at hchanged
          omega
      · -- the name that changed has no more entries than slots in front, so this is another name
        have hne : name ≠ changed := by
          rintro rfl
          rw [List.count_cons_self, List.count_eq_zero.mpr hfront] at hchanged
          exact absurd hchanged (Nat.not_succ_le_zero _)
        have hslot : String.ofList changed.toList ≠ name := by
          rw [String.ofList_toList]
          exact Ne.symm hne
        rw [fillOne_append, if_neg hfront, fillOne, if_neg hslot] at hproper ⊢
        rw [ih hproper _ hpr hr, fillPieces_fillOne hlookup]
        · intro n hs
          rw [slotNames_fillOne, ← List.erase_append_right _ hfront]
          exact count_erase_le (hcount n hs)
        · rwa [List.count_cons_of_ne hne] at hchanged
        · rw [slotNames_fillOne]
          exact fun hm => hlast (List.mem_of_mem_erase hm)

theorem exists_last_slot {name : String} (h : name ∈ slotNames ps) :
    ∃ front back, ps = front ++ .slot name.toList :: back ∧ name ∉ slotNames back := by
  induction ps with
  | nil => cases h
  | cons p r ih =>
    by_cases hr : name ∈ slotNames r
    · obtain ⟨front, back, rfl, hback⟩ := ih hr
      exact ⟨p :: front, back, rfl, hback⟩
    · cases p with
      | char c => exact absurd h hr
      | slot n =>
        have hn : name = String.ofList n :=
          (List.mem_cons.mp (show name ∈ String.ofList n :: slotNames r from h)).resolve_right hr
        exact ⟨[], r, by rw [hn, String.toList_ofList]; rfl, hr⟩

/-- The text of a tidy template after any value was announced for one of its names that has a value.
The last slot of that name shows the value announced; all other slots are filled with the values there
are, and slots without one stay. -/
theorem render_announced {template : String} {all : List String} (value : Value) (h : Tidy template)
    (hall : names? template = some all) (hc : changed ∈ all) (hv : (lookup changed).isSome = true)
    (hplain : ∀ n ∈ all, ∀ v, lookup n = some v → v.Plain) :
    ∃ front back, pieces template.toList = front ++ .slot changed.toList :: back ∧
      changed ∉ slotNames back ∧
      render template all changed value lookup
        = String.ofList (fillPieces lookup front ++ (value.displayChars ++ fillPieces lookup back)) := by
  obtain rfl : names template = all := by
    unfold names? at hall
    split at hall
    · cases hall
    · exact Option.some.inj hall
  obtain ⟨front, back, hps, hlast⟩ := exists_last_slot (show changed ∈ slotNames (pieces _) from hc)
  have hsplit : names template = slotNames front ++ changed :: slotNames back := by
    rw [← slotNames_append_slot, ← hps]
    rfl
  have hperm : (names template).erase changed |>.Perm (slotNames front ++ slotNames back) := by
    rw [hsplit]
    exact (List.perm_middle.erase changed).trans (by rw [List.erase_cons_head])
  have hsub : ∀ n ∈ (names template).erase changed, n ∈ names template := fun n hn =>
    List.mem_of_mem_erase hn
  refine ⟨front, back, hps, hlast, ?_⟩
  have hchanged : ((names template).erase changed).count changed ≤ (slotNames front).count changed := by
    rw [hperm.count_eq, List.count_append, List.count_eq_zero.mpr hlast]
    exact Nat.le_refl _
  have hfill : fillFirstChars (fillEach lookup ((names template).erase changed) template.toList)
      changed.toList value.displayChars
        = fillPieces lookup front ++ (value.displayChars ++ fillPieces lookup back) := by
    rw [← source_pieces template.toList, hps]
    exact fillEach_awaiting (hps ▸ h.proper) hlast hv (fun n hn => hplain n (hsub n hn))
      (fun n hn => isNameChar_of_mem_names (hsub n hn)) (fun n _ => Nat.le_of_eq (hperm.count_eq n).symm)
      hchanged
  exact congrArg String.ofList hfill

def storedLetters : String → Option Value
  | "a" => some (.text "old")
  | "b" => some (.int 2)
  | _ => none

theorem announced_for_three_slots :
    ∃ front back, pieces "${a}${b}${a}/${c}${a}${b}".toList = front ++ .slot ['a'] :: back ∧
      "a" ∉ slotNames back ∧
      render "${a}${b}${a}/${c}${a}${b}" ["a", "b", "a", "c", "a", "b"] "a" (.text "new") storedLetters
        = String.ofList (fillPieces storedLetters front
            ++ ("new".toList ++ fillPieces storedLetters back)) := by
  have hplain : ∀ n ∈ ["a", "b", "a", "c", "a", "b"], ∀ v ∈ storedLetters n, v.Plain := by
    decide +kernel
  have htidy : Tidy "${a}${b}${a}/${c}${a}${b}" := by decide +kernel
  have hnames : names? "${a}${b}${a}/${c}${a}${b}" = some ["a", "b", "a", "c", "a", "b"] := by
    decide +kernel
  have hvalue : (storedLetters "a").isSome = true := rfl
  exact render_announced (.text "new") htidy hnames (by decide) hvalue fun n hn v hv => hplain n hn v hv

example : render "${a}${b}${a}/${c}${a}${b}" ["a", "b", "a", "c", "a", "b"] "a" (.text "new")
    storedLetters = "old2old/${c}new2" := by decide +kernel

end Bindery.Template
