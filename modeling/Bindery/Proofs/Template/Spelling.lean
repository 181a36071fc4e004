import Bindery.Proofs.Template.Filling

/-!
# Slots that values spell out

The text of a change is made name by name, and each time the first place that reads `${name}` is
filled.  A value put in earlier can read so itself: then the value is filled and the slot of the
template is left over.  What is left over depends on the name that changed, since that name comes last.

Nothing else can go wrong.  If no slot with a value is spelled out by the filled text in front of it,
the text of a change is the template with all its slots filled at once, whatever characters the
template and the values hold, and whichever name changed.

* `Template.Unspelled`          no slot is spelled out in front of it
* `fillEach_pending`            filling along the pieces while one slot waits for the name that changed
* `render_of_unspelled`         the text of a change is the template filled
-/

namespace Bindery.Template

/-- No slot whose name has a value is spelled out by the filled text in front of it. -/
def Unspelled (lookup : String → Option Value) (ps : List Piece) : Prop :=
  ∀ i, (h : i < ps.length) → ∀ n ∈ ps[i].name?, (lookup n).isSome = true →
    ¬ slotChars n.toList <:+: fillPieces lookup (ps.take i)

instance (lookup : String → Option Value) (ps : List Piece) : Decidable (Unspelled lookup ps) :=
  inferInstanceAs (Decidable (∀ i, (h : i < ps.length) → ∀ n ∈ ps[i].name?, _))

/-! ## Where a slot can stand -/

section
variable {n m front rest : List Char}

theorem dollar_not_mem (hn : ∀ c ∈ n, isNameChar c = true) : '$' ∉ '\x7b' :: n ++ ['\x7d'] := by
  intro h
  have hd : isNameChar '$' = false := not_isNameChar (Or.inl rfl)
  rcases List.mem_append.mp h with h | h
  · rcases List.mem_cons.mp h with h | h
    · exact absurd h (by decide)
    · rw [hn _ h] at hd
      cases hd
  · exact absurd (List.mem_singleton.mp h) (by decide)

theorem slotChars_prefix_of_append (hn : ∀ c ∈ n, isNameChar c = true) (hf : front ≠ [])
    (h : slotChars n <+: front ++ (slotChars m ++ rest)) : slotChars n <+: front := by
  rcases Nat.le_total (slotChars n).length front.length with hl | hl
  · exact List.prefix_of_prefix_length_le h (List.prefix_append _ _) hl
  · obtain ⟨t, ht⟩ := List.prefix_of_prefix_length_le (List.prefix_append _ _) h hl
    cases t with
    | nil =>
      rw [List.append_nil] at ht
      exact ht ▸ List.prefix_refl front
    | cons d t =>
      -- the rest of the slot would begin with the `$` of the other one
      rw [← ht, List.prefix_append_right_inj] at h
      obtain ⟨rfl, -⟩ := List.cons_prefix_cons.mp (show d :: t <+: '$' :: _ from h)
      obtain ⟨c, f, rfl⟩ := List.exists_cons_of_ne_nil hf
      have htail : f ++ '$' :: t = '\x7b' :: n ++ ['\x7d'] := (List.cons.inj ht).2
      refine absurd ?_ (dollar_not_mem hn)
      rw [← htail]
      exact List.mem_append_right _ List.mem_cons_self

theorem infix_of_clean_append (hf : '$' ∉ front) (h : slotChars n <:+: front ++ rest) :
    slotChars n <:+: rest := by
  induction front with
  | nil => exact h
  | cons c r ih =>
    rcases List.infix_cons_iff.mp h with h | h
    · obtain ⟨hc, -⟩ := List.cons_prefix_cons.mp (show '$' :: _ <+: c :: (r ++ rest) from h)
      exact absurd (hc ▸ List.mem_cons_self) hf
    · exact ih (fun hm => hf (List.mem_cons_of_mem _ hm)) h

/-- A slot in a text with another slot in it stands in front of that one or behind it. -/
theorem infix_of_append_slot (hn : ∀ c ∈ n, isNameChar c = true) (hm : ∀ c ∈ m, isNameChar c = true)
    (hne : n ≠ m) (h : slotChars n <:+: front ++ (slotChars m ++ rest)) :
    slotChars n <:+: front ∨ slotChars n <:+: rest := by
  induction front with
  | nil =>
    rcases List.infix_cons_iff.mp (show slotChars n <:+: '$' :: (('\x7b' :: m ++ ['\x7d']) ++ rest) from h)
      with h | h
    · have he := eq_of_slotChars_prefix hn hm h
      exact absurd he hne
    · exact Or.inr (infix_of_clean_append (dollar_not_mem hm) h)
  | cons c r ih =>
    rcases List.infix_cons_iff.mp h with h | h
    · exact Or.inl (slotChars_prefix_of_append hn (List.cons_ne_nil c r) h).isInfix
    · exact (ih h).imp_left fun h => h.trans (List.suffix_cons c r).isInfix

theorem fillFirstChars_append_slot (hn : ∀ c ∈ n, isNameChar c = true)
    (h : ¬ slotChars n <:+: front) (value : List Char) :
    fillFirstChars (front ++ (slotChars n ++ rest)) n value = front ++ (value ++ rest) := by
  induction front with
  | nil =>
    show Text.replaceFirst (slotChars n) value ('$' :: _) = _
    rw [Text.replaceFirst, if_pos]
    · show value ++ (slotChars n ++ rest).drop _ = _
      rw [List.drop_left]
      rfl
    · rw [List.isPrefixOf_iff_prefix]
      exact List.prefix_append (slotChars n) rest
  | cons c r ih =>
    have hr := ih fun hi => h (hi.trans (List.suffix_cons c r).isInfix)
    show Text.replaceFirst (slotChars n) value (c :: (r ++ (slotChars n ++ rest))) = c :: _
    rw [Text.replaceFirst, if_neg]
    · exact congrArg (c :: ·) hr
    · rw [List.isPrefixOf_iff_prefix]
      intro hp
      exact h (slotChars_prefix_of_append hn (List.cons_ne_nil c r) hp).isInfix

end

/-! ## Along the pieces -/

section
variable {lookup : String → Option Value} {ps front mid : List Piece} {n : List Char} {v : Value}

def Named (ps : List Piece) : Prop := ∀ n, Piece.slot n ∈ ps → ∀ c ∈ n, isNameChar c = true

theorem named_pieces (s : List Char) : Named (pieces s) := fun _ => isNameChar_of_slot_mem

theorem fillPieces_append (a b : List Piece) :
    fillPieces lookup (a ++ b) = fillPieces lookup a ++ fillPieces lookup b :=
  List.flatMap_append

theorem Unspelled.absent (h : Unspelled lookup (front ++ .slot n :: ps))
    (hv : lookup (String.ofList n) = some v) : ¬ slotChars n <:+: fillPieces lookup front := by
  have hi := h front.length (by simp) (String.ofList n) (by simp [Piece.name?]) (by simp [hv])
  rwa [String.toList_ofList, List.take_left] at hi

theorem fillEach_slot (hn : ∀ c ∈ n, isNameChar c = true) (hv : lookup (String.ofList n) = some v)
    {done : List Char} (h : ¬ slotChars n <:+: done) (rest : List Char) (names : List String) :
    fillEach lookup (String.ofList n :: names) (done ++ (slotChars n ++ rest))
      = fillEach lookup names (done ++ (v.displayChars ++ rest)) := by
  rw [fillEach_cons_of_some hv, String.toList_ofList, fillFirstChars_append_slot hn h]

theorem fillEach_along (front : List Piece) (hps : Named (front ++ ps))
    (h : Unspelled lookup (front ++ ps ++ mid)) (rest : List Char) (names : List String) :
    fillEach lookup (slotNames ps ++ names)
        (fillPieces lookup front ++ (ps.flatMap Piece.source ++ rest))
      = fillEach lookup names (fillPieces lookup (front ++ ps) ++ rest) := by
  -- one piece after the other moves to `front`, where it stands filled
  induction ps generalizing front with
  | nil =>
    rw [List.append_nil]
    rfl
  | cons p ps ih =>
    have he : front ++ p :: ps = (front ++ [p]) ++ ps := by simp
    rw [he] at h hps
    have ih := ih (front ++ [p]) hps h
    rw [fillPieces_append front [p]] at ih
    cases p with
    | char c =>
      rw [he, ← ih]
      show fillEach lookup (slotNames ps ++ names) _ = fillEach lookup _ ((_ ++ [c]) ++ _)
      simp [Piece.source]
    | slot n =>
      have hn := hps n (by simp)
      show fillEach lookup (String.ofList n :: (slotNames ps ++ names))
        (_ ++ ((slotChars n ++ ps.flatMap Piece.source) ++ rest)) = _
      rw [he, ← ih, List.append_assoc (slotChars n)]
      cases hv : lookup (String.ofList n) with
      | none =>
        rw [fillEach_cons_of_none hv, fillPieces_cons_of_none hv]
        simp [fillPieces]
      | some v =>
        rw [List.append_assoc, List.append_assoc] at h
        rw [fillEach_slot hn hv (h.absent hv), fillPieces_cons_of_some hv]
        simp [fillPieces]

/-- While a slot waits for the value announced, the names behind it fill their slots; a further slot
of the same name fills the one that waits and waits in its place. -/
theorem fillEach_pending (hps : Named (front ++ .slot n :: (mid ++ ps)))
    (h : Unspelled lookup (front ++ .slot n :: (mid ++ ps)))
    (hv : lookup (String.ofList n) = some v) :
    fillFirstChars (fillEach lookup (slotNames ps) (fillPieces lookup front
        ++ (slotChars n ++ (fillPieces lookup mid ++ ps.flatMap Piece.source)))) n v.displayChars
      = fillPieces lookup (front ++ .slot n :: (mid ++ ps)) := by
  have hn := hps n (by simp)
  induction ps generalizing front mid with
  | nil =>
    show fillFirstChars (_ ++ (slotChars n ++ (_ ++ []))) n v.displayChars = _
    rw [fillFirstChars_append_slot hn (h.absent hv), fillPieces_append,
      fillPieces_cons_of_some hv, fillPieces_append]
    rfl
  | cons p ps ih =>
    have he : mid ++ p :: ps = (mid ++ [p]) ++ ps := by simp
    rw [he] at h hps
    have ih' := ih hps h
    rw [fillPieces_append mid [p]] at ih'
    cases p with
    | char c =>
      rw [he, ← ih']
      show fillFirstChars (fillEach lookup (slotNames ps) _) _ _
        = fillFirstChars (fillEach lookup _ (_ ++ (_ ++ ((_ ++ [c]) ++ _)))) _ _
      simp [Piece.source]
    | slot m =>
      have hm := hps m (by simp)
      show fillFirstChars (fillEach lookup (String.ofList m :: slotNames ps)
        (_ ++ (slotChars n ++ (_ ++ (slotChars m ++ ps.flatMap Piece.source))))) n _ = _
      cases hw : lookup (String.ofList m) with
      | none =>
        rw [he, ← ih', fillEach_cons_of_none hw, fillPieces_cons_of_none hw]
        simp [fillPieces]
      | some w =>
        by_cases hmn : m = n
        · subst hmn
          obtain rfl : v = w := Option.some.inj (hv.symm.trans hw)
          -- the slot that waited is part of the filled text now
          have hs : front ++ .slot m :: ((mid ++ [.slot m]) ++ ps)
              = (front ++ .slot m :: mid) ++ .slot m :: ([] ++ ps) := by simp
          rw [fillEach_slot hn hv (h.absent hv), he, hs, ← ih (hs ▸ hps) (hs ▸ h),
            fillPieces_append front, fillPieces_cons_of_some hv]
          simp [fillPieces]
        · have hi : ¬ slotChars m <:+: fillPieces lookup front ++ (slotChars n ++ fillPieces lookup mid) := by
            intro hi
            have hs : front ++ .slot n :: ((mid ++ [.slot m]) ++ ps)
                = (front ++ .slot n :: mid) ++ .slot m :: ps := by simp
            have hno := (hs ▸ h).absent hw
            rw [fillPieces_append, fillPieces_cons_of_some hv] at hno
            rcases infix_of_append_slot hm hn hmn hi with hi | hi
            · exact hno (hi.trans (List.prefix_append _ _).isInfix)
            · exact hno (hi.trans ((List.suffix_append _ _).trans (List.suffix_append _ _)).isInfix)
          have hstep := fillEach_slot hm hw hi (ps.flatMap Piece.source) (slotNames ps)
          rw [he, ← ih', fillPieces_cons_of_some hw]
          simp only [List.append_assoc] at hstep ⊢
          rw [hstep]
          simp [fillPieces]

theorem exists_first_slot {name : String} (h : name ∈ slotNames ps) :
    ∃ front n rest, ps = front ++ .slot n :: rest ∧ String.ofList n = name ∧
      (slotNames ps).erase name = slotNames front ++ slotNames rest := by
  induction ps with
  | nil => cases h
  | cons p ps ih =>
    cases p with
    | char c =>
      obtain ⟨front, n, rest, rfl, hn, he⟩ := ih h
      exact ⟨.char c :: front, n, rest, rfl, hn, he⟩
    | slot m =>
      by_cases hm : String.ofList m = name
      · refine ⟨[], m, ps, rfl, hm, ?_⟩
        show (String.ofList m :: slotNames ps).erase name = slotNames ps
        rw [hm, List.erase_cons_head]
      · obtain ⟨front, n, rest, rfl, hn, he⟩ :=
          ih ((List.mem_cons.mp (show name ∈ String.ofList m :: slotNames ps from h)).resolve_left
            (Ne.symm hm))
        refine ⟨.slot m :: front, n, rest, rfl, hn, ?_⟩
        show (String.ofList m :: slotNames (front ++ .slot n :: rest)).erase name
          = String.ofList m :: (slotNames front ++ slotNames rest)
        rw [List.erase_cons_tail (by simpa using hm), he]

end

/-! ## The text of a change -/

/-- If no slot with a value is spelled out by the filled text in front of it, the text of a change is
the template with all its slots filled at once. -/
theorem render_of_unspelled {lookup : String → Option Value} {template changed : String} {value : Value}
    (hc : changed ∈ names template) (hv : lookup changed = some value)
    (h : Unspelled lookup (pieces template.toList)) :
    render template (names template) changed value lookup = fill lookup template := by
  obtain ⟨front, n, rest, hps, rfl, he⟩ := exists_first_slot (show changed ∈ slotNames (pieces _) from hc)
  have hnamed : Named (front ++ .slot n :: ([] ++ rest)) := hps ▸ named_pieces template.toList
  have hun : Unspelled lookup (front ++ .slot n :: ([] ++ rest)) := hps ▸ h
  have htext : template.toList
      = front.flatMap Piece.source ++ (slotChars n ++ rest.flatMap Piece.source) := by
    rw [← source_pieces template.toList, hps, List.flatMap_append]
    rfl
  have hbefore := fillEach_along [] (fun m hm => hnamed m (List.mem_append_left _ hm)) hun
    (slotChars n ++ rest.flatMap Piece.source) (slotNames rest)
  have hbehind := fillEach_pending hnamed hun hv
  have htotal : fillFirstChars (fillEach lookup (slotNames front ++ slotNames rest) template.toList) n
      value.displayChars = fillPieces lookup (front ++ .slot n :: rest) := by
    rw [htext]
    exact (congrArg (fillFirstChars · n value.displayChars) hbefore).trans hbehind
  show String.ofList (fillFirstChars (fillEach lookup ((slotNames (pieces template.toList)).erase _)
    template.toList) _ _) = String.ofList (fillPieces lookup (pieces template.toList))
  rw [he, String.toList_ofList, hps, htotal]

/-- Two values that hold slots and lone `$`, and slots of both names twice. -/
def guardedLookup : String → Option Value
  | "a" => some (.text "$${c}")
  | "b" => some (.text "${a} ${x}")
  | _ => none

theorem render_guarded :
    render "${a}$${c}${a}/${b}" (names "${a}$${c}${a}/${b}") "b" (.text "${a} ${x}") guardedLookup
      = fill guardedLookup "${a}$${c}${a}/${b}" :=
  render_of_unspelled (by decide +kernel) rfl (by decide +kernel)

/-- The first value spells the slot of the second name. -/
def crossedLookup : String → Option Value
  | "a" => some (.text "${b}")
  | "b" => some (.text "X")
  | _ => none

/-- A value that spells a slot behind it is filled in place of that slot if the name changed is the
one it spells, and is kept if the other name changed. -/
theorem spelled_slot_filled :
    render "${a}${b}" (names "${a}${b}") "b" (.text "X") crossedLookup = "X${b}" ∧
    render "${a}${b}" (names "${a}${b}") "a" (.text "${b}") crossedLookup = "${b}X" ∧
    fill crossedLookup "${a}${b}" = "${b}X" := by
  decide +kernel

end Bindery.Template
