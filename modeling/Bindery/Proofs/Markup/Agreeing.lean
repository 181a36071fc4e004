import Bindery.Proofs.Markup.Placing

/-!
# Tags on which both readings agree

The attributes of a tag are read by one reader, and their names are searched for by another.  The two do
not stop at the same characters.  They agree on a tag that is written plainly: its names have no `/` in
them, a bare value has none either, and behind a name without a value comes what only the search takes
for a blank, or the end of the tag.

* `Token.Assigned`               what stands between a name and the next one
* `Token.Plain`                  the attributes of a tag, written plainly
* `PlainTag`                     a whole tag
* `PlainTag.readTag`             the attributes that are read are those that are written
* `PlainTag.writtenOrder`        and so are the names that are found
-/

namespace Bindery

open Text (takeWhile_append_stop dropWhile_append_stop isBlank isAsciiBlank trimStart)
open WrittenOrder (namesFrom afterName afterValue isSeparator endsName endsValue afterValue_quoted
  namesFrom_part namesFrom_congr namesFrom_end)

namespace Token

/-! ## How a tag is written -/

def Blanks (b : List Char) : Prop := ∀ c ∈ b, isTagBlank c = true

instance (b : List Char) : Decidable (Blanks b) :=
  decidable_of_iff (b.all isTagBlank = true) List.all_eq_true

/-- A name that is one name for both readers. -/
structure IsWhole (name : List Char) : Prop where
  nonempty : name ≠ []
  chars : ∀ c ∈ name, isNameChar c = true
  whole : '/' ∉ name

instance (name : List Char) : Decidable (IsWhole name) :=
  decidable_of_iff (name ≠ [] ∧ name.all isNameChar = true ∧ '/' ∉ name)
    ⟨fun h => ⟨h.1, List.all_eq_true.mp h.2.1, h.2.2⟩,
      fun h => ⟨h.nonempty, List.all_eq_true.mpr h.chars, h.whole⟩⟩

/-- A value that needs no quotes. -/
structure IsBare (value : List Char) : Prop where
  chars : ∀ c ∈ value, isAsciiBlank c = false ∧ c ≠ '/' ∧ c ≠ '>'
  head : ∀ c ∈ value.head?, isBlank c = false ∧ c ≠ '"' ∧ c ≠ '\''

instance (value : List Char) : Decidable (IsBare value) :=
  decidable_of_iff
    ((value.all fun c => !isAsciiBlank c && c != '/' && c != '>') = true ∧
      (value.head?.all fun c => !isBlank c && c != '"' && c != '\'') = true)
    (by
      simp only [List.all_eq_true, Option.all_eq_true, Bool.and_eq_true, Bool.not_eq_true', bne_iff_ne,
        and_assoc]
      exact ⟨fun h => ⟨h.1, h.2⟩, fun h => ⟨h.chars, h.head⟩⟩)

/-- What stands behind a name, up to the rest `s` of the tag, and the value that it gives. -/
inductive Assigned (s : List Char) : List Char → Option (List Char) → Prop where
  | quoted {b b' value : List Char} {q : Char} : Blanks b → Blanks b' → q = '"' ∨ q = '\'' →
      q ∉ value → Assigned s (b ++ '=' :: (b' ++ q :: (value ++ [q]))) (some value)
  | bare {b b' value : List Char} {c : Char} : Blanks b → Blanks b' → value ≠ [] → IsBare value →
      isTagBlank c = true → Assigned s (b ++ '=' :: (b' ++ (value ++ [c]))) (some value)
  | bareLast {b b' value : List Char} : Blanks b → Blanks b' → IsBare value →
      (∃ c ∈ s.head?, endsAttributes c = true) → Assigned s (b ++ '=' :: (b' ++ value)) (some value)
  | missing {b : List Char} {c : Char} : Blanks b → isAsciiBlank c = true → isTagBlank c = false →
      Assigned s (b ++ [c]) none
  | missingLast {b : List Char} : Blanks b → s.head? = some '>' ∨ b ≠ [] ∧ s.head? = some '/' →
      Assigned s b none

/-- What stands behind the name of a tag, up to its end, and the attributes that it gives. -/
inductive Plain : List Char → List WrittenAttribute → Prop where
  | close {b e : List Char} : Blanks b → e = ['>'] ∨ e = ['/', '>'] → Plain (b ++ e) []
  | entry {b name t s : List Char} {value? : Option (List Char)} {l : List WrittenAttribute} :
      Blanks b → IsWhole name → Assigned s t value? → Plain s l →
      Plain (b ++ (name ++ (t ++ s))) (⟨name, value?⟩ :: l)

/-! ## Blanks -/

theorem isAsciiBlank_of_isTagBlank {c : Char} (h : isTagBlank c = true) : isAsciiBlank c = true := by
  simp only [isTagBlank, Bool.or_eq_true, beq_iff_eq] at h
  rcases h with rfl | rfl <;> decide

theorem isTagBlank_of_not_isBlank {c : Char} (h : isBlank c = false) : isTagBlank c = false := by
  rw [← Bool.not_eq_true]
  intro hc
  rw [Text.isBlank_of_isAsciiBlank (isAsciiBlank_of_isTagBlank hc)] at h
  cases h

/-- A blank does not end the attributes, and nothing of it stays behind. -/
theorem stepped_of_isAsciiBlank {c : Char} (h : isAsciiBlank c = true) :
    endsAttributes c = false ∧ strays c = 0 := by
  simp only [isAsciiBlank, Bool.or_eq_true, beq_iff_eq] at h
  rcases h with (((rfl | rfl) | rfl) | rfl) | rfl <;> decide

namespace Blanks

variable {b r : List Char} {c : Char}

theorem skipBlanks (h : Blanks b) (hc : isTagBlank c = false) :
    skipBlanks (b ++ c :: r) = c :: r := dropWhile_append_stop h hc

theorem trimStart (h : Blanks b) (hc : isBlank c = false) : trimStart (b ++ c :: r) = c :: r :=
  dropWhile_append_stop
    (fun d hd => Text.isBlank_of_isAsciiBlank (isAsciiBlank_of_isTagBlank (h d hd))) hc

theorem trimStart_append (h : Blanks b) (s : List Char) :
    Text.trimStart (b ++ s) = Text.trimStart s :=
  List.dropWhile_append_of_pos
    fun d hd => Text.isBlank_of_isAsciiBlank (isAsciiBlank_of_isTagBlank (h d hd))

theorem namesFrom_append (h : Blanks b) (s : List Char) : namesFrom (b ++ s) = namesFrom s := by
  refine namesFrom_congr (List.dropWhile_append_of_pos fun d hd => ?_)
  rw [isSeparator, isAsciiBlank_of_isTagBlank (h d hd), Bool.true_or]

end Blanks

/-- The rest of a tag: blanks, and then a name or the end of the tag. -/
def Goes (s : List Char) : Prop :=
  ∃ b c r, s = b ++ c :: r ∧ Blanks b ∧
    (isNameChar c = true ∧ c ≠ '/' ∨ c = '>' ∨ c = '/' ∧ r.head? = some '>')

theorem IsWhole.exists_cons {name : List Char} (h : IsWhole name) :
    ∃ c r, name = c :: r ∧ isNameChar c = true ∧ c ≠ '/' := by
  obtain ⟨c, r, rfl⟩ := List.exists_cons_of_ne_nil h.nonempty
  exact ⟨c, r, rfl, h.chars c List.mem_cons_self, fun hc => h.whole (hc ▸ List.mem_cons_self)⟩

theorem Plain.goes {s : List Char} {l : List WrittenAttribute} (h : Plain s l) (after : List Char) :
    Goes (s ++ after) := by
  cases h with
  | @close b e hb he =>
    rcases he with rfl | rfl
    · exact ⟨b, '>', after, by simp, hb, Or.inr (Or.inl rfl)⟩
    · exact ⟨b, '/', '>' :: after, by simp, hb, Or.inr (Or.inr ⟨rfl, rfl⟩)⟩
  | @entry b name t s value? l hb hn ht hs =>
    obtain ⟨c, r, rfl, hc⟩ := hn.exists_cons
    exact ⟨b, c, r ++ (t ++ (s ++ after)), by simp, hb, Or.inl hc⟩

namespace Goes

variable {s : List Char}

theorem namesFrom_afterName (h : Goes s) : namesFrom (afterName s) = namesFrom s := by
  obtain ⟨b, c, r, rfl, hb, hc⟩ := h
  have hblank : isBlank c = false := by
    rcases hc with ⟨hc, -⟩ | rfl | ⟨rfl, -⟩
    · exact Text.not_isBlank_of_isNameChar hc
    · decide
    · decide
  have heq : c ≠ '=' := by
    rcases hc with ⟨hc, -⟩ | rfl | ⟨rfl, -⟩
    · exact ne_of_isNameChar hc (by decide) (by decide)
    · decide
    · decide
  have hkept : afterName (b ++ c :: r) = c :: r := by
    unfold afterName
    rw [hb.trimStart hblank]
    split
    · rename_i r' hr
      exact absurd (List.cons.inj hr).1 heq
    · rfl
  rw [hkept, hb.namesFrom_append]

theorem of_slash (h : Goes s) (hs : s.head? = some '/') : ∃ r, s = '/' :: '>' :: r := by
  obtain ⟨b, c, r, rfl, hb, hc⟩ := h
  cases b with
  | nil =>
    obtain rfl : c = '/' := Option.some.inj hs
    obtain ⟨r', rfl⟩ := List.head?_eq_some_iff.mp
      (hc.elim (fun hc => absurd rfl hc.2) fun hc => (hc.resolve_left (by decide)).2)
    exact ⟨r', rfl⟩
  | cons d b =>
    obtain rfl : d = '/' := Option.some.inj hs
    exact absurd (hb _ List.mem_cons_self) (by decide)

end Goes

/-! ## One attribute -/

theorem splitAssignment_of_value {s r : List Char} (h : skipBlanks s = '=' :: r) :
    splitAssignment s = (some (splitValue (skipBlanks r)).1, (splitValue (skipBlanks r)).2) := by
  unfold splitAssignment
  rw [h]
  rfl

theorem splitAssignment_of_none {s r : List Char} {c : Char} (h : skipBlanks s = c :: r)
    (hc : c ≠ '=') : splitAssignment s = (none, c :: r) := by
  unfold splitAssignment
  rw [h]
  split
  · rename_i r' hr
    exact absurd (List.cons.inj hr).1 hc
  · rfl

theorem afterName_of_value {s r : List Char} (h : trimStart s = '=' :: r) :
    afterName s = afterValue (trimStart r) := by
  unfold afterName
  rw [h]
  rfl

namespace IsBare

variable {value r : List Char} {c : Char}

theorem exists_cons (hv : IsBare value) (hempty : value = [] → endsAttributes c = true) :
    ∃ d r', value ++ c :: r = d :: r' ∧ isBlank d = false ∧ ¬ (d = '"' ∨ d = '\'') := by
  cases value with
  | nil =>
    have hend := hempty rfl
    simp only [endsAttributes, Bool.or_eq_true, beq_iff_eq] at hend
    refine ⟨c, r, rfl, ?_⟩
    rcases hend with rfl | rfl <;> decide
  | cons d value =>
    obtain ⟨hblank, hdouble, hsingle⟩ := hv.head d rfl
    exact ⟨d, value ++ c :: r, rfl, hblank, not_or.mpr ⟨hdouble, hsingle⟩⟩

theorem splitValue (hv : IsBare value) (hempty : value = [] → endsAttributes c = true)
    (hc : (isTagBlank c || endsAttributes c) = true) {b : List Char} (hb : Blanks b) :
    splitValue (skipBlanks (b ++ (value ++ c :: r))) = (value, c :: r) := by
  have hin : ∀ d ∈ value, (!(isTagBlank d || endsAttributes d)) = true := by
    intro d hd
    obtain ⟨hblank, hslash, hend⟩ := hv.chars d hd
    have htag : isTagBlank d = false := by
      rw [← Bool.not_eq_true]
      intro ht
      rw [isAsciiBlank_of_isTagBlank ht] at hblank
      cases hblank
    simp [htag, endsAttributes, hslash, hend]
  have hstop : (!(isTagBlank c || endsAttributes c)) = false := by rw [hc, Bool.not_true]
  have htake := takeWhile_append_stop (r := r) hin hstop
  have hdrop := dropWhile_append_stop (r := r) hin hstop
  obtain ⟨d, r', hr, hblank, hquote⟩ := exists_cons (r := r) hv hempty
  rw [hr] at htake hdrop ⊢
  rw [hb.skipBlanks (isTagBlank_of_not_isBlank hblank), Token.splitValue, if_neg hquote]
  exact Prod.ext htake hdrop

theorem afterValue (hv : IsBare value) (hempty : value = [] → endsAttributes c = true)
    {b : List Char} (hb : Blanks b) :
    afterValue (trimStart (b ++ (value ++ c :: r))) = (c :: r).dropWhile fun d => !endsValue d := by
  have hin : ∀ d ∈ value, (!endsValue d) = true := by
    intro d hd
    obtain ⟨hblank, -, hend⟩ := hv.chars d hd
    simp [endsValue, hblank, hend]
  have hdrop : (value ++ c :: r).dropWhile (fun d => !endsValue d)
      = (c :: r).dropWhile fun d => !endsValue d := List.dropWhile_append_of_pos hin
  obtain ⟨d, r', hr, hblank, hquote⟩ := exists_cons (r := r) hv hempty
  rw [hr] at hdrop ⊢
  rw [hb.trimStart hblank, WrittenOrder.afterValue, if_neg hquote]
  exact hdrop

end IsBare

namespace Assigned

variable {s t : List Char} {value? : Option (List Char)}

/-- The reader takes the value and then stands at the end of the tag, or in front of one character that
it steps over. -/
theorem splitAssignment (h : Assigned s t value?) :
    ∃ d after, splitAssignment (t ++ s) = (value?, d :: after) ∧
      (endsAttributes d = true ∧ d :: after = s ∨
        endsAttributes d = false ∧ strays d = 0 ∧ after = s) := by
  cases h with
  | @quoted b b' value q hb hb' hq hv =>
    have hblank : isTagBlank q = false := by rcases hq with rfl | rfl <;> decide
    refine ⟨q, s, ?_, Or.inr ⟨?_, ?_, rfl⟩⟩
    · rw [List.append_assoc, List.cons_append, List.append_assoc, List.cons_append,
        List.append_assoc, List.singleton_append,
        splitAssignment_of_value (hb.skipBlanks (by decide)), hb'.skipBlanks hblank,
        splitValue_quoted hq hv]
    · rcases hq with rfl | rfl <;> decide
    · rcases hq with rfl | rfl <;> decide
  | @bare b b' value c hb hb' hne hv hc =>
    have hread := hv.splitValue (c := c) (r := s) (fun h => absurd h hne) (by rw [hc, Bool.true_or]) hb'
    obtain ⟨hends, hstrays⟩ := stepped_of_isAsciiBlank (isAsciiBlank_of_isTagBlank hc)
    refine ⟨c, s, ?_, Or.inr ⟨hends, hstrays, rfl⟩⟩
    rw [List.append_assoc, List.cons_append, List.append_assoc, List.append_assoc,
      List.singleton_append, splitAssignment_of_value (hb.skipBlanks (by decide)), hread]
  | @bareLast b b' value hb hb' hv hs =>
    obtain ⟨c, hhead, hc⟩ := hs
    obtain ⟨r, rfl⟩ := List.head?_eq_some_iff.mp hhead
    have hread := hv.splitValue (r := r) (fun _ => hc) (by rw [hc, Bool.or_true]) hb'
    refine ⟨c, r, ?_, Or.inl ⟨hc, rfl⟩⟩
    rw [List.append_assoc, List.cons_append, List.append_assoc,
      splitAssignment_of_value (hb.skipBlanks (by decide)), hread]
  | @missing b c hb hc hblank =>
    obtain ⟨hends, hstrays⟩ := stepped_of_isAsciiBlank hc
    refine ⟨c, s, ?_, Or.inr ⟨hends, hstrays, rfl⟩⟩
    rw [List.append_assoc, List.singleton_append, splitAssignment_of_none (hb.skipBlanks hblank)]
    rintro rfl
    exact absurd hc (by decide)
  | missingLast hb hs =>
    obtain ⟨c, hhead, hc⟩ : ∃ c, s.head? = some c ∧ (c = '>' ∨ c = '/') :=
      hs.elim (fun hs => ⟨_, hs, Or.inl rfl⟩) fun hs => ⟨_, hs.2, Or.inr rfl⟩
    obtain ⟨r, rfl⟩ := List.head?_eq_some_iff.mp hhead
    have hblank : isTagBlank c = false := by rcases hc with rfl | rfl <;> decide
    refine ⟨c, r, splitAssignment_of_none (hb.skipBlanks hblank) ?_, Or.inl ⟨?_, rfl⟩⟩
    · rcases hc with rfl | rfl <;> decide
    · rcases hc with rfl | rfl <;> decide

theorem exists_of_blanks {b r : List Char} {c : Char} (hb : Blanks b)
    (hc : endsName c = true ∧ (b = [] → isNameChar c = false)) :
    ∃ d r', b ++ c :: r = d :: r' ∧ endsName d = true ∧ isNameChar d = false := by
  cases b with
  | nil => exact ⟨c, r, rfl, hc.1, hc.2 rfl⟩
  | cons d b =>
    have hd := hb d List.mem_cons_self
    refine ⟨d, b ++ c :: r, rfl, ?_, ?_⟩
    · simp [endsName, isAsciiBlank_of_isTagBlank hd]
    · rw [← Bool.not_eq_true]
      intro hn
      rw [not_isTagBlank_of_isNameChar hn] at hd
      cases hd

theorem exists_cons (h : Assigned s t value?) :
    ∃ d r, t ++ s = d :: r ∧ endsName d = true ∧ isNameChar d = false := by
  cases h with
  | quoted hb =>
    rw [List.append_assoc]
    exact exists_of_blanks hb ⟨by decide, fun _ => by decide⟩
  | bare hb =>
    rw [List.append_assoc]
    exact exists_of_blanks hb ⟨by decide, fun _ => by decide⟩
  | bareLast hb =>
    rw [List.append_assoc]
    exact exists_of_blanks hb ⟨by decide, fun _ => by decide⟩
  | @missing b c hb hc hblank =>
    rw [List.append_assoc]
    refine exists_of_blanks hb ⟨by simp [endsName, hc], fun _ => ?_⟩
    rw [← Bool.not_eq_true]
    intro hn
    have hblank := Text.isBlank_of_isAsciiBlank hc
    rw [Text.not_isBlank_of_isNameChar hn] at hblank
    cases hblank
  | missingLast hb hs =>
    rcases hs with hs | ⟨hne, hs⟩
    · obtain ⟨r, rfl⟩ := List.head?_eq_some_iff.mp hs
      exact exists_of_blanks hb ⟨by decide, fun _ => by decide⟩
    · obtain ⟨r, rfl⟩ := List.head?_eq_some_iff.mp hs
      exact exists_of_blanks hb ⟨by decide, fun h => absurd h hne⟩

theorem namesFrom_afterName (h : Assigned s t value?) (hs : Goes s) :
    namesFrom (afterName (t ++ s)) = namesFrom s := by
  cases h with
  | @quoted b b' value q hb hb' hq hv =>
    have hblank : isBlank q = false := by rcases hq with rfl | rfl <;> decide
    rw [List.append_assoc, List.cons_append, List.append_assoc, List.cons_append, List.append_assoc,
      List.singleton_append, afterName_of_value (hb.trimStart (by decide)), hb'.trimStart hblank,
      afterValue_quoted hq hv]
  | @bare b b' value c hb hb' hne hv hc =>
    have hends : (!endsValue c) = false := by
      rw [endsValue, isAsciiBlank_of_isTagBlank hc]
      rfl
    have hsep : Blanks [c] := List.forall_mem_singleton.mpr hc
    rw [List.append_assoc, List.cons_append, List.append_assoc, List.append_assoc,
      List.singleton_append, afterName_of_value (hb.trimStart (by decide)),
      hv.afterValue (fun h => absurd h hne) hb',
      List.dropWhile_cons_of_neg (by rw [hends]; decide)]
    exact hsep.namesFrom_append s
  | @bareLast b b' value hb hb' hv hlast =>
    obtain ⟨c, hhead, hc⟩ := hlast
    obtain ⟨r, rfl⟩ := List.head?_eq_some_iff.mp hhead
    rw [List.append_assoc, List.cons_append, List.append_assoc,
      afterName_of_value (hb.trimStart (by decide)), hv.afterValue (fun _ => hc) hb']
    simp only [endsAttributes, Bool.or_eq_true, beq_iff_eq] at hc
    rcases hc with rfl | rfl
    · -- the search takes the `/` for a part of the value
      obtain ⟨r', hr⟩ := hs.of_slash rfl
      obtain ⟨-, rfl⟩ := List.cons.inj hr
      have hskip : namesFrom ('/' :: '>' :: r') = namesFrom ('>' :: r') := namesFrom_congr rfl
      rw [hskip]
      rfl
    · rfl
  | @missing b c hb hc hblank =>
    have htrim : afterName (b ++ [c] ++ s) = afterName s := by
      have hskip : trimStart (b ++ [c] ++ s) = trimStart s := by
        rw [List.append_assoc, hb.trimStart_append]
        exact List.dropWhile_cons_of_pos (Text.isBlank_of_isAsciiBlank hc)
      unfold afterName
      rw [hskip]
    rw [htrim, hs.namesFrom_afterName]
  | missingLast hb =>
    have htrim : afterName (t ++ s) = afterName s := by
      unfold afterName
      rw [hb.trimStart_append]
    rw [htrim, hs.namesFrom_afterName]

end Assigned

/-! ## All attributes -/

/-- What stands behind the rest of a tag does not matter for what stands in front. -/
theorem Assigned.append {s t : List Char} {value? : Option (List Char)} (h : Assigned s t value?)
    (hs : s ≠ []) (after : List Char) : Assigned (s ++ after) t value? := by
  have hhead : (s ++ after).head? = s.head? := List.head?_append_of_ne_nil s hs
  cases h with
  | quoted hb hb' hq hv => exact .quoted hb hb' hq hv
  | bare hb hb' hne hv hc => exact .bare hb hb' hne hv hc
  | bareLast hb hb' hv hlast => exact .bareLast hb hb' hv (hhead ▸ hlast)
  | missing hb hc hblank => exact .missing hb hc hblank
  | missingLast hb hlast => exact .missingLast hb (hhead ▸ hlast)

namespace IsWhole

variable {name s t : List Char} {value? : Option (List Char)}

theorem nameRun (h : IsWhole name) : IsNameRun name where
  chars := h.chars
  head _ hc hs := h.whole (hs ▸ List.mem_of_mem_head? hc)

theorem splitAttributes (hn : IsWhole name) {b : List Char} (hb : Blanks b)
    (h : Assigned s t value?) :
    splitAttributes (b ++ (name ++ (t ++ s)))
      = (splitAttributes s).map fun l => (⟨name, value?⟩ :: l.1, l.2) := by
  obtain ⟨d, after, hread, hd⟩ := h.splitAssignment
  obtain ⟨d', r', hrest, -, hstop⟩ := h.exists_cons
  obtain ⟨c, q, hname, hc, hslash⟩ := hn.exists_cons
  have htake := hn.nameRun.takeWhile hstop r'
  have hdrop := hn.nameRun.dropWhile hstop r'
  rw [← hrest, hname, List.cons_append] at htake hdrop
  rw [hname, List.cons_append, splitAttributes_step (hb.skipBlanks (not_isTagBlank_of_isNameChar hc))
    (not_endsAttributes_of_isNameChar hc hslash) htake (hdrop ▸ hread)]
  rcases hd with ⟨hends, rfl⟩ | ⟨hends, hstrays, rfl⟩
  · rw [if_pos hends]
  · rw [if_neg (by rw [hends]; decide), strayAttributes, hstrays]
    rfl

theorem namesFrom (hn : IsWhole name) {b : List Char} (hb : Blanks b) (h : Assigned s t value?)
    (hs : Goes s) :
    namesFrom (b ++ (name ++ (t ++ s))) = Text.lower (String.ofList name) :: namesFrom s := by
  obtain ⟨d, r, hrest, hends, -⟩ := h.exists_cons
  have hpast := h.namesFrom_afterName hs
  rw [hrest] at hpast ⊢
  rw [hb.namesFrom_append, namesFrom_part hn.nonempty hn.chars hn.whole hends, hpast]

end IsWhole

namespace Plain

variable {s : List Char} {l : List WrittenAttribute}

theorem ne_nil (h : Plain s l) : s ≠ [] := by
  cases h with
  | close _ he => rcases he with rfl | rfl <;> simp
  | entry _ hn _ _ => exact fun hs => hn.nonempty (by simp_all)

theorem splitAttributes (h : Plain s l) :
    ∃ e, (e = ['>'] ∨ e = ['/', '>']) ∧
      ∀ after, splitAttributes (s ++ after) = some (l, e ++ after) := by
  induction h with
  | @close b e hb he =>
    refine ⟨e, he, fun after => ?_⟩
    rcases he with rfl | rfl
    · rw [List.append_assoc]
      exact splitAttributes_of_end (hb.skipBlanks (by decide)) (by decide)
    · rw [List.append_assoc]
      exact splitAttributes_of_end (hb.skipBlanks (by decide)) (by decide)
  | @entry b name t s value? l hb hn ht hs ih =>
    obtain ⟨e, he, hread⟩ := ih
    refine ⟨e, he, fun after => ?_⟩
    rw [List.append_assoc, List.append_assoc, List.append_assoc,
      hn.splitAttributes hb (ht.append hs.ne_nil after), hread]
    rfl

theorem namesFrom (h : Plain s l) (after : List Char) :
    namesFrom (s ++ after) = l.map WrittenAttribute.key := by
  induction h with
  | @close b e hb he =>
    rw [List.append_assoc, hb.namesFrom_append]
    rcases he with rfl | rfl
    · exact namesFrom_end after
    · have hskip : WrittenOrder.namesFrom ('/' :: '>' :: after)
          = WrittenOrder.namesFrom ('>' :: after) := namesFrom_congr rfl
      exact hskip.trans (namesFrom_end after)
  | @entry b name t s value? l hb hn ht hs ih =>
    rw [List.append_assoc, List.append_assoc, List.append_assoc,
      hn.namesFrom hb (ht.append hs.ne_nil after) (hs.goes after), ih]
    rfl

end Plain

end Token

/-! ## Whole tags -/

/-- An opening tag that is written plainly, with the attributes that it gives. -/
def PlainTag (source tag : List Char) (l : List WrittenAttribute) : Prop :=
  ∃ d r, source = '<' :: (tag ++ d :: r) ∧ Token.IsWhole tag ∧
    (Token.isTagBlank d = true ∨ d = '>') ∧ Token.Plain (d :: r) l

namespace PlainTag

variable {source tag : List Char} {l : List WrittenAttribute}

/-- The names that are found in a plain tag are those that it gives, whatever stands behind it. -/
theorem writtenOrder (h : PlainTag source tag l) (more : List Char) :
    writtenOrder (source ++ more) = l.map WrittenAttribute.key := by
  obtain ⟨d, r, rfl, htag, hd, hplain⟩ := h
  have hown : tag.dropWhile (· ≠ '/') = [] :=
    List.dropWhile_eq_nil_iff.mpr fun c hc => decide_eq_true fun hs => htag.whole (hs ▸ hc)
  rw [List.cons_append, List.append_assoc, List.cons_append,
    writtenOrder_tag htag.nameRun (hd.imp_left Token.isAsciiBlank_of_isTagBlank), hown]
  exact hplain.namesFrom more

/-- A plain tag is read whole, and gives the attributes that are written. -/
theorem readTag (h : PlainTag source tag l) :
    ∃ inside selfClosing, source = '<' :: inside ∧
      ∀ after, Token.readTag (inside ++ after) = (.opening tag l selfClosing, 0, after) := by
  obtain ⟨d, r, rfl, htag, hd, hplain⟩ := h
  obtain ⟨e, he, hread⟩ := hplain.splitAttributes
  have hstop : Token.isNameChar d = false := by
    rcases hd with hd | rfl
    · rw [← Bool.not_eq_true]
      intro hn
      rw [Token.not_isTagBlank_of_isNameChar hn] at hd
      cases hd
    · decide
  have hbang : d ≠ '!' := by
    rintro rfl
    exact absurd hd (by decide)
  have hskip : ∀ after, Token.skipBlanks (tag ++ d :: r ++ after) = tag ++ d :: (r ++ after) := by
    intro after
    obtain ⟨c, q, rfl, hc, -⟩ := htag.exists_cons
    rw [List.append_assoc, List.cons_append, List.cons_append, Token.skipBlanks,
      List.dropWhile_cons_of_neg (by rw [Token.not_isTagBlank_of_isNameChar hc]; decide)]
    rfl
  refine ⟨tag ++ d :: r, ['/'].isPrefixOf e, rfl, fun after => ?_⟩
  refine Token.readTag_of_skipBlanks (hskip after) htag.nameRun hstop hbang ?_
  have hafter := hread after
  rw [List.cons_append] at hafter
  rw [Token.readOpening, hafter]
  rcases he with rfl | rfl <;> rfl

end PlainTag

/-- A lexeme that begins with `<` is what is read from there on. -/
theorem Lexeme.exists_readTag {strays : Nat} {s : List Char} {x : Lexeme} (hx : x ∈ read strays s)
    {inside : List Char} (h : x.source = '<' :: inside) :
    ∃ after, (Token.readTag (inside ++ after)).1 = x.token := by
  fun_induction Lexeme.read strays s with
  | case1 => cases hx
  | case2 =>
    rw [List.mem_singleton.mp hx] at h
    cases h
  | case3 strays c r hc tag ih =>
    rcases List.mem_cons.mp hx with rfl | hx
    · obtain ⟨front, hfront⟩ := (Token.readTag_suffix r).trans (List.suffix_cons c r)
      have hlen : (c :: r).length - tag.2.2.length = front.length := by
        rw [← hfront, List.length_append]
        exact Nat.add_sub_cancel _ _
      have hsource : front = '<' :: inside := by
        rw [← h]
        show front = (c :: r).take ((c :: r).length - tag.2.2.length)
        rw [hlen, ← hfront, List.take_left]
      rw [hsource, List.cons_append] at hfront
      exact ⟨tag.2.2, by rw [(List.cons.inj hfront).2]⟩
    · exact ih hx
  | case4 strays c r hc content ih =>
    rcases List.mem_cons.mp hx with rfl | hx
    · replace h : (c :: r).takeWhile (· ≠ '<') = '<' :: inside := h
      have hopen : '<' ∈ (c :: r).takeWhile (· ≠ '<') := h ▸ List.mem_cons_self
      have hne := List.mem_takeWhile_imp (p := fun d : Char => decide (d ≠ '<')) hopen
      exact absurd rfl (of_decide_eq_true hne)
    · exact ih hx

theorem PlainTag.token {s tag : List Char} {l : List WrittenAttribute} {x : Lexeme}
    (h : PlainTag x.source tag l) (hx : x ∈ Lexeme.ofText s) :
    ∃ selfClosing, x.token = .opening tag l selfClosing := by
  obtain ⟨inside, selfClosing, hsource, hread⟩ := h.readTag
  obtain ⟨after, htoken⟩ := Lexeme.exists_readTag hx hsource
  rw [hread] at htoken
  exact ⟨selfClosing, htoken.symm⟩

end Bindery
