import Mathlib.Data.List.TakeWhile
import Bindery.Markup.WrittenOrder
import Bindery.Proofs.Markup.Tags

/-!
# The names that a written tag spells

The names of a tag's attributes are found by a search of their own, which takes `/` for a separator.  In
a written tag it finds each attribute by the parts of its name between one `/` and the next, in front of
them all what the name of the tag itself spells behind a `/`, and nothing inside a value.

* `WrittenOrder.IsFoundName`        a name as the search gives it
* `WrittenOrder.Behind`             what can stand behind a name
* `WrittenOrder.spelled`            the names that a name spells
* `WrittenOrder.namesFrom_append`   a name, whatever stands behind it
* `writtenOrder_openingTag`         the names of a written tag
-/

namespace Bindery

open Text (tagMarks ne_of_isPlain takeWhile_append_stop dropWhile_append_stop)
open Token (isNameChar IsNameRun ne_of_isNameChar)

/-! ## The names in a tag -/

namespace Text

theorem toNat_of_isNameChar {c : Char} (h : isNameChar c = true) : 33 ≤ c.toNat ∧ c.toNat ≤ 122 := by
  have hupper : c.isUpper = decide (c.val ≥ 'A'.val ∧ c.val ≤ 'Z'.val) := rfl
  have hlower : c.isLower = (decide (c.val ≥ 'a'.val) && decide (c.val ≤ 'z'.val)) := rfl
  have halpha : c.isAlpha = (c.isUpper || c.isLower) := rfl
  simp only [isNameChar, Char.isAlphanum, halpha, hupper, hlower, Char.isDigit, ge_iff_le,
    Bool.or_eq_true, Bool.and_eq_true, decide_eq_true_eq, beq_iff_eq, UInt32.le_iff_toNat_le] at h
  rcases h with (((((((h | h) | h) | h) | h) | h) | h) | h)
  · exact ⟨Nat.le_trans (by decide) h.1, Nat.le_trans h.2 (by decide)⟩
  · exact ⟨Nat.le_trans (by decide) h.1, Nat.le_trans h.2 (by decide)⟩
  · exact ⟨Nat.le_trans (by decide) h.1, Nat.le_trans h.2 (by decide)⟩
  all_goals
    subst h
    decide

theorem not_isBlank_of_isNameChar {c : Char} (h : isNameChar c = true) : isBlank c = false := by
  obtain ⟨hlow, hhigh⟩ := toNat_of_isNameChar h
  simp only [isBlank, inRanges, blankRanges, List.any_cons, List.any_nil, Bool.or_false,
    Bool.or_eq_false_iff, Bool.and_eq_false_iff, decide_eq_false_iff_not]
  omega

end Text

namespace WrittenOrder

theorem not_isSeparator_of_isNameChar {c : Char} (h : isNameChar c = true) (hs : c ≠ '/') :
    isSeparator c = false := by
  have hne : ∀ d ∈ tagMarks, d ≠ '/' → c ≠ d := fun d hd hd' => ne_of_isNameChar h hd hd'
  simp [isSeparator, Text.isAsciiBlank, hs, hne ' ' (by decide) (by decide),
    hne '\t' (by decide) (by decide), hne '\n' (by decide) (by decide),
    hne '\x0c' (by decide) (by decide), hne '\r' (by decide) (by decide)]

theorem not_endsName_of_isNameChar {c : Char} (h : isNameChar c = true) (hs : c ≠ '/') :
    endsName c = false := by
  have hsep := not_isSeparator_of_isNameChar h hs
  rw [isSeparator, Bool.or_eq_false_iff] at hsep
  have heq : c ≠ '=' := ne_of_isNameChar h (by decide) (by decide)
  have hend : c ≠ '>' := ne_of_isNameChar h (by decide) (by decide)
  simp [endsName, hsep.1, hs, heq, hend]

theorem endsName_eq_false_iff {c : Char} :
    endsName c = false ↔ Text.isAsciiBlank c = false ∧ c ≠ '=' ∧ c ≠ '>' ∧ c ≠ '/' := by
  simp only [endsName, Bool.or_eq_false_iff, beq_eq_false_iff_ne, and_assoc]

theorem not_isSeparator_of_not_endsName {c : Char} (h : endsName c = false) : isSeparator c = false := by
  obtain ⟨hblank, _, _, hslash⟩ := endsName_eq_false_iff.mp h
  rw [isSeparator, hblank, Bool.false_or, beq_eq_false_iff_ne]
  exact hslash

/-- A quoted value is stepped over together with its quotes. -/
theorem afterValue_quoted {q : Char} (hq : q = '"' ∨ q = '\'') {value : List Char} (hv : q ∉ value)
    (after : List Char) : afterValue (q :: (value ++ q :: after)) = after := by
  have hall : ∀ c ∈ value, (c ≠ q : Bool) = true := fun c hc =>
    decide_eq_true fun he => hv (he ▸ hc)
  rw [afterValue, if_pos hq, dropWhile_append_stop hall (by simp)]
  rfl

theorem afterName_quoted {value : List Char} (hv : '"' ∉ value) (after : List Char) :
    afterName ('=' :: '"' :: value ++ '"' :: after) = after :=
  afterValue_quoted (Or.inl rfl) hv after

theorem afterName_of_isNameChar {c : Char} (hc : isNameChar c = true) (s : List Char) :
    afterName (c :: s) = c :: s := by
  have htrim : Text.trimStart (c :: s) = c :: s := by
    rw [Text.trimStart,
      List.dropWhile_cons_of_neg (by rw [Text.not_isBlank_of_isNameChar hc]; decide)]
  have heq : c ≠ '=' := ne_of_isNameChar hc (by decide) (by decide)
  unfold afterName
  rw [htrim]
  split
  · rename_i r hr
    exact absurd (List.cons.inj hr).1 heq
  · rfl

theorem namesFrom_end (after : List Char) : namesFrom ('>' :: after) = [] := by
  rw [namesFrom]
  rfl

theorem namesFrom_congr {s t : List Char} (h : s.dropWhile isSeparator = t.dropWhile isSeparator) :
    namesFrom s = namesFrom t := by
  rw [namesFrom, namesFrom.eq_def t, h]

theorem namesFrom_step {s r : List Char} {c : Char} (hs : s.dropWhile isSeparator = c :: r)
    (hend : c ≠ '>') (heq : c ≠ '=') :
    namesFrom s = Text.lower (String.ofList (c :: r.takeWhile (fun d => !endsName d))) ::
      namesFrom (afterName (r.dropWhile (fun d => !endsName d))) := by
  rw [namesFrom]
  split
  · rename_i hs'
    rw [hs] at hs'
    cases hs'
  · rename_i c' r' hs'
    rw [hs] at hs'
    cases hs'
    rw [if_neg hend, if_neg heq]

theorem toNat_lt_of_endsName {c : Char} (h : endsName c = true) : c.toNat < 97 := by
  simp only [endsName, Text.isAsciiBlank, Bool.or_eq_true, beq_iff_eq] at h
  rcases h with (((((((rfl | rfl) | rfl) | rfl) | rfl) | rfl) | rfl) | rfl) <;> decide

theorem not_endsName_toLower {c : Char} (h : endsName c = false) : endsName c.toLower = false := by
  rw [← Bool.not_eq_true]
  intro hlower
  rw [← Text.eq_of_toLower_eq rfl (toNat_lt_of_endsName hlower), h] at hlower
  cases hlower

theorem not_endsName_head {s r : List Char} {c : Char} (hs : s.dropWhile isSeparator = c :: r)
    (hend : c ≠ '>') (heq : c ≠ '=') : endsName c = false := by
  have hhead := List.head?_dropWhile_not isSeparator s
  rw [hs] at hhead
  obtain ⟨hblank, hslash⟩ := Bool.or_eq_false_iff.mp (show isSeparator c = false from hhead)
  exact endsName_eq_false_iff.mpr ⟨hblank, heq, hend, beq_eq_false_iff_ne.mp hslash⟩

structure IsFoundName (name : String) : Prop where
  nonempty : name.toList ≠ []
  lower : Text.lower name = name
  chars : ∀ c ∈ name.toList, Text.isAsciiBlank c = false ∧ c ≠ '=' ∧ c ≠ '>' ∧ c ≠ '/'

theorem isFoundName_iff {name : String} : IsFoundName name ↔
    name.toList ≠ [] ∧ Text.lower name = name ∧ name.toList.all (fun c => !endsName c) = true := by
  simp only [List.all_eq_true, Bool.not_eq_true', endsName_eq_false_iff]
  exact ⟨fun h => ⟨h.nonempty, h.lower, h.chars⟩, fun h => ⟨h.1, h.2.1, h.2.2⟩⟩

instance (name : String) : Decidable (IsFoundName name) := decidable_of_iff' _ isFoundName_iff

theorem isFoundName_of_head {s r : List Char} {c : Char} (hs : s.dropWhile isSeparator = c :: r)
    (hend : c ≠ '>') (heq : c ≠ '=') :
    IsFoundName (Text.lower (String.ofList (c :: r.takeWhile fun d => !endsName d))) where
  nonempty := by
    rw [Text.lower, String.toList_ofList, String.toList_ofList]
    exact List.cons_ne_nil _ _
  lower := Text.lower_lower _
  chars := by
    rw [Text.lower, String.toList_ofList, String.toList_ofList]
    intro d hd
    obtain ⟨e, he, rfl⟩ := List.mem_map.mp hd
    refine endsName_eq_false_iff.mp (not_endsName_toLower ?_)
    rcases List.mem_cons.mp he with rfl | he
    · exact not_endsName_head hs hend heq
    · have hin : (!endsName e) = true := List.mem_takeWhile_imp (p := fun d => !endsName d) he
      exact (Bool.not_eq_true' _).mp hin

/-- What can stand behind a name.  It names the same whether it is still part of the attribute that the
name begins, or not. -/
structure Behind (rest : List Char) (names : List String) : Prop where
  stop : ∃ d r, rest = d :: r ∧ endsName d = true
  here : namesFrom rest = names
  past : namesFrom (afterName rest) = names

theorem behind_end (after : List Char) : Behind ('>' :: after) [] where
  stop := ⟨'>', after, rfl, by decide⟩
  here := namesFrom_end after
  past := namesFrom_end after

theorem namesFrom_value {value : List Char} (hv : '"' ∉ value) (after : List Char) :
    namesFrom ('=' :: '"' :: value ++ '"' :: after) = namesFrom after := by
  have hvalue := afterName_quoted hv after
  have hskip : afterName ('=' :: '"' :: value ++ '"' :: after)
      = afterValue (Text.trimStart ('"' :: value ++ '"' :: after)) := rfl
  rw [hskip] at hvalue
  have hsep : ('=' :: '"' :: value ++ '"' :: after).dropWhile isSeparator
      = '=' :: ('"' :: value ++ '"' :: after) := rfl
  rw [namesFrom]
  split
  · rename_i hs
    rw [hsep] at hs
    cases hs
  · rename_i c r hs
    rw [hsep] at hs
    cases hs
    rw [if_neg (by decide), if_pos rfl, hvalue]

theorem behind_value {value : List Char} (hv : '"' ∉ value) (after : List Char) :
    Behind ('=' :: '"' :: value ++ '"' :: after) (namesFrom after) where
  stop := ⟨'=', _, rfl, by decide⟩
  here := namesFrom_value hv after
  past := by rw [afterName_quoted hv]

theorem namesFrom_word {word r : List Char} {d : Char} (hne : word ≠ [])
    (hword : ∀ c ∈ word, endsName c = false) (hd : endsName d = true) :
    namesFrom (word ++ d :: r) = Text.lower (String.ofList word) :: namesFrom (afterName (d :: r)) := by
  obtain ⟨c, q, rfl⟩ := List.exists_cons_of_ne_nil hne
  have hc := hword c List.mem_cons_self
  have hin : ∀ e ∈ q, (!endsName e) = true := fun e he => by
    rw [hword e (List.mem_cons_of_mem c he), Bool.not_false]
  have hstop : (!endsName d) = false := by rw [hd, Bool.not_true]
  have hsep : (c :: q ++ d :: r).dropWhile isSeparator = c :: (q ++ d :: r) := by
    rw [List.cons_append,
      List.dropWhile_cons_of_neg (by rw [not_isSeparator_of_not_endsName hc]; decide)]
  obtain ⟨_, heq, hend, _⟩ := endsName_eq_false_iff.mp hc
  rw [namesFrom_step hsep hend heq, takeWhile_append_stop hin hstop, dropWhile_append_stop hin hstop]

/-- A part of a name without `/` is named as it stands. -/
theorem namesFrom_part {part r : List Char} {d : Char} (hne : part ≠ [])
    (hpart : ∀ c ∈ part, isNameChar c = true) (hs : '/' ∉ part) (hd : endsName d = true) :
    namesFrom (part ++ d :: r) = Text.lower (String.ofList part) :: namesFrom (afterName (d :: r)) :=
  namesFrom_word hne
    (fun c hc => not_endsName_of_isNameChar (hpart c hc) fun h => hs (h ▸ hc)) hd

/-- What name characters spell does not depend on what stands behind them. -/
theorem exists_namesFrom_append (w : List Char) (hw : ∀ c ∈ w, isNameChar c = true) :
    ∃ spelled, ∀ {rest names}, Behind rest names → namesFrom (w ++ rest) = spelled ++ names := by
  by_cases hs : '/' ∈ w
  · obtain ⟨part, back, hsplit, hpart⟩ := List.eq_append_cons_of_mem hs
    have hback : ∀ c ∈ back, isNameChar c = true := fun c hc =>
      hw c (hsplit ▸ List.mem_append_right _ (List.mem_cons_of_mem _ hc))
    have hshorter : back.length < w.length := by
      rw [hsplit, List.length_append, List.length_cons]
      omega
    obtain ⟨spelled, hspelled⟩ := exists_namesFrom_append back hback
    have hslash : ∀ {rest names}, Behind rest names →
        namesFrom ('/' :: (back ++ rest)) = spelled ++ names := by
      intro rest names h
      have hskip : namesFrom ('/' :: (back ++ rest)) = namesFrom (back ++ rest) :=
        namesFrom_congr rfl
      rw [hskip, hspelled h]
    by_cases hne : part = []
    · refine ⟨spelled, fun {rest names} h => ?_⟩
      rw [hsplit, hne]
      exact hslash h
    · refine ⟨Text.lower (String.ofList part) :: spelled, fun {rest names} h => ?_⟩
      have hchars : ∀ c ∈ part, isNameChar c = true := fun c hc =>
        hw c (hsplit ▸ List.mem_append_left _ hc)
      rw [hsplit, List.append_assoc, List.cons_append, namesFrom_part hne hchars hpart (by decide)]
      exact congrArg (List.cons _) (hslash h)
  · by_cases hne : w = []
    · refine ⟨[], fun {rest names} h => ?_⟩
      rw [hne]
      exact h.here
    · refine ⟨[Text.lower (String.ofList w)], fun {rest names} h => ?_⟩
      obtain ⟨d, r, hd, hends⟩ := h.stop
      have hpast := h.past
      rw [hd] at hpast ⊢
      rw [namesFrom_part hne hw hs hends, hpast]
      rfl
termination_by w.length

/-- The names that a name spells: its parts between one `/` and the next. -/
def spelled (name : List Char) : List String := namesFrom (name ++ ['>'])

theorem namesFrom_append {w rest : List Char} {names : List String}
    (hw : ∀ c ∈ w, isNameChar c = true) (h : Behind rest names) :
    namesFrom (w ++ rest) = spelled w ++ names := by
  obtain ⟨own, hown⟩ := exists_namesFrom_append w hw
  rw [hown h, spelled, hown (behind_end []), List.append_nil]

theorem spelled_of_isPlainName {name : String} (h : IsPlainName name) :
    spelled name.toList = [name] := by
  have hchars : ∀ c ∈ name.toList, isNameChar c = true := h.isReadName.chars
  have hs : '/' ∉ name.toList := fun hm => ne_of_isPlain (h.plain _ hm) (by decide) rfl
  have hend : namesFrom (afterName ['>']) = [] := (behind_end []).past
  rw [spelled, namesFrom_part h.nonempty hchars hs (by decide), hend, String.ofList_toList, h.lower]

theorem namesFrom_printAttribute {name : String} (hn : IsNameRun name.toList) (value : String)
    (after : List Char) :
    namesFrom (printAttribute name value ++ after) = spelled name.toList ++ namesFrom after := by
  have hshape : printAttribute name value ++ after
      = ' ' :: (name.toList ++ ('=' :: '"' :: escapeValue value.toList ++ '"' :: after)) := by
    simp only [printAttribute, List.cons_append, List.append_assoc, List.nil_append]
  have hblank : ∀ s, namesFrom (' ' :: s) = namesFrom s := fun s => namesFrom_congr rfl
  rw [hshape, hblank, namesFrom_append hn.chars (behind_value (quote_not_mem_escapeValue _) after)]

theorem namesFrom_print {a : Attributes} (h : ∀ e ∈ a.entries, IsNameRun e.1.toList)
    (after : List Char) :
    namesFrom (a.print ++ '>' :: after) = a.names.flatMap fun n => spelled n.toList := by
  obtain ⟨entries⟩ := a
  induction entries with
  | nil => exact namesFrom_end after
  | cons e r ih =>
    have hr := ih fun x hx => h x (List.mem_cons_of_mem e hx)
    have hshape : Attributes.print ⟨e :: r⟩ ++ '>' :: after
        = printAttribute e.1 e.2 ++ (Attributes.print ⟨r⟩ ++ '>' :: after) := by
      rw [← List.append_assoc]
      rfl
    rw [hshape, namesFrom_printAttribute (h e List.mem_cons_self), hr]
    rfl

/-- Behind the name of a tag stand its attributes, with a blank in front that belongs to none. -/
theorem behind_print {a : Attributes} (h : ∀ e ∈ a.entries, IsNameRun e.1.toList)
    (after : List Char) :
    Behind (a.print ++ '>' :: after) (namesFrom (a.print ++ '>' :: after)) := by
  obtain ⟨entries⟩ := a
  cases entries with
  | nil => exact (namesFrom_end after).symm ▸ behind_end after
  | cons e r =>
    obtain ⟨n, value⟩ := e
    have hn := (h _ List.mem_cons_self).chars
    have hshape : Attributes.print ⟨(n, value) :: r⟩ ++ '>' :: after = ' ' :: (n.toList ++
        ('=' :: '"' :: escapeValue value.toList ++ '"' :: (Attributes.print ⟨r⟩ ++ '>' :: after))) := by
      simp only [Attributes.print, List.flatMap_cons, printAttribute, List.cons_append,
        List.append_assoc, List.nil_append]
    have hvalue := behind_value (quote_not_mem_escapeValue value.toList)
      (Attributes.print ⟨r⟩ ++ '>' :: after)
    rw [hshape]
    generalize '=' :: '"' :: escapeValue value.toList ++ '"' :: (Attributes.print ⟨r⟩ ++ '>' :: after)
      = rest at hvalue
    have hblank : ∀ s, namesFrom (' ' :: s) = namesFrom s := fun s => namesFrom_congr rfl
    refine ⟨⟨' ', _, rfl, by decide⟩, rfl, ?_⟩
    have hskip : ∀ s, afterName (' ' :: s) = afterName s := fun _ => rfl
    rw [hblank, hskip]
    cases hname : n.toList with
    | nil => exact hvalue.past.trans hvalue.here.symm
    | cons c s =>
      rw [List.cons_append, afterName_of_isNameChar (hn c (hname ▸ List.mem_cons_self))]

theorem of_mem_namesFrom {s : List Char} {n : String} (h : n ∈ namesFrom s) : IsFoundName n := by
  fun_induction namesFrom s with
  | case1 => cases h
  | case2 => cases h
  | case3 s r hs _ ih => exact ih h
  | case4 s c r hs hend heq ih =>
    rcases List.mem_cons.mp h with rfl | h
    · exact isFoundName_of_head hs hend heq
    · exact ih h

/-- A name as a reader gives it that is found in a tag is plain. -/
theorem isPlainName_of_mem_namesFrom {s : List Char} {n : String} (hr : IsReadName n)
    (h : n ∈ namesFrom s) : IsPlainName n :=
  hr.isPlainName (of_mem_namesFrom h).nonempty fun hm => ((of_mem_namesFrom h).chars _ hm).2.2.2 rfl

end WrittenOrder

open WrittenOrder (spelled namesFrom_print behind_print)

/-- Of the name of a tag, only what stands from the first `/` on is searched for names. -/
theorem writtenOrder_tag {tag : List Char} (ht : IsNameRun tag) {d : Char}
    (hd : Text.isAsciiBlank d = true ∨ d = '>') (r : List Char) :
    writtenOrder ('<' :: (tag ++ d :: r))
      = WrittenOrder.namesFrom (tag.dropWhile (· ≠ '/') ++ d :: r) := by
  have hstop : (!(Text.isAsciiBlank d || d == '>' || d == '/')) = false := by
    rcases hd with hd | rfl
    · rw [hd]
      rfl
    · decide
  have hin : ∀ c ∈ tag, c ≠ '/' → (!(Text.isAsciiBlank c || c == '>' || c == '/')) = true := by
    intro c hc hs
    have hsep := WrittenOrder.not_isSeparator_of_isNameChar (ht.chars c hc) hs
    have hend : c ≠ '>' := ht.ne_of_mem hc (by decide) (by decide)
    rw [WrittenOrder.isSeparator, Bool.or_eq_false_iff] at hsep
    simp [hsep.1, hs, hend]
  have hopen : ('<' :: (tag ++ d :: r)).dropWhile (· = '<') = tag ++ d :: r := by
    rw [List.dropWhile_cons_of_pos (by decide)]
    obtain ⟨c, s, hcons, hc⟩ := ht.exists_cons d r
    have hlt : c ≠ '<' := by
      rcases hc with rfl | ⟨hc, _⟩
      · rintro rfl
        exact absurd hd (by decide)
      · exact ne_of_isNameChar hc (by decide) (by decide)
    rw [hcons, List.dropWhile_cons_of_neg (by simpa using hlt)]
  rw [writtenOrder, hopen]
  by_cases hs : '/' ∈ tag
  · obtain ⟨part, back, rfl, hpart⟩ := List.eq_append_cons_of_mem hs
    have hne : ∀ c ∈ part, c ≠ '/' := fun c hc h => hpart (h ▸ hc)
    have hdrop : (part ++ '/' :: back).dropWhile (· ≠ '/') = '/' :: back :=
      dropWhile_append_stop (fun c hc => decide_eq_true (hne c hc)) (by decide)
    have hfirst : ∀ c ∈ part, (!(Text.isAsciiBlank c || c == '>' || c == '/')) = true :=
      fun c hc => hin c (List.mem_append_left _ hc) (hne c hc)
    rw [hdrop, List.append_assoc, List.cons_append, dropWhile_append_stop hfirst (by decide)]
  · have hne : ∀ c ∈ tag, c ≠ '/' := fun c hc h => hs (h ▸ hc)
    have hdrop : tag.dropWhile (· ≠ '/') = [] := by
      rw [← List.append_nil tag, List.dropWhile_append_of_pos fun c hc => decide_eq_true (hne c hc)]
      rfl
    rw [hdrop, List.nil_append, dropWhile_append_stop (fun c hc => hin c hc (hne c hc)) hstop]

theorem openingTag_empty (tag : String) :
    openingTag tag .empty = '<' :: (tag.toList ++ '>' :: []) := by
  simp only [openingTag, Attributes.print, Attributes.empty, List.flatMap_nil, List.cons_append,
    List.append_nil]

theorem writtenOrder_of_isPlainName {tag : String} (ht : IsPlainName tag) :
    writtenOrder (openingTag tag .empty) = [] := by
  have hdrop : tag.toList.dropWhile (· ≠ '/') = [] := by
    refine List.dropWhile_eq_nil_iff.mpr fun c hc => decide_eq_true ?_
    exact ne_of_isPlain (ht.plain c hc) (by decide)
  rw [openingTag_empty, writtenOrder_tag ht.isReadName.toIsNameRun (Or.inr rfl), hdrop]
  exact WrittenOrder.namesFrom_end []

/-- A written tag spells what its own name spells behind a `/`, and then its attributes. -/
theorem writtenOrder_openingTag {tag : String} (ht : IsNameRun tag.toList) {a : Attributes}
    (ha : ∀ e ∈ a.entries, IsNameRun e.1.toList) (after : List Char) :
    writtenOrder (openingTag tag a ++ after)
      = writtenOrder (openingTag tag .empty) ++ a.names.flatMap fun n => spelled n.toList := by
  have hshape : openingTag tag a ++ after = '<' :: (tag.toList ++ (a.print ++ '>' :: after)) := by
    simp only [openingTag, List.cons_append, List.append_assoc, List.nil_append]
  have hown : ∀ c ∈ tag.toList.dropWhile (· ≠ '/'), isNameChar c = true := fun c hc =>
    ht.chars c ((List.dropWhile_suffix _).subset hc)
  obtain ⟨d, rest, hrest, hd⟩ := Token.exists_print_eq a after
  rw [hshape, openingTag_empty, writtenOrder_tag ht (Or.inr rfl), hrest,
    writtenOrder_tag ht (hd.imp_left fun hd => hd ▸ rfl), ← hrest,
    WrittenOrder.namesFrom_append hown (behind_print ha after), namesFrom_print ha]
  rfl

theorem mem_writtenOrder {tag : String} (ht : IsNameRun tag.toList) {a : Attributes}
    (ha : ∀ e ∈ a.entries, IsNameRun e.1.toList) (after : List Char) {n : String} (hn : n ∈ a.names)
    (hp : IsPlainName n) : n ∈ writtenOrder (openingTag tag a ++ after) := by
  rw [writtenOrder_openingTag ht ha]
  refine List.mem_append_right _ (List.mem_flatMap.mpr ⟨n, hn, ?_⟩)
  rw [WrittenOrder.spelled_of_isPlainName hp]
  exact List.mem_singleton_self n

end Bindery
