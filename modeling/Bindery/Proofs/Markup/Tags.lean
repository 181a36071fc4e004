import Bindery.Markup.Printer
import Bindery.Markup.Token
import Bindery.Proofs.Markup.Escaping

/-!
# Written tags read back

A tag written with names of name characters and quoted values is one lexeme, whatever stands behind
it.  Its name is read up to a blank or `>`, and each value up to its closing quote: an escaped value
holds no quote of its own.  A name may hold `/` behind its first character, and it may be empty.

* `Token.IsNameRun`                   what a reader takes for a name
* `IsReadName`, `IsPlainName`         such a name without capitals, and one that also stands for itself
                                      when a tag is searched for names
* `Attributes.written`                attributes as a reader meets them
* `Token.splitAttributes_print`       the attributes of a tag
* `Token.readTag_opening`, `readTag_closing`   whole tags
* `Lexeme.read_tag`, `read_text`      one lexeme off the front of a text
-/

namespace Bindery

namespace Text

/-- Small letters, digits and `_`, `:`, `+`, `-`. -/
def isPlain (c : Char) : Bool :=
  c.isLower || c.isDigit || c == '_' || c == ':' || c == '+' || c == '-'

def tagMarks : List Char := [' ', '\t', '\n', '\x0c', '\r', '=', '>', '/', '<', '!', '"', '\'']

theorem not_isPlain_of_mem_tagMarks : ∀ c ∈ tagMarks, isPlain c = false := by
  have hall : tagMarks.all (fun c => !isPlain c) = true := by decide
  exact fun c hc => (Bool.not_eq_true' _).mp (List.all_eq_true.mp hall c hc)

theorem not_mem_tagMarks {c : Char} (h : isPlain c = true) : c ∉ tagMarks := by
  intro hc
  rw [not_isPlain_of_mem_tagMarks c hc] at h
  cases h

theorem ne_of_isPlain {c d : Char} (h : isPlain c = true) (hd : d ∈ tagMarks) : c ≠ d := by
  rintro rfl
  exact not_mem_tagMarks h hd

theorem toLower_of_isPlain {c : Char} (h : isPlain c = true) : c.toLower = c := by
  refine toLower_eq_self fun hu => ?_
  have hlower : c.isLower = (decide (c.val ≥ 'a'.val) && decide (c.val ≤ 'z'.val)) := rfl
  simp only [isPlain, hlower, Char.isDigit, ge_iff_le, Bool.or_eq_true, Bool.and_eq_true,
    decide_eq_true_eq, beq_iff_eq, UInt32.le_iff_toNat_le] at h
  rcases h with ((((h | h) | h) | h) | h) | h
  · exact absurd (Nat.le_trans h.1 hu.2) (by decide)
  · exact absurd (Nat.le_trans hu.1 h.2) (by decide)
  · exact absurd hu (h ▸ by decide)
  · exact absurd hu (h ▸ by decide)
  · exact absurd hu (h ▸ by decide)
  · exact absurd hu (h ▸ by decide)

/-- Only a small letter can have been a capital. -/
theorem eq_of_toLower_eq {c d : Char} (h : c.toLower = d) (hd : d.toNat < 97) : c = d := by
  by_cases hu : 65 ≤ c.toNat ∧ c.toNat ≤ 90
  · have hcode := toNat_toLower hu
    rw [h] at hcode
    omega
  · rw [← h, toLower_eq_self hu]

theorem takeWhile_append_stop {α : Type} {p : α → Bool} {s r : List α} {d : α}
    (hs : ∀ c ∈ s, p c = true) (hd : p d = false) : (s ++ d :: r).takeWhile p = s := by
  rw [List.takeWhile_append_of_pos hs, List.takeWhile_cons_of_neg (by rw [hd]; decide),
    List.append_nil]

theorem dropWhile_append_stop {α : Type} {p : α → Bool} {s r : List α} {d : α}
    (hs : ∀ c ∈ s, p c = true) (hd : p d = false) : (s ++ d :: r).dropWhile p = d :: r := by
  rw [List.dropWhile_append_of_pos hs, List.dropWhile_cons_of_neg (by rw [hd]; decide)]

end Text

open Text (isPlain tagMarks ne_of_isPlain takeWhile_append_stop dropWhile_append_stop)

structure IsPlainName (name : String) : Prop where
  nonempty : name.toList ≠ []
  plain : ∀ c ∈ name.toList, isPlain c = true

namespace IsPlainName

variable {name : String}

instance : Decidable (IsPlainName name) :=
  decidable_of_iff (name.toList ≠ [] ∧ name.toList.all isPlain = true)
    ⟨fun h => ⟨h.1, List.all_eq_true.mp h.2⟩, fun h => ⟨h.nonempty, List.all_eq_true.mpr h.plain⟩⟩

theorem lower (h : IsPlainName name) : Text.lower name = name := by
  have hm : name.toList.map Char.toLower = name.toList.map id :=
    List.map_congr_left fun c hc => Text.toLower_of_isPlain (h.plain c hc)
  rw [Text.lower, hm, List.map_id, String.ofList_toList]

end IsPlainName

namespace Attributes

/-- The names are plain, and no two are the same. -/
structure Writable (a : Attributes) : Prop where
  nodup : a.names.Nodup
  plain : ∀ n ∈ a.names, IsPlainName n

instance (a : Attributes) : Decidable a.Writable :=
  decidable_of_iff (a.names.Nodup ∧ ∀ n ∈ a.names, IsPlainName n)
    ⟨fun h => ⟨h.1, h.2⟩, fun h => ⟨h.nodup, h.plain⟩⟩

/-- The attributes as a reader of the tag meets them. -/
def written (a : Attributes) : List WrittenAttribute :=
  a.entries.map fun e => ⟨e.1.toList, some (escapeValue e.2.toList)⟩

/-- The name under which a written tag is read.  A tag without a name takes that of its first attribute. -/
def nameRead (a : Attributes) (tag : String) : String :=
  if tag = "" then a.names.head?.getD "" else tag

/-- The attributes that are read from a written tag.  The first is left without a name if the tag took
it. -/
def attributesRead (a : Attributes) (tag : String) : List WrittenAttribute :=
  if tag = "" then a.written.modifyHead fun w => { w with name := [] } else a.written

/-- Where the tag takes no name, everything is read as it was written. -/
theorem read_of_unnamed {a : Attributes} {tag : String} (h : tag = "" → ∀ n ∈ a.names.head?, n = "") :
    a.nameRead tag = tag ∧ a.attributesRead tag = a.written := by
  unfold nameRead attributesRead
  split
  · rename_i htag
    obtain ⟨entries⟩ := a
    cases entries with
    | nil => exact ⟨htag.symm, rfl⟩
    | cons e r =>
      obtain ⟨n, value⟩ := e
      obtain rfl : n = "" := h htag n rfl
      exact ⟨htag.symm, rfl⟩
  · exact ⟨rfl, rfl⟩

end Attributes

/-! ## Names that were read -/

namespace Token

/-- Name characters, many or none, of which the first is no `/`. -/
structure IsNameRun (name : List Char) : Prop where
  chars : ∀ c ∈ name, isNameChar c = true
  head : ∀ c ∈ name.head?, c ≠ '/'

theorem isNameChar_of_isPlain {c : Char} (h : isPlain c = true) : isNameChar c = true := by
  simp only [isPlain, Bool.or_eq_true, beq_iff_eq] at h
  rcases h with ((((h | h) | rfl) | rfl) | rfl) | rfl
  · have halpha : c.isAlpha = (c.isUpper || c.isLower) := rfl
    simp only [isNameChar, Char.isAlphanum, halpha, h, Bool.or_true, Bool.true_or]
  · simp only [isNameChar, Char.isAlphanum, h, Bool.or_true, Bool.true_or]
  all_goals decide

theorem isPlain_of_isNameChar {c : Char} (h : isNameChar c = true) (hs : c ≠ '/')
    (hl : c.toLower = c) : isPlain c = true := by
  have hupper : c.isUpper = false := by
    rw [← Bool.not_eq_true]
    intro hu
    have hcode : 65 ≤ c.toNat ∧ c.toNat ≤ 90 := by
      have hdecide : decide (c.val ≥ 'A'.val ∧ c.val ≤ 'Z'.val) = true := hu
      simpa [UInt32.le_iff_toNat_le] using hdecide
    have hlower := Text.toNat_toLower hcode
    rw [hl] at hlower
    omega
  have halpha : c.isAlpha = (c.isUpper || c.isLower) := rfl
  simpa [isNameChar, Char.isAlphanum, halpha, hupper, hs, isPlain, or_assoc, or_comm,
    or_left_comm] using h

theorem isNameChar_toLower {c : Char} (h : isNameChar c = true) : isNameChar c.toLower = true := by
  by_cases hu : 65 ≤ c.toNat ∧ c.toNat ≤ 90
  · have hcode := Text.toNat_toLower hu
    have hlower : c.toLower.isLower = true := by
      have hlow : (97 : Nat) ≤ c.toLower.toNat ∧ c.toLower.toNat ≤ 122 := by omega
      show (decide (c.toLower.val ≥ 'a'.val) && decide (c.toLower.val ≤ 'z'.val)) = true
      simpa [UInt32.le_iff_toNat_le] using hlow
    have halpha : c.toLower.isAlpha = (c.toLower.isUpper || c.toLower.isLower) := rfl
    simp [isNameChar, Char.isAlphanum, halpha, hlower]
  · rw [Text.toLower_eq_self hu]
    exact h

/-- Of the characters that a reader of tags stops at, only `/` can stand in a name. -/
theorem not_isNameChar_of_mem_tagMarks : ∀ c ∈ tagMarks, c ≠ '/' → isNameChar c = false := by
  have hall : tagMarks.all (fun c => c == '/' || !isNameChar c) = true := by decide
  intro c hc hs
  have hmark := List.all_eq_true.mp hall c hc
  rw [beq_eq_false_iff_ne.mpr hs, Bool.false_or] at hmark
  exact (Bool.not_eq_true' _).mp hmark

theorem ne_of_isNameChar {c d : Char} (h : isNameChar c = true) (hd : d ∈ tagMarks) (hs : d ≠ '/') :
    c ≠ d := by
  rintro rfl
  rw [not_isNameChar_of_mem_tagMarks c hd hs] at h
  cases h

theorem not_isTagBlank_of_isNameChar {c : Char} (h : isNameChar c = true) : isTagBlank c = false := by
  have hspace : c ≠ ' ' := ne_of_isNameChar h (by decide) (by decide)
  have hfeed : c ≠ '\n' := ne_of_isNameChar h (by decide) (by decide)
  simp [isTagBlank, hspace, hfeed]

theorem not_endsAttributes_of_isNameChar {c : Char} (h : isNameChar c = true) (hs : c ≠ '/') :
    endsAttributes c = false := by
  have hend : c ≠ '>' := ne_of_isNameChar h (by decide) (by decide)
  simp [endsAttributes, hs, hend]

namespace IsNameRun

variable {name : List Char}

theorem nil : IsNameRun [] where
  chars _ hc := nomatch hc
  head _ hc := nomatch hc

theorem ne_of_mem (h : IsNameRun name) {c d : Char} (hc : c ∈ name) (hd : d ∈ tagMarks)
    (hs : d ≠ '/') : c ≠ d :=
  ne_of_isNameChar (h.chars c hc) hd hs

theorem takeWhile (h : IsNameRun name) {d : Char} (hd : isNameChar d = false) (r : List Char) :
    (name ++ d :: r).takeWhile isNameChar = name :=
  takeWhile_append_stop h.chars hd

theorem dropWhile (h : IsNameRun name) {d : Char} (hd : isNameChar d = false) (r : List Char) :
    (name ++ d :: r).dropWhile isNameChar = d :: r :=
  dropWhile_append_stop h.chars hd

theorem exists_cons (h : IsNameRun name) (d : Char) (r : List Char) :
    ∃ c s, name ++ d :: r = c :: s ∧ (c = d ∨ isNameChar c = true ∧ c ≠ '/') := by
  cases name with
  | nil => exact ⟨d, r, rfl, Or.inl rfl⟩
  | cons c s =>
    exact ⟨c, s ++ d :: r, rfl, Or.inr ⟨h.chars c List.mem_cons_self, h.head c rfl⟩⟩

end IsNameRun

end Token

structure IsReadName (name : String) : Prop extends Token.IsNameRun name.toList where
  lower : Text.lower name = name

/-- A name that was read is plain, unless it is empty or has a `/` in it. -/
theorem IsReadName.isPlainName {name : String} (h : IsReadName name) (hne : name.toList ≠ [])
    (hs : '/' ∉ name.toList) : IsPlainName name := by
  have hlower : name.toList.map Char.toLower = name.toList.map id := by
    have hl := congrArg String.toList h.lower
    rw [Text.lower, String.toList_ofList] at hl
    rw [hl, List.map_id]
  refine ⟨hne, fun c hc => Token.isPlain_of_isNameChar (h.chars c hc) (fun he => hs (he ▸ hc)) ?_⟩
  exact List.map_inj_left.mp hlower c hc

theorem IsPlainName.isReadName {name : String} (h : IsPlainName name) : IsReadName name where
  chars c hc := Token.isNameChar_of_isPlain (h.plain c hc)
  head c hc := ne_of_isPlain (h.plain c (List.mem_of_mem_head? hc)) (by decide)
  lower := h.lower

/-! ## Reading a tag -/

namespace Token

/-- A quoted value is taken up to the quote that closes it, and the quote stays. -/
theorem splitValue_quoted {q : Char} (hq : q = '"' ∨ q = '\'') {value : List Char} (hv : q ∉ value)
    (after : List Char) : splitValue (q :: (value ++ q :: after)) = (value, q :: after) := by
  have hall : ∀ c ∈ value, (c ≠ q : Bool) = true := fun c hc =>
    decide_eq_true fun he => hv (he ▸ hc)
  have hstop : (q ≠ q : Bool) = false := by simp
  rw [splitValue, if_pos hq, takeWhile_append_stop hall hstop, dropWhile_append_stop hall hstop]

theorem splitAssignment_quoted {value : List Char} (hv : '"' ∉ value) (after : List Char) :
    splitAssignment ('=' :: '"' :: value ++ '"' :: after) = (some value, '"' :: after) := by
  show (some (splitValue ('"' :: (value ++ '"' :: after))).1,
    (splitValue ('"' :: (value ++ '"' :: after))).2) = _
  rw [splitValue_quoted (Or.inl rfl) hv]

theorem splitAttributes_of_end {s r : List Char} {c : Char} (hs : skipBlanks s = c :: r)
    (hc : endsAttributes c = true) : splitAttributes s = some ([], c :: r) := by
  rw [splitAttributes]
  split
  · rename_i hs'
    rw [hs] at hs'
    cases hs'
  · rename_i c' r' hs'
    rw [hs] at hs'
    cases hs'
    rw [dif_pos hc]

theorem splitAttributes_end (after : List Char) :
    splitAttributes ('>' :: after) = some ([], '>' :: after) :=
  splitAttributes_of_end rfl rfl

theorem splitAttributes_step {s name r after : List Char} {c d : Char} {value? : Option (List Char)}
    (hs : skipBlanks s = c :: r) (hc : endsAttributes c = false)
    (hn : (c :: r).takeWhile isNameChar = name)
    (hv : splitAssignment ((c :: r).dropWhile isNameChar) = (value?, d :: after)) :
    splitAttributes s =
      if endsAttributes d then
        (splitAttributes (d :: after)).map fun l => (⟨name, value?⟩ :: l.1, l.2)
      else (splitAttributes after).map fun l => (⟨name, value?⟩ :: strayAttributes d ++ l.1, l.2) := by
  rw [splitAttributes]
  split
  · rename_i hs'
    rw [hs] at hs'
    cases hs'
  · rename_i c' r' hs'
    rw [hs] at hs'
    cases hs'
    rw [dif_neg (by rw [hc]; decide), hn]
    dsimp only
    split
    · rename_i hv'
      rw [hv] at hv'
      cases hv'
    · rename_i value' d' after' hv'
      rw [hv] at hv'
      cases hv'
      split
      · rfl
      · rfl

theorem splitAttributes_written {s name value after : List Char} (hn : IsNameRun name)
    (hv : '"' ∉ value) (hs : skipBlanks s = name ++ '=' :: '"' :: value ++ '"' :: after) :
    splitAttributes s = (splitAttributes after).map fun l => (⟨name, some value⟩ :: l.1, l.2) := by
  have hvalue := splitAssignment_quoted hv after
  rw [List.append_assoc, List.cons_append] at hs
  rw [List.cons_append] at hvalue
  generalize '"' :: value ++ '"' :: after = rest at hs hvalue
  have hstop : isNameChar '=' = false := by decide
  obtain ⟨c, r, hcons, hc⟩ := hn.exists_cons '=' rest
  have hends : endsAttributes c = false := by
    rcases hc with rfl | ⟨hc, hslash⟩
    · decide
    · exact not_endsAttributes_of_isNameChar hc hslash
  have htake : (c :: r).takeWhile isNameChar = name := hcons ▸ hn.takeWhile hstop rest
  have hdrop : (c :: r).dropWhile isNameChar = '=' :: rest := hcons ▸ hn.dropWhile hstop rest
  rw [splitAttributes_step (hs.trans hcons) hends htake (hdrop ▸ hvalue)]
  rfl

theorem skipBlanks_printAttribute {name : String} (hn : IsNameRun name.toList) (value : String)
    (after : List Char) :
    skipBlanks (printAttribute name value ++ after)
      = name.toList ++ '=' :: '"' :: escapeValue value.toList ++ '"' :: after := by
  have hshape : printAttribute name value ++ after
      = ' ' :: (name.toList ++ '=' :: '"' :: escapeValue value.toList ++ '"' :: after) := by
    simp only [printAttribute, List.cons_append, List.append_assoc, List.nil_append]
  rw [hshape, skipBlanks, List.dropWhile_cons_of_pos (by decide), List.append_assoc,
    List.cons_append]
  obtain ⟨c, r, hcons, hc⟩ := hn.exists_cons '=' ('"' :: escapeValue value.toList ++ '"' :: after)
  have hblank : isTagBlank c = false := by
    rcases hc with rfl | ⟨hc, _⟩
    · decide
    · exact not_isTagBlank_of_isNameChar hc
  rw [hcons, List.dropWhile_cons_of_neg (by rw [hblank]; decide)]

theorem splitAttributes_printAttribute {name : String} (hn : IsNameRun name.toList) (value : String)
    (after : List Char) :
    splitAttributes (printAttribute name value ++ after)
      = (splitAttributes after).map fun l =>
          (⟨name.toList, some (escapeValue value.toList)⟩ :: l.1, l.2) :=
  splitAttributes_written hn (quote_not_mem_escapeValue value.toList)
    (skipBlanks_printAttribute hn value after)

/-- The attributes of a tag are read one after the other, up to the `>`. -/
theorem splitAttributes_print {a : Attributes} (h : ∀ e ∈ a.entries, IsNameRun e.1.toList)
    (after : List Char) :
    splitAttributes (a.print ++ '>' :: after) = some (a.written, '>' :: after) := by
  obtain ⟨entries⟩ := a
  induction entries with
  | nil => exact splitAttributes_end after
  | cons e r ih =>
    have hr := ih fun x hx => h x (List.mem_cons_of_mem e hx)
    have hshape : Attributes.print ⟨e :: r⟩ ++ '>' :: after
        = printAttribute e.1 e.2 ++ (Attributes.print ⟨r⟩ ++ '>' :: after) := by
      rw [← List.append_assoc]
      rfl
    rw [hshape, splitAttributes_printAttribute (h e List.mem_cons_self), hr]
    rfl

theorem exists_print_eq (a : Attributes) (after : List Char) :
    ∃ d r, a.print ++ '>' :: after = d :: r ∧ (d = ' ' ∨ d = '>') := by
  obtain ⟨entries⟩ := a
  cases entries with
  | nil => exact ⟨'>', after, rfl, Or.inr rfl⟩
  | cons e r => exact ⟨' ', _, rfl, Or.inl rfl⟩

/-- A tag whose name is read off the front, neither a closing tag nor a declaration. -/
theorem readTag_of_skipBlanks {s name r after : List Char} {d : Char} {token : Token}
    (hs : skipBlanks s = name ++ d :: r) (hn : IsNameRun name) (hd : isNameChar d = false)
    (hbang : d ≠ '!') (hr : readOpening name (d :: r) = (token, after)) :
    readTag s = (token, 0, after) := by
  have htake := hn.takeWhile hd r
  have hdrop := hn.dropWhile hd r
  obtain ⟨c, rest, hcons, hc⟩ := hn.exists_cons d r
  have hslash : c ≠ '/' := by
    rcases hc with rfl | ⟨_, hslash⟩
    · rintro rfl
      cases hd
    · exact hslash
  have hmark : c ≠ '!' := by
    rcases hc with rfl | ⟨hc, _⟩
    · exact hbang
    · exact ne_of_isNameChar hc (by decide) (by decide)
  unfold readTag
  rw [hs]
  split
  · rename_i hnil
    rw [hcons] at hnil
    cases hnil
  · rename_i r' hcons'
    rw [hcons] at hcons'
    exact absurd (List.cons.inj hcons').1 hslash
  · rename_i r' hcons'
    rw [hcons] at hcons'
    exact absurd (List.cons.inj hcons').1 hmark
  · rw [htake, hdrop, hr]

/-- A tag without a name takes that of its first attribute, which then has none. -/
theorem readTag_unnamed {n value : String} {r : List (String × String)} (hn : IsNameRun n.toList)
    (hr : ∀ e ∈ r, IsNameRun e.1.toList) (after : List Char) :
    readTag (Attributes.print ⟨(n, value) :: r⟩ ++ '>' :: after)
      = (.opening n.toList (⟨[], some (escapeValue value.toList)⟩ :: Attributes.written ⟨r⟩) false, 0,
          after) := by
  have hrest := splitAttributes_print (a := ⟨r⟩) hr after
  have hshape : Attributes.print ⟨(n, value) :: r⟩ ++ '>' :: after
      = printAttribute n value ++ (Attributes.print ⟨r⟩ ++ '>' :: after) := by
    rw [← List.append_assoc]
    rfl
  rw [hshape]
  generalize Attributes.print ⟨r⟩ ++ '>' :: after = rest at hrest
  -- The blank in front of the attribute is skipped before the name of the tag is read.
  have hskip : skipBlanks (printAttribute n value ++ rest)
      = n.toList ++ '=' :: ('"' :: escapeValue value.toList ++ '"' :: rest) := by
    rw [skipBlanks_printAttribute hn, List.append_assoc, List.cons_append]
  have hsplit : splitAttributes ('=' :: ('"' :: escapeValue value.toList ++ '"' :: rest)) = _ :=
    splitAttributes_written .nil (quote_not_mem_escapeValue value.toList) rfl
  rw [hrest] at hsplit
  refine readTag_of_skipBlanks hskip hn (by decide) (by decide) ?_
  rw [readOpening, hsplit]
  rfl

theorem readTag_opening {tag : String} (ht : IsNameRun tag.toList) {a : Attributes}
    (ha : ∀ e ∈ a.entries, IsNameRun e.1.toList) (after : List Char) :
    readTag (tag.toList ++ (a.print ++ '>' :: after))
      = (.opening (a.nameRead tag).toList (a.attributesRead tag) false, 0, after) := by
  unfold Attributes.nameRead Attributes.attributesRead
  by_cases htag : tag = ""
  · rw [if_pos htag, if_pos htag, htag]
    obtain ⟨entries⟩ := a
    cases entries with
    | nil =>
      refine readTag_of_skipBlanks rfl .nil (by decide) (by decide) ?_
      rw [readOpening, splitAttributes_end]
      rfl
    | cons e r =>
      exact readTag_unnamed (ha e List.mem_cons_self) (fun x hx => ha x (List.mem_cons_of_mem e hx)) after
  · rw [if_neg htag, if_neg htag]
    have hread := splitAttributes_print ha after
    obtain ⟨d, rest, hrest, hd⟩ := exists_print_eq a after
    have hstop : isNameChar d = false := by rcases hd with rfl | rfl <;> decide
    have hbang : d ≠ '!' := by rcases hd with rfl | rfl <;> decide
    rw [hrest] at hread ⊢
    obtain ⟨c, r, hc⟩ := List.exists_cons_of_ne_nil fun h => htag (String.toList_injective h)
    have hskip : skipBlanks (tag.toList ++ d :: rest) = tag.toList ++ d :: rest := by
      have hblank := not_isTagBlank_of_isNameChar (ht.chars c (hc ▸ List.mem_cons_self))
      rw [hc, List.cons_append, skipBlanks,
        List.dropWhile_cons_of_neg (by rw [hblank]; decide)]
    refine readTag_of_skipBlanks hskip ht hstop hbang ?_
    rw [readOpening, hread]
    rfl

theorem readTag_closing {tag : String} (ht : IsNameRun tag.toList) (after : List Char) :
    readTag ('/' :: tag.toList ++ '>' :: after) = (.closing tag.toList, 0, after) := by
  have hp : ∀ c ∈ tag.toList, (c ≠ '>' : Bool) = true := fun c hc =>
    decide_eq_true (ht.ne_of_mem hc (by decide) (by decide))
  have hstop : ('>' ≠ '>' : Bool) = false := by decide
  show (Token.closing ((tag.toList ++ '>' :: after).takeWhile (· ≠ '>')), 0,
    ((tag.toList ++ '>' :: after).dropWhile (· ≠ '>')).drop 1) = _
  rw [takeWhile_append_stop hp hstop, dropWhile_append_stop hp hstop]
  rfl

end Token

/-! ## Lexemes -/

namespace Lexeme

theorem read_tag {token : Token} {inside after : List Char}
    (h : Token.readTag (inside ++ after) = (token, 0, after)) :
    read 0 ('<' :: inside ++ after) = ⟨token, '<' :: inside⟩ :: read 0 after := by
  have hsource : ('<' :: (inside ++ after)).take (('<' :: (inside ++ after)).length - after.length)
      = '<' :: inside := by
    rw [← List.cons_append, List.length_append, Nat.add_sub_cancel, List.take_left]
  rw [List.cons_append, read, dif_pos ⟨rfl, rfl⟩]
  dsimp only
  rw [h]
  dsimp only
  rw [hsource]

theorem read_text {content after : List Char} (hne : content ≠ []) (hlt : '<' ∉ content)
    (hafter : ∀ c ∈ after.head?, c = '<') :
    read 0 (content ++ after) = ⟨.text content, content⟩ :: read 0 after := by
  have hall : ∀ c ∈ content, (c ≠ '<' : Bool) = true := fun c hc =>
    decide_eq_true fun (he : c = '<') => hlt (he ▸ hc)
  have htake : (content ++ after).takeWhile (· ≠ '<') = content := by
    cases after with
    | nil =>
      rw [List.takeWhile_append_of_pos hall, List.takeWhile_nil, List.append_nil]
    | cons d r =>
      obtain rfl := hafter d rfl
      exact takeWhile_append_stop hall (by decide)
  have hdrop : (content ++ after).dropWhile (· ≠ '<') = after := by
    have happ := List.takeWhile_append_dropWhile (p := (· ≠ '<')) (l := content ++ after)
    rw [htake] at happ
    exact List.append_cancel_left happ
  obtain ⟨c, r, rfl⟩ := List.exists_cons_of_ne_nil hne
  have hc : c ≠ '<' := fun he => hlt (he ▸ List.mem_cons_self)
  rw [List.cons_append] at htake hdrop ⊢
  rw [read, dif_neg fun h => hc h.2]
  dsimp only
  rw [htake, hdrop]
  rfl

end Lexeme

end Bindery
