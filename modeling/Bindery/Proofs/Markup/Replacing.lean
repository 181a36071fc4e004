import Bindery.Proofs.Markup.Escaping

/-!
# Escaping as a row of replacements

Escaping can be done on the whole text, one kind of character at a time: every `&` is replaced by its
reference, then every `<`, then every `>`, and inside quotes every `"` at the end.  Each of these puts a
new `&` into the text, so the order counts.  With `&` first, none meets what an earlier one put in, and
the outcome is that of escaping character by character.

* `replaceEach`                           one replacement
* `replacedText`, `replacedValue`         the rows of replacements
* `escapeText_eq`, `escapeValue_eq`       escaping character by character does the same
* `escaped_reads_back`                    what is escaped reads as before, and has no mark of a tag in it
-/

namespace Bindery

def replaceEach (c : Char) (t s : List Char) : List Char :=
  s.flatMap fun d => if d = c then t else [d]

/-- Text between tags, with one kind of character replaced after the other. -/
def replacedText (s : List Char) : List Char :=
  replaceEach '>' "&gt;".toList (replaceEach '<' "&lt;".toList (replaceEach '&' "&amp;".toList s))

def replacedValue (s : List Char) : List Char := replaceEach '"' "&quot;".toList (replacedText s)

section Replace

variable {c d : Char} {t s : List Char}

theorem replaceEach_of_not_mem (h : c ∉ s) : replaceEach c t s = s := by
  induction s with
  | nil => rfl
  | cons d r ih =>
    rw [List.mem_cons, not_or] at h
    rw [replaceEach, List.flatMap_cons, if_neg (Ne.symm h.1)]
    exact congrArg (d :: ·) (ih h.2)

theorem replaceEach_self : replaceEach c t [c] = t := by
  rw [replaceEach, List.flatMap_singleton, if_pos rfl]

theorem replaceEach_flatMap (f : Char → List Char) :
    replaceEach c t (s.flatMap f) = s.flatMap fun d => replaceEach c t (f d) :=
  List.flatMap_assoc

theorem not_mem_replaceEach_self (h : c ∉ t) : c ∉ replaceEach c t s := by
  intro hm
  obtain ⟨d, _, hd⟩ := List.mem_flatMap.mp hm
  split at hd
  · exact h hd
  · rename_i hne
    exact hne (List.mem_singleton.mp hd).symm

theorem not_mem_replaceEach (hs : d ∉ s) (ht : d ∉ t) : d ∉ replaceEach c t s := by
  intro hm
  obtain ⟨e, he, hd⟩ := List.mem_flatMap.mp hm
  split at hd
  · exact ht hd
  · exact hs (List.mem_singleton.mp hd ▸ he)

end Replace

theorem escapeTextChar_eq (c : Char) : escapeTextChar c = replacedText [c] := by
  unfold escapeTextChar replacedText
  by_cases ha : c = '&'
  · rw [if_pos ha, ha, replaceEach_self, replaceEach_of_not_mem (by decide),
      replaceEach_of_not_mem (by decide)]
  rw [if_neg ha, replaceEach_of_not_mem fun h => ha (List.mem_singleton.mp h).symm]
  by_cases hl : c = '<'
  · rw [if_pos hl, hl, replaceEach_self, replaceEach_of_not_mem (by decide)]
  rw [if_neg hl, replaceEach_of_not_mem fun h => hl (List.mem_singleton.mp h).symm]
  by_cases hg : c = '>'
  · rw [if_pos hg, hg, replaceEach_self]
  · rw [if_neg hg, replaceEach_of_not_mem fun h => hg (List.mem_singleton.mp h).symm]

theorem escapeValueChar_eq (c : Char) :
    escapeValueChar c = replaceEach '"' "&quot;".toList (escapeTextChar c) := by
  unfold escapeValueChar
  by_cases hq : c = '"'
  · rw [if_pos hq, hq]
    decide
  · have hvalue := quote_not_mem_escapeValueChar c
    rw [escapeValueChar, if_neg hq] at hvalue
    rw [if_neg hq, replaceEach_of_not_mem hvalue]

theorem escapeText_eq (s : List Char) : escapeText s = replacedText s :=
  calc escapeText s
      = s.flatMap fun c => replacedText [c] := by rw [escapeText, funext escapeTextChar_eq]
    _ = replacedText (s.flatMap fun c => [c]) := by
        simp only [replacedText, replaceEach_flatMap]
    _ = replacedText s := by rw [List.flatMap_singleton']

theorem escapeValue_eq (s : List Char) : escapeValue s = replacedValue s := by
  rw [replacedValue, ← escapeText_eq, escapeText, replaceEach_flatMap, escapeValue,
    funext escapeValueChar_eq]

theorem gt_not_mem_replacedText (s : List Char) : '>' ∉ replacedText s :=
  not_mem_replaceEach_self (by decide)

/-- The last replacement puts in no mark of a tag. -/
theorem not_mem_replacedValue {c : Char} {s : List Char} (h : c ∉ replacedText s)
    (hq : c ∉ "&quot;".toList) : c ∉ replacedValue s :=
  not_mem_replaceEach h hq

/-- A text escaped by the row of replacements is read as it was, in both forms.  Neither form has a
character that begins or ends a tag, and the form for values has none that ends a value. -/
theorem escaped_reads_back (s : List Char) :
    (escapeText s = replacedText s ∧ escapeValue s = replacedValue s) ∧
      (decodeReferences (replacedText s) = s ∧ decodeReferences (replacedValue s) = s) ∧
      ('<' ∉ replacedText s ∧ '>' ∉ replacedText s) ∧
      ('<' ∉ replacedValue s ∧ '>' ∉ replacedValue s ∧ '"' ∉ replacedValue s) := by
  have htext : decodeReferences (replacedText s) = s := by
    rw [← escapeText_eq, decodeReferences_escapeText]
  have hvalue : decodeReferences (replacedValue s) = s := by
    rw [← escapeValue_eq, decodeReferences_escapeValue]
  have hlt : '<' ∉ replacedText s := escapeText_eq s ▸ lt_not_mem_escapeText s
  have hgt := gt_not_mem_replacedText s
  have hquote : '"' ∉ replacedValue s := not_mem_replaceEach_self (by decide)
  exact ⟨⟨escapeText_eq s, escapeValue_eq s⟩, ⟨htext, hvalue⟩, ⟨hlt, hgt⟩,
    not_mem_replacedValue hlt (by decide), not_mem_replacedValue hgt (by decide), hquote⟩

end Bindery
