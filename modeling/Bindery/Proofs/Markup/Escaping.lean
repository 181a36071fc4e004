import Mathlib.Algebra.GroupWithZero.Nat
import Bindery.Markup.Reference

/-!
# Escaped text read back

A text is escaped one character at a time: a character that markup gives a meaning to becomes a
reference, and any other stays.  Resolving references undoes this, whatever stands behind.  No `<` is
left in an escaped text, and no `"` in an escaped value, so neither can end before its own end.

* `StandsFor`                        characters that resolve to one character, before any text
* `decodeReferences_escapeText`      text between tags
* `decodeReferences_escapeValue`     text inside quotes
-/

namespace Bindery

namespace Reference

/-- A body without `;` that keeps to the limit is read up to the `;` behind it. -/
theorem beforeSemicolon?_append {limit : Nat} {body : List Char} (hs : ';' ∉ body)
    (hl : (body.map Char.utf8Size).sum ≤ limit) (after : List Char) :
    beforeSemicolon? limit (body ++ ';' :: after) = some (body, after) := by
  induction body generalizing limit with
  | nil => rfl
  | cons c r ih =>
    rw [List.mem_cons, not_or] at hs
    rw [List.map_cons, List.sum_cons] at hl
    have hrest : (r.map Char.utf8Size).sum ≤ limit - c.utf8Size := by omega
    rw [List.cons_append, beforeSemicolon?, if_neg (Ne.symm hs.1), if_neg (by omega), ih hs.2 hrest]
    rfl

/-- A reference to a character, as it stands between `&` and `;`. -/
structure Names (body : List Char) (c : Char) : Prop where
  nonempty : body ≠ []
  unclosed : ';' ∉ body
  short : (body.map Char.utf8Size).sum ≤ 10
  resolved : resolve? body = some c

theorem Names.read? {body : List Char} {c : Char} (h : Names body c) (after : List Char) :
    read? (body ++ ';' :: after) = some (c, after) := by
  have hb : (!body.isEmpty) = true := by rw [List.isEmpty_eq_false_iff.mpr h.nonempty, Bool.not_false]
  have hbody : body? (body ++ ';' :: after) = some (body, after) := by
    rw [body?, beforeSemicolon?_append h.unclosed h.short, Option.filter_some]
    exact if_pos hb
  rw [Reference.read?, hbody, Option.bind_some]
  dsimp only
  rw [h.resolved]
  rfl

end Reference

open Reference (Names)

/-- The characters resolve to `c`, and what stands behind them is read on its own. -/
def StandsFor (written : List Char) (c : Char) : Prop :=
  ∀ after, decodeReferences (written ++ after) = c :: decodeReferences after

theorem standsFor_reference {body : List Char} {c : Char} (h : Names body c) :
    StandsFor ('&' :: body ++ [';']) c := by
  intro after
  have hr := h.read? after
  have he : '&' :: body ++ [';'] ++ after = '&' :: (body ++ ';' :: after) := by
    rw [List.cons_append, List.cons_append, List.append_assoc, List.singleton_append]
  rw [he, decodeReferences, if_pos rfl]
  split
  · rename_i d rest hd
    rw [hr] at hd
    cases hd
    rfl
  · rename_i hd
    rw [hr] at hd
    cases hd

theorem standsFor_self {c : Char} (h : c ≠ '&') : StandsFor [c] c := by
  intro after
  rw [List.singleton_append, decodeReferences, if_neg h]

theorem standsFor_escapeTextChar (c : Char) : StandsFor (escapeTextChar c) c := by
  unfold escapeTextChar
  by_cases ha : c = '&'
  · rw [if_pos ha, ha]
    have hn : Names "amp".toList '&' := ⟨by decide, by decide, by decide, by decide⟩
    exact standsFor_reference hn
  rw [if_neg ha]
  by_cases hl : c = '<'
  · rw [if_pos hl, hl]
    have hn : Names "lt".toList '<' := ⟨by decide, by decide, by decide, by decide⟩
    exact standsFor_reference hn
  rw [if_neg hl]
  by_cases hg : c = '>'
  · rw [if_pos hg, hg]
    have hn : Names "gt".toList '>' := ⟨by decide, by decide, by decide, by decide⟩
    exact standsFor_reference hn
  rw [if_neg hg]
  exact standsFor_self ha

theorem standsFor_escapeValueChar (c : Char) : StandsFor (escapeValueChar c) c := by
  unfold escapeValueChar
  by_cases hq : c = '"'
  · rw [if_pos hq, hq]
    have hn : Names "quot".toList '"' := ⟨by decide, by decide, by decide, by decide⟩
    exact standsFor_reference hn
  · rw [if_neg hq]
    exact standsFor_escapeTextChar c

/-- A text written character by character reads as itself. -/
theorem decodeReferences_flatMap {escape : Char → List Char} (h : ∀ c, StandsFor (escape c) c)
    (s : List Char) : decodeReferences (s.flatMap escape) = s := by
  induction s with
  | nil => rw [List.flatMap_nil, decodeReferences]
  | cons c r ih => rw [List.flatMap_cons, h c, ih]

theorem decodeReferences_escapeText (s : List Char) : decodeReferences (escapeText s) = s :=
  decodeReferences_flatMap standsFor_escapeTextChar s

theorem decodeReferences_escapeValue (s : List Char) : decodeReferences (escapeValue s) = s :=
  decodeReferences_flatMap standsFor_escapeValueChar s

/-- A text does not vanish when its references are resolved. -/
theorem decodeReferences_ne_nil {s : List Char} (h : s ≠ []) : decodeReferences s ≠ [] := by
  obtain ⟨c, r, rfl⟩ := List.exists_cons_of_ne_nil h
  rw [decodeReferences]
  split
  · split
    · exact List.cons_ne_nil _ _
    · exact List.cons_ne_nil _ _
  · exact List.cons_ne_nil _ _

/-! ## Where an escaped text ends -/

theorem lt_not_mem_escapeTextChar (c : Char) : '<' ∉ escapeTextChar c := by
  unfold escapeTextChar
  split
  · decide
  split
  · decide
  split
  · decide
  · rename_i hl _
    exact fun h => hl (List.mem_singleton.mp h).symm

theorem lt_not_mem_escapeText (s : List Char) : '<' ∉ escapeText s := by
  intro h
  obtain ⟨c, _, hc⟩ := List.mem_flatMap.mp h
  exact lt_not_mem_escapeTextChar c hc

theorem escapeTextChar_ne_nil (c : Char) : escapeTextChar c ≠ [] := by
  unfold escapeTextChar
  split
  · decide
  split
  · decide
  split
  · decide
  · exact List.cons_ne_nil c []

theorem escapeText_ne_nil {s : List Char} (h : s ≠ []) : escapeText s ≠ [] := by
  obtain ⟨c, r, rfl⟩ := List.exists_cons_of_ne_nil h
  exact fun he => escapeTextChar_ne_nil c (List.append_eq_nil_iff.mp he).1

theorem quote_not_mem_escapeValueChar (c : Char) : '"' ∉ escapeValueChar c := by
  unfold escapeValueChar
  by_cases hq : c = '"'
  · rw [if_pos hq]
    decide
  rw [if_neg hq]
  unfold escapeTextChar
  split
  · decide
  split
  · decide
  split
  · decide
  · exact fun h => hq (List.mem_singleton.mp h).symm

theorem quote_not_mem_escapeValue (s : List Char) : '"' ∉ escapeValue s := by
  intro h
  obtain ⟨c, _, hc⟩ := List.mem_flatMap.mp h
  exact quote_not_mem_escapeValueChar c hc

end Bindery
