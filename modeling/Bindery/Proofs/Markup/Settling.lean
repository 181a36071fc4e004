import Bindery.Proofs.Markup.RoundTrip
import Bindery.Proofs.Markup.Scanned

/-!
# Writing settles

A fragment and what is read from its writing need not be the same: texts side by side are read as one,
and what a void element holds is not written.  Apart from that, a fragment that was read from a text and
that is settled comes back as it is, so it is written in the same way again.

* `Fragment.Settled`       every element that is written comes back from its place
* `Fragment.joined`        the fragment that comes back
* `print_joined`           it is written in the same way
* `readable_joined`        and it is read back as it is
* `markup_ofText_markup`   so the writing of what was read stays as it is
-/

namespace Bindery.Fragment

variable {ι : Type}

/-- Of all elements that are written, the attributes stand in the order of their tag, and those that
are void for the reader but not for the writer are empty.  What a void element holds is not written. -/
def Settled : Fragment ι → Prop
  | nil => True
  | text _ rest => rest.Settled
  | element _ tag attributes children rest =>
    attributes.Settled tag ∧
      (tag ∉ voidTags → (tag.toList ∈ standaloneTags → children = nil) ∧ children.Settled) ∧
      rest.Settled

instance decidableSettled [DecidableEq ι] : (f : Fragment ι) → Decidable f.Settled
  | nil => inferInstanceAs (Decidable True)
  | text _ rest => decidableSettled rest
  | element _ tag attributes children rest =>
    have := decidableSettled children
    have := decidableSettled rest
    inferInstanceAs (Decidable (attributes.Settled tag ∧
      (tag ∉ voidTags → (tag.toList ∈ standaloneTags → children = nil) ∧ children.Settled) ∧
      rest.Settled))

/-- The fragment behind a text.  A text that it begins with becomes part of that text. -/
def behind (content : String) : Fragment ι → Fragment ι
  | text other rest => text (content ++ other) rest
  | f => text content f

/-- The fragment with the texts that stand side by side made one, and void elements empty. -/
def joined : Fragment ι → Fragment ι
  | nil => nil
  | text content rest => behind content rest.joined
  | element label tag attributes children rest =>
    element label tag attributes (if tag ∈ voidTags then nil else children.joined) rest.joined

/-! ## The writing -/

theorem print_bare (f : Fragment ι) : f.bare.print = f.print := by
  induction f with
  | nil => rfl
  | text content rest ih => exact congrArg (escapeText content.toList ++ ·) ih
  | element label tag attributes children rest ihc ih =>
    exact congrArg₂ (fun c r => printElement tag attributes c ++ r) ihc ih

theorem print_behind (content : String) (f : Fragment ι) :
    (behind content f).print = escapeText content.toList ++ f.print := by
  cases f with
  | nil => rfl
  | element label tag attributes children rest => rfl
  | text other rest =>
    show escapeText (content ++ other).toList ++ rest.print = _
    rw [String.toList_append, escapeText, List.flatMap_append, List.append_assoc]
    rfl

theorem print_joined (f : Fragment ι) : f.joined.print = f.print := by
  induction f with
  | nil => rfl
  | text content rest ih => rw [joined, print_behind, ih, print]
  | element label tag attributes children rest ihc ih =>
    rw [joined, print, print, ih, printElement, printElement]
    by_cases hv : tag ∈ voidTags
    · rw [if_pos hv, if_pos hv]
    · rw [if_neg hv, if_neg hv, if_neg hv, ihc]

/-! ## Reading it back -/

theorem Readable.behind {f : Fragment ι} (h : f.Readable) {content : String} (hc : content ≠ "") :
    (behind content f).Readable := by
  cases h with
  | nil => exact .text hc rfl .nil
  | text ho hrest hr =>
    refine .text (fun he => hc ?_) hrest hr
    exact (String.append_eq_empty_iff.mp he).1
  | void hr hs hv hrest => exact .text hc rfl (.void hr hs hv hrest)
  | standalone hr hs hv hv' hrest => exact .text hc rfl (.standalone hr hs hv hv' hrest)
  | element hr hs hv hv' hchildren hrest => exact .text hc rfl (.element hr hs hv hv' hchildren hrest)

theorem readable_joined {f : Fragment ι} (hf : f.Scanned) (h : f.Settled) : f.joined.Readable := by
  induction f with
  | nil => exact .nil
  | text content rest ih => exact (ih hf.2 h).behind hf.1
  | element label tag attributes children rest ihc ih =>
    obtain ⟨htag, hchildren, hrest⟩ := hf
    obtain ⟨hs, hinside, hbehind⟩ := h
    rw [joined]
    by_cases hv : tag ∈ voidTags
    · rw [if_pos hv]
      exact .void htag hs hv (ih hrest hbehind)
    · obtain ⟨hempty, hsettled⟩ := hinside hv
      rw [if_neg hv]
      by_cases hv' : tag.toList ∈ standaloneTags
      · rw [hempty hv']
        exact .standalone htag hs hv hv' (ih hrest hbehind)
      · exact .element htag hs hv hv' (ihc hchildren hsettled) (ih hrest hbehind)

/-- What was read from a text and is settled is written in the same way after it was read back. -/
theorem markup_ofText_markup {f : Fragment ι} (hf : f.Scanned) (h : f.Settled) :
    (ofText f.markup).markup = f.markup := by
  have hback := ofText_markup (readable_joined hf h)
  have hsame : f.joined.markup = f.markup := by rw [markup_eq, markup_eq, print_joined]
  rw [hsame] at hback
  rw [hback, markup_eq, markup_eq, print_bare, print_joined]

end Bindery.Fragment
