import Mathlib.Data.List.Forall2
import Bindery.Markup.Reader

/-!
# Elements and their opening tags

Each opening tag of a text begins one element, and no other lexeme does.  The elements that are read
stand in the order of these tags, whatever closes them.  From an opening tag on, up to where its element
is closed, the text is searched for the order of the attributes.

* `Opening`                 an opening tag in a text
* `Opening.Begins`          an opening tag and its element
* `Stack.Began`             the tags of the elements that are there, and of those that are open
* `Stack.Began.take`        one step of reading
* `Fragment.begins_ofChars` the elements of a fragment that was read
-/

namespace Bindery

namespace Fragment

theorem descendants_append {ι : Type} (f g : Fragment ι) :
    (f ++ g).descendants = f.descendants ++ g.descendants := by
  induction f with
  | nil => rfl
  | text content rest ih => exact ih
  | element label tag a children rest _ ih =>
    simp only [element_append, descendants, ih, List.cons_append, List.append_assoc]

end Fragment

structure Opening where
  lexeme : Lexeme
  /-- what follows the tag in the text -/
  behind : List Char
deriving DecidableEq

/-- The tag begins the element.  The attributes stand in the order in which they are named from the tag
on, in a part of the text that may go on behind the tag. -/
def Opening.Begins (o : Opening) (e : Element Unit) : Prop :=
  ∃ name attributes selfClosing more, o.lexeme.token = .opening name attributes selfClosing ∧
    more <+: o.behind ∧
    e = ⟨(), Text.lower (String.ofList name), Attributes.ofWritten attributes (o.lexeme.source ++ more)⟩

open Opening (Begins)

namespace Lexeme

def openings : List Lexeme → List Opening
  | [] => []
  | x :: r =>
    match x.token with
    | .opening _ _ _ => ⟨x, r.flatMap source⟩ :: openings r
    | _ => openings r

theorem mem_of_mem_openings {lexemes : List Lexeme} {o : Opening} (h : o ∈ openings lexemes) :
    o.lexeme ∈ lexemes ∧ o.lexeme.source ++ o.behind <:+ lexemes.flatMap source := by
  induction lexemes with
  | nil => cases h
  | cons x r ih =>
    have hrest : o ∈ openings r → o.lexeme ∈ x :: r ∧
        o.lexeme.source ++ o.behind <:+ (x :: r).flatMap source := fun h => by
      obtain ⟨hm, hsuffix⟩ := ih h
      rw [List.flatMap_cons]
      exact ⟨List.mem_cons_of_mem x hm, hsuffix.trans (List.suffix_append _ _)⟩
    rw [openings] at h
    split at h
    · rcases List.mem_cons.mp h with rfl | h
      · exact ⟨List.mem_cons_self, List.suffix_refl _⟩
      · exact hrest h
    · exact hrest h

end Lexeme

open Lexeme (openings)

namespace Level

variable {l : Level} {o : Opening} {ys : List Opening} {selfClosing : Bool}

theorem begins_add (h : List.Forall₂ Begins ys l.children.descendants) {zs : List Opening}
    {nodes : Fragment Unit} (hn : List.Forall₂ Begins zs nodes.descendants) (source : List Char) :
    List.Forall₂ Begins (ys ++ zs) (l.add nodes source).children.descendants := by
  rw [add, Fragment.descendants_append]
  exact List.rel_append h hn

theorem begins_close (ht : o.lexeme.token = .opening l.name l.attributes selfClosing)
    (hs : o.lexeme.source = l.opening) (h : List.Forall₂ Begins ys l.children.descendants)
    {more : List Char} (hmore : more <+: o.behind) :
    List.Forall₂ Begins (o :: ys) (l.close (l.opening ++ more)).descendants := by
  have hdescendants : (l.close (l.opening ++ more)).descendants
      = ⟨(), Text.lower (String.ofList l.name), Attributes.ofWritten l.attributes (l.opening ++ more)⟩
        :: l.children.descendants := List.append_nil _
  rw [hdescendants]
  exact .cons ⟨l.name, l.attributes, selfClosing, more, ht, hmore, by rw [hs]⟩ h

end Level

namespace Stack

/-- The opening tags that have been read are those of the elements that are there and of the levels that
are open, in this order.  Behind the tag of a level stands what was read inside it, and then `rest`. -/
inductive Began : List Opening → List Char → Stack → Prop where
  | row {xs : List Opening} {rest : List Char} {row : Fragment Unit} :
      List.Forall₂ Begins xs row.descendants → Began xs rest ⟨[], row⟩
  | level {xs ys : List Opening} {x : Lexeme} {rest : List Char} {l : Level} {outer : List Level}
      {row : Fragment Unit} {selfClosing : Bool} :
      Began xs (l.opening ++ l.inside ++ rest) ⟨outer, row⟩ →
      x.token = .opening l.name l.attributes selfClosing → x.source = l.opening →
      List.Forall₂ Begins ys l.children.descendants →
      Began (xs ++ ⟨x, l.inside ++ rest⟩ :: ys) rest ⟨l :: outer, row⟩

namespace Began

variable {xs : List Opening} {rest : List Char} {s : Stack}

theorem add {source : List Char} (h : Began xs (source ++ rest) s) {ys : List Opening}
    {nodes : Fragment Unit} (hn : List.Forall₂ Begins ys nodes.descendants) :
    Began (xs ++ ys) rest (s.add nodes source) := by
  cases h with
  | row h =>
    refine .row ?_
    rw [Fragment.descendants_append]
    exact List.rel_append h hn
  | @level xs ys' x _ l outer row selfClosing h ht hs hl =>
    have hinside : l.inside ++ (source ++ rest) = (l.add nodes source).inside ++ rest :=
      (List.append_assoc _ _ _).symm
    have hopening : l.opening ++ l.inside ++ (source ++ rest)
        = l.opening ++ (l.add nodes source).inside ++ rest := by
      rw [List.append_assoc, hinside, List.append_assoc]
    rw [hopening] at h
    rw [List.append_assoc, List.cons_append, hinside]
    exact .level h ht hs (Level.begins_add hl hn source)

/-- One lexeme begins an element if it is an opening tag, and only then. -/
theorem take {x : Lexeme} (h : Began xs (x.source ++ rest) s) :
    Began (xs ++ match x.token with | .opening _ _ _ => [⟨x, rest⟩] | _ => []) rest (s.take x) := by
  obtain ⟨token, source⟩ := x
  cases token with
  | text content => exact h.add .nil
  | opening name attributes selfClosing =>
    unfold Stack.take
    dsimp only
    split
    · refine h.add ?_
      have hclose := Level.begins_close (o := ⟨⟨.opening name attributes selfClosing, source⟩, rest⟩)
        (l := ⟨name, attributes, source, [], .nil⟩) rfl rfl .nil List.nil_prefix
      rwa [List.append_nil] at hclose
    · exact .level (l := ⟨name, attributes, source, [], .nil⟩) (by rwa [List.append_nil]) rfl rfl .nil
  | closing name =>
    dsimp only
    cases h with
    | row h =>
      rw [List.append_nil]
      exact .row h
    | @level xs ys x _ l outer row selfClosing h ht hs hl =>
      unfold Stack.take
      dsimp only
      split
      · have hmore : l.inside ++ source <+: l.inside ++ (source ++ rest) := by
          rw [← List.append_assoc]
          exact List.prefix_append _ _
        have hclose := Level.begins_close (o := ⟨x, l.inside ++ (source ++ rest)⟩) ht hs hl hmore
        rw [← List.append_assoc l.opening] at hclose
        rw [← List.append_assoc] at h
        rw [List.append_nil]
        exact h.add hclose
      · exact (Began.level h ht hs hl).add .nil
  | skipped => exact h.add .nil

theorem foldl {lexemes : List Lexeme} (h : Began xs (lexemes.flatMap Lexeme.source) s) :
    Began (xs ++ openings lexemes) [] (lexemes.foldl Stack.take s) := by
  induction lexemes generalizing xs s with
  | nil =>
    rw [openings, List.append_nil]
    exact h
  | cons x r ih =>
    have hr := ih h.take
    rw [List.append_assoc] at hr
    rw [openings]
    cases htoken : x.token <;> (rw [htoken] at hr; exact hr)

theorem finish {row : Fragment Unit} {opened : List Level} (h : Began xs rest ⟨opened, row⟩)
    {ys : List Opening} {inner : Fragment Unit} (hi : List.Forall₂ Begins ys inner.descendants) :
    List.Forall₂ Begins (xs ++ ys) (Stack.finish row inner opened).descendants := by
  -- each level is closed into the one around it
  induction opened generalizing xs rest ys inner with
  | nil =>
    cases h with
    | row h =>
      rw [Stack.finish, Fragment.descendants_append]
      exact List.rel_append h hi
  | cons l outer ih =>
    cases h with
    | @level xs ys' x _ _ _ _ selfClosing h ht hs hl =>
      have hclose := Level.begins_close (o := ⟨x, l.inside ++ rest⟩)
        (l := { l with children := l.children ++ inner }) ht hs (Level.begins_add hl hi [])
        List.nil_prefix
      rw [List.append_nil] at hclose
      rw [List.append_assoc]
      exact ih h hclose

end Began

end Stack

/-- The elements of a fragment that is read are those that the opening tags begin, in their order. -/
theorem Fragment.begins_ofChars (s : List Char) :
    List.Forall₂ Begins (openings (Lexeme.ofText s)) (ofChars s).descendants := by
  have hempty : ∀ rest, Stack.Began [] rest Stack.empty := fun _ => .row .nil
  have hnil : List.Forall₂ Begins [] (nil : Fragment Unit).descendants := .nil
  have hall := (hempty ((Lexeme.ofText s).flatMap Lexeme.source)).foldl.finish hnil
  rwa [List.nil_append, List.append_nil] at hall

end Bindery
