import Mathlib.Data.List.Perm.Basic
import Mathlib.Data.List.Nodup
import Bindery.Markup.Reader
import Bindery.Proofs.Markup.Names
import Bindery.Proofs.Markup.Naming

/-!
# The order of attributes restored

The reader takes `id` and `class` out of a tag and puts them behind the other attributes, then goes by
the order in which the tag names them.  A written tag names its attributes in their order, so what
comes out is the list that went in, as long as the attributes that the tag cannot spell, those without
a name or with a `/` in it, stand last, and the name of the tag moves none.

* `arrangeBy_cons`               arranging goes by one key after the other
* `Attributes.arrange_of_perm`   and depends little on the order before
* `IsReadTag`                    a tag as a reader gives it
* `Attributes.Settled`           attributes that stand in the order of their own tag
* `Attributes.ofWritten_written` the attributes of a written tag
-/

namespace Bindery

open Token (IsNameRun)
open WrittenOrder (spelled)

/-! ## Lists with a key -/

section Keyed

variable {α β : Type} [DecidableEq β] {f : α → β} {l : List α}

theorem filter_key_eq (h : (l.map f).Nodup) {a : α} (ha : a ∈ l) :
    (l.filter fun x => f x = f a) = [a] := by
  induction l with
  | nil => cases ha
  | cons b r ih =>
    rw [List.map_cons, List.nodup_cons] at h
    rcases List.mem_cons.mp ha with rfl | har
    · have hnone : (r.filter fun x => f x = f a) = [] := by
        refine List.filter_eq_nil_iff.mpr fun x hx he => h.1 ?_
        rw [← of_decide_eq_true he]
        exact List.mem_map_of_mem hx
      rw [List.filter_cons_of_pos (by simp), hnone]
    · have hne : f b ≠ f a := fun he => h.1 (he ▸ List.mem_map_of_mem har)
      rw [List.filter_cons_of_neg (by simpa using hne), ih h.2 har]

theorem eraseDups_filter (p : β → Bool) (l : List β) :
    (l.filter p).eraseDups = l.eraseDups.filter p := by
  match l with
  | [] => rfl
  | b :: r =>
    have hrest := eraseDups_filter p (r.filter fun x => !x == b)
    rw [List.filter_filter] at hrest
    rw [List.eraseDups_cons]
    cases hb : p b with
    | true =>
      rw [List.filter_cons_of_pos hb, List.filter_cons_of_pos hb, List.eraseDups_cons,
        List.filter_filter, ← hrest]
      simp only [Bool.and_comm]
    | false =>
      have hsame : (r.filter fun x => p x && !x == b) = r.filter p := by
        refine List.filter_congr fun x _ => ?_
        by_cases hx : x = b
        · rw [hx, hb, Bool.false_and]
        · simp [hx]
      rw [List.filter_cons_of_neg (by rw [hb]; decide), List.filter_cons_of_neg (by rw [hb]; decide),
        ← hrest, hsame]
termination_by l.length
decreasing_by
  have hle := List.length_filter_le (fun x => !x == b) r
  rw [List.length_cons]
  omega

omit [DecidableEq β] in
theorem flatMap_filter_of_nil {p : β → Bool} {g h : β → List α} {keys : List β}
    (hin : ∀ k, p k = true → g k = h k) (hout : ∀ k, p k = false → h k = []) :
    (keys.filter p).flatMap g = keys.flatMap h := by
  induction keys with
  | nil => rfl
  | cons k r ih =>
    cases hk : p k with
    | true => rw [List.filter_cons_of_pos hk, List.flatMap_cons, List.flatMap_cons, hin k hk, ih]
    | false =>
      rw [List.filter_cons_of_neg (by rw [hk]; decide), List.flatMap_cons, hout k hk,
        List.nil_append, ih]

theorem perm_filter_three {p q : α → Bool} (h : ∀ x, q x = true → p x = false) (l : List α) :
    ((l.filter fun x => !p x && !q x) ++ l.filter p ++ l.filter q).Perm l := by
  have hq : l.filter q = (l.filter fun x => !p x).filter q := by
    rw [List.filter_filter]
    refine List.filter_congr fun x _ => ?_
    cases hx : q x with
    | false => rw [Bool.false_and]
    | true => rw [h x hx, Bool.not_false, Bool.and_true]
  have hboth : (l.filter fun x => !p x && !q x) = (l.filter fun x => !p x).filter fun x => !q x := by
    rw [List.filter_filter]
    exact List.filter_congr fun x _ => Bool.and_comm _ _
  have hp := List.filter_append_perm p l
  rw [hq, hboth]
  generalize (l.filter fun x => !p x) = others at hp ⊢
  calc List.Perm ((others.filter fun x => !q x) ++ l.filter p ++ others.filter q)
        (others.filter q ++ ((others.filter fun x => !q x) ++ l.filter p)) := List.perm_append_comm
    List.Perm _ ((others.filter q ++ others.filter fun x => !q x) ++ l.filter p) := by
      rw [List.append_assoc]
    List.Perm _ (others ++ l.filter p) := (List.filter_append_perm q others).append_right _
    List.Perm _ (l.filter p ++ others) := List.perm_append_comm
    List.Perm _ l := hp

omit [DecidableEq β] in
/-- A list in which nothing that passes a test stands behind something that fails it. -/
theorem filter_append_filter_not {p : α → Bool} (h : l.Pairwise fun a b => p b = true → p a = true) :
    l.filter p ++ (l.filter fun a => !p a) = l := by
  induction l with
  | nil => rfl
  | cons a r ih =>
    rw [List.pairwise_cons] at h
    cases ha : p a with
    | true =>
      rw [List.filter_cons_of_pos ha, List.filter_cons_of_neg (by simp [ha]), List.cons_append,
        ih h.2]
    | false =>
      have hnone : ∀ b ∈ r, ¬ p b = true := fun b hb hp => by
        rw [h.1 b hb hp] at ha
        cases ha
      have hall : (r.filter fun a => !p a) = r :=
        List.filter_eq_self.mpr fun b hb => by simpa using hnone b hb
      rw [List.filter_cons_of_neg (by simp [ha]), List.filter_cons_of_pos (by simp [ha]),
        List.filter_eq_nil_iff.mpr hnone, hall, List.nil_append]

/-- The entries whose keys are listed, in the order of the list, and then the others. -/
def arrangeBy (f : α → β) (order : List β) (l : List α) : List α :=
  order.eraseDups.flatMap (fun k => l.filter fun x => f x = k) ++ l.filter fun x => f x ∉ order

theorem filter_key_not_mem_cons (k : β) (order : List β) (l : List α) :
    (l.filter fun x => f x ∉ k :: order)
      = (l.filter fun x => f x ≠ k).filter fun x => f x ∉ order := by
  rw [List.filter_filter]
  refine List.filter_congr fun x _ => ?_
  simp [Bool.and_comm]

theorem arrangeBy_nil (l : List α) : arrangeBy f [] l = l := by
  simp [arrangeBy]

theorem arrangeBy_cons (k : β) (order : List β) (l : List α) :
    arrangeBy f (k :: order) l
      = (l.filter fun x => f x = k) ++ arrangeBy f order (l.filter fun x => f x ≠ k) := by
  have hrest : ((order.filter fun n => !n == k).eraseDups.flatMap fun n => l.filter fun x => f x = n)
      = order.eraseDups.flatMap fun n =>
          (l.filter fun x => f x ≠ k).filter fun x => f x = n := by
    rw [eraseDups_filter]
    refine flatMap_filter_of_nil (fun n hn => ?_) fun n hn => ?_
    · have hne : n ≠ k := by simpa using hn
      rw [List.filter_filter]
      refine List.filter_congr fun x _ => ?_
      by_cases hx : f x = n
      · simp [hx, hne]
      · simp [hx]
    · obtain rfl : n = k := by simpa using hn
      simp
  rw [arrangeBy, arrangeBy, List.eraseDups_cons, List.flatMap_cons, hrest, filter_key_not_mem_cons,
    List.append_assoc]

theorem perm_arrangeBy (order : List β) (l : List α) : (arrangeBy f order l).Perm l := by
  induction order generalizing l with
  | nil => rw [arrangeBy_nil]
  | cons k order ih =>
    have hparts := List.filter_append_perm (fun x => f x = k) l
    simp only [← decide_not] at hparts
    rw [arrangeBy_cons]
    exact ((ih _).append_left _).trans hparts

end Keyed

/-! ## Arranging -/

namespace Attributes

theorem arrange_nil (pairs : List (String × String)) : arrange [] pairs = pairs := arrangeBy_nil pairs

theorem arrange_cons (name : String) (order : List String) (pairs : List (String × String)) :
    arrange (name :: order) pairs
      = (pairs.filter fun p => p.1 = name) ++ arrange order (pairs.filter fun p => p.1 ≠ name) :=
  arrangeBy_cons name order pairs

theorem arrange_of_not_mem {order : List String} {pairs : List (String × String)}
    (h : ∀ p ∈ pairs, p.1 ∉ order) : arrange order pairs = pairs := by
  induction order with
  | nil => exact arrange_nil pairs
  | cons name order ih =>
    have hnone : (pairs.filter fun p => p.1 = name) = [] :=
      List.filter_eq_nil_iff.mpr fun p hp he =>
        h p hp (List.mem_cons.mpr (Or.inl (of_decide_eq_true he)))
    have hall : (pairs.filter fun p => p.1 ≠ name) = pairs :=
      List.filter_eq_self.mpr fun p hp =>
        decide_eq_true fun he => h p hp (List.mem_cons.mpr (Or.inl he))
    rw [arrange_cons, hnone, hall, List.nil_append,
      ih fun p hp hm => h p hp (List.mem_cons_of_mem _ hm)]

theorem perm_arrange (order : List String) (pairs : List (String × String)) :
    (arrange order pairs).Perm pairs := perm_arrangeBy order pairs

/-- The pairs that the first names take come first, whatever names follow. -/
theorem exists_arrange_append (order : List String) (pairs : List (String × String)) :
    ∃ first : List (String × String), (∀ p ∈ first, p.1 ∈ order) ∧ ∀ more,
      arrange (order ++ more) pairs = first ++ arrange more (pairs.filter fun p => p.1 ∉ order) := by
  induction order generalizing pairs with
  | nil =>
    refine ⟨[], (fun p hp => nomatch hp), fun more => ?_⟩
    have hall : (pairs.filter fun p => p.1 ∉ []) = pairs :=
      List.filter_eq_self.mpr fun p _ => decide_eq_true List.not_mem_nil
    rw [hall]
    rfl
  | cons name order ih =>
    obtain ⟨first, hin, hfirst⟩ := ih (pairs.filter fun p => p.1 ≠ name)
    refine ⟨(pairs.filter fun p => p.1 = name) ++ first, fun p hp => ?_, fun more => ?_⟩
    · rcases List.mem_append.mp hp with hp | hp
      · exact List.mem_cons.mpr (Or.inl (of_decide_eq_true (List.mem_filter.mp hp).2))
      · exact List.mem_cons_of_mem name (hin p hp)
    · rw [List.cons_append, arrange_cons, hfirst, filter_key_not_mem_cons, List.append_assoc]

/-- In front stand the pairs that are named. -/
theorem exists_arrange (order : List String) (pairs : List (String × String)) :
    ∃ first : List (String × String), (∀ p ∈ first, p.1 ∈ order) ∧
      arrange order pairs = first ++ pairs.filter fun p => p.1 ∉ order := by
  obtain ⟨first, hin, hfirst⟩ := exists_arrange_append order pairs
  refine ⟨first, hin, ?_⟩
  rw [← arrange_nil (pairs.filter fun p => p.1 ∉ order), ← hfirst [], List.append_nil]

/-- Names leave the pairs where they are if the first of them do, and the others leave the other pairs
where they are. -/
theorem arrange_append_eq_self {order more : List String} {pairs : List (String × String)} :
    arrange (order ++ more) pairs = pairs ↔ arrange order pairs = pairs ∧
      arrange more (pairs.filter fun p => p.1 ∉ order) = pairs.filter fun p => p.1 ∉ order := by
  obtain ⟨first, hin, hfirst⟩ := exists_arrange_append order pairs
  have hnone := hfirst []
  rw [List.append_nil, arrange_nil] at hnone
  rw [hfirst, hnone]
  refine ⟨fun h => ?_, fun ⟨h, hm⟩ => by rw [hm, h]⟩
  have hout : ∀ p ∈ arrange more (pairs.filter fun p => p.1 ∉ order), p.1 ∉ order := fun p hp =>
    of_decide_eq_true (List.mem_filter.mp ((perm_arrange _ _).mem_iff.mp hp)).2
  have hrest : (pairs.filter fun p => p.1 ∉ order)
      = arrange more (pairs.filter fun p => p.1 ∉ order) := by
    calc (pairs.filter fun p => p.1 ∉ order)
        = (first ++ arrange more (pairs.filter fun p => p.1 ∉ order)).filter
            (fun p => p.1 ∉ order) := by rw [h]
      _ = [] ++ arrange more (pairs.filter fun p => p.1 ∉ order) := by
          rw [List.filter_append,
            List.filter_eq_nil_iff.mpr fun p hp => by simpa using hin p hp,
            List.filter_eq_self.mpr fun p hp => decide_eq_true (hout p hp)]
  rw [← hrest] at h
  exact ⟨h, hrest.symm⟩

theorem arrange_keys {named others : List (String × String)}
    (h : ((named ++ others).map Prod.fst).Nodup) (p : String × String → Bool) (more : List String) :
    arrange (named.map Prod.fst ++ more) ((named ++ others).filter p)
      = named.filter p ++ arrange more (others.filter p) := by
  induction named with
  | nil => rfl
  | cons e r ih =>
    rw [List.cons_append, List.map_cons, List.nodup_cons] at h
    have hne : ∀ x ∈ (r ++ others).filter p, x.1 ≠ e.1 := fun x hx he =>
      h.1 (he ▸ List.mem_map_of_mem (List.mem_filter.mp hx).1)
    have hnone : (((r ++ others).filter p).filter fun x => x.1 = e.1) = [] :=
      List.filter_eq_nil_iff.mpr fun x hx he => hne x hx (of_decide_eq_true he)
    have hall : (((r ++ others).filter p).filter fun x => x.1 ≠ e.1) = (r ++ others).filter p :=
      List.filter_eq_self.mpr fun x hx => decide_eq_true (hne x hx)
    rw [List.map_cons, List.cons_append, List.cons_append, arrange_cons]
    cases hp : p e with
    | true =>
      rw [List.filter_cons_of_pos hp, List.filter_cons_of_pos hp,
        List.filter_cons_of_pos (by simp), List.filter_cons_of_neg (by simp), hnone, hall, ih h.2]
      rfl
    | false =>
      have hp : ¬ p e = true := by rw [hp]; decide
      rw [List.filter_cons_of_neg hp, List.filter_cons_of_neg hp, hnone, hall, ih h.2,
        List.nil_append]

/-- Where each name is there once, only the pairs that are not named keep the order they came in. -/
theorem arrange_of_perm {order : List String} {entries pairs : List (String × String)}
    (h : (entries.map Prod.fst).Nodup) (hp : pairs.Perm entries)
    (hrest : (pairs.filter fun p => p.1 ∉ order) = entries.filter fun p => p.1 ∉ order) :
    arrange order pairs = arrange order entries := by
  have heach : ∀ n, (pairs.filter fun p => p.1 = n) = entries.filter fun p => p.1 = n := by
    intro n
    have hfilter := hp.filter fun p => p.1 = n
    by_cases hn : ∃ e ∈ entries, e.1 = n
    · obtain ⟨e, he, rfl⟩ := hn
      rw [filter_key_eq h he] at hfilter ⊢
      exact hfilter.eq_singleton
    · have hnone : (entries.filter fun p => p.1 = n) = [] :=
        List.filter_eq_nil_iff.mpr fun e he hen => hn ⟨e, he, of_decide_eq_true hen⟩
      rw [hnone] at hfilter ⊢
      exact hfilter.eq_nil
  rw [arrange, arrange, hrest]
  simp only [heach]

end Attributes

/-! ## Attributes -/

namespace Attributes

theorem put_of_not_mem {name value : String} {l : List (String × String)}
    (h : name ∉ l.map Prod.fst) : put name value l = l ++ [(name, value)] := by
  induction l with
  | nil => rfl
  | cons e r ih =>
    rw [List.map_cons, List.mem_cons, not_or] at h
    rw [put, if_neg (Ne.symm h.1), ih h.2]
    rfl

theorem foldl_set_of_nodup {l before : List (String × String)}
    (hn : ((before ++ l).map Prod.fst).Nodup) (hl : ∀ e ∈ l, Text.lower e.1 = e.1) :
    l.foldl (fun (a : Attributes) e => a.set e.1 e.2) ⟨before⟩ = ⟨before ++ l⟩ := by
  induction l generalizing before with
  | nil => rw [List.append_nil, List.foldl_nil]
  | cons e r ih =>
    have he : e.1 ∉ before.map Prod.fst := by
      rw [List.map_append, List.map_cons] at hn
      exact fun hm => List.disjoint_of_nodup_append hn hm List.mem_cons_self
    have hset : (Attributes.mk before).set e.1 e.2 = ⟨before ++ [e]⟩ := by
      rw [set, hl e List.mem_cons_self, put_of_not_mem he]
    rw [List.append_cons] at hn ⊢
    rw [List.foldl_cons, hset, ih hn fun x hx => hl x (List.mem_cons_of_mem e hx)]

theorem Sound.of_perm {a : Attributes} (h : a.Sound) {entries : List (String × String)}
    (hp : entries.Perm a.entries) : (Attributes.mk entries).Sound where
  nodup := (hp.map Prod.fst).nodup_iff.mpr h.nodup
  lower n hn := h.lower n ((hp.map Prod.fst).mem_iff.mp hn)

theorem ofList_entries {a : Attributes} (h : a.Sound) : ofList a.entries = a := by
  have hn : (([] ++ a.entries).map Prod.fst).Nodup := h.nodup
  exact foldl_set_of_nodup hn fun e he => h.lower e.1 (List.mem_map_of_mem he)

variable {a : Attributes}

theorem nodup_written (h : a.names.Nodup) : (a.written.map WrittenAttribute.name).Nodup := by
  have hmap : a.written.map WrittenAttribute.name = a.names.map String.toList := by
    rw [written, names, List.map_map, List.map_map]
    rfl
  rw [hmap]
  exact h.map fun s t hst => String.toList_injective hst

/-- Where no name is there twice, the last attribute of a name is the only one. -/
theorem lastWritten_of_nodup {l : List WrittenAttribute} (h : (l.map WrittenAttribute.name).Nodup)
    (name : String) :
    lastWritten name l = l.filter fun w => w.name = name.toList ∧ w.value?.isSome = true := by
  have hboth : (l.filter fun w => w.name = name.toList ∧ w.value?.isSome = true)
      = (l.filter (·.name = name.toList)).filter fun w => w.value?.isSome := by
    rw [List.filter_filter]
    refine List.filter_congr fun w _ => ?_
    simp [Bool.and_comm]
  unfold lastWritten
  rw [hboth]
  by_cases hm : ∃ x ∈ l, x.name = name.toList
  · obtain ⟨x, hx, hn⟩ := hm
    have hone := filter_key_eq h hx
    rw [hn] at hone
    rw [hone]
    cases hv : x.value?.isSome <;> simp [hv]
  · have hnone : l.filter (·.name = name.toList) = [] :=
      List.filter_eq_nil_iff.mpr fun x hx he => hm ⟨x, hx, of_decide_eq_true he⟩
    rw [hnone]
    rfl

theorem lastWritten_written (h : a.names.Nodup) (name : String) :
    lastWritten name a.written = a.written.filter (·.name = name.toList) := by
  rw [lastWritten_of_nodup (nodup_written h)]
  refine List.filter_congr fun w hw => ?_
  obtain ⟨e, _, rfl⟩ := List.mem_map.mp hw
  simp

theorem perm_kinds (l : List WrittenAttribute) :
    ((l.filter fun x => x.name ≠ "id".toList ∧ x.name ≠ "class".toList)
      ++ l.filter (·.name = "id".toList) ++ l.filter (·.name = "class".toList)).Perm l := by
  have hothers : (fun x : WrittenAttribute =>
        decide (x.name ≠ "id".toList ∧ x.name ≠ "class".toList))
      = fun x => !decide (x.name = "id".toList) && !decide (x.name = "class".toList) := by
    funext x
    rw [Bool.decide_and, decide_not, decide_not]
  have hapart : ∀ x : WrittenAttribute, decide (x.name = "class".toList) = true →
      decide (x.name = "id".toList) = false := fun x hx => by
    rw [of_decide_eq_true hx]
    decide
  rw [hothers]
  exact perm_filter_three hapart l

/-- The list from which the reader makes the attributes has them all, in an order of its own. -/
theorem perm_written (h : a.names.Nodup) :
    (((a.written.filter fun x => x.name ≠ "id".toList ∧ x.name ≠ "class".toList)
      ++ lastWritten "id" a.written) ++ lastWritten "class" a.written).Perm a.written := by
  rw [lastWritten_written h, lastWritten_written h]
  exact perm_kinds a.written

theorem filter_written (h : a.names.Nodup) {q : WrittenAttribute → Bool}
    (hq : ∀ x ∈ a.written, q x = true → x.name ≠ "id".toList ∧ x.name ≠ "class".toList) :
    (((a.written.filter fun x => x.name ≠ "id".toList ∧ x.name ≠ "class".toList)
      ++ lastWritten "id" a.written) ++ lastWritten "class" a.written).filter q
      = a.written.filter q := by
  have hnone : ∀ name, (∀ x ∈ a.written, q x = true → x.name ≠ name.toList) →
      (lastWritten name a.written).filter q = [] := by
    intro name hne
    rw [lastWritten_written h, List.filter_filter]
    refine List.filter_eq_nil_iff.mpr fun x hx hboth => ?_
    rw [Bool.and_eq_true] at hboth
    exact hne x hx hboth.1 (of_decide_eq_true hboth.2)
  rw [List.filter_append, List.filter_append, hnone _ fun x hx hx' => (hq x hx hx').1,
    hnone _ fun x hx hx' => (hq x hx hx').2, List.append_nil, List.append_nil, List.filter_filter]
  refine List.filter_congr fun x hx => ?_
  cases hqx : q x with
  | false => rfl
  | true => rw [Bool.true_and, decide_eq_true (hq x hx hqx)]

theorem map_resolve_written (h : ∀ n ∈ a.names, Text.lower n = n) :
    a.written.map resolve = a.entries := by
  rw [written, List.map_map]
  calc a.entries.map (resolve ∘ fun e => ⟨e.1.toList, some (escapeValue e.2.toList)⟩)
      = a.entries.map id := List.map_congr_left fun e he => ?_
    _ = a.entries := List.map_id _
  have hname : Text.lower e.1 = e.1 := h e.1 (List.mem_map_of_mem he)
  simp only [Function.comp_apply, resolve, String.ofList_toList, hname, Option.getD_some,
    decodeReferences_escapeValue, id_eq]

end Attributes

structure IsReadTag (tag : String) (a : Attributes) : Prop where
  tagName : IsReadName tag
  nodup : a.names.Nodup
  names : ∀ n ∈ a.names, IsReadName n

namespace Attributes

/-- The attributes stand in the order in which they are read from their own tag.  No name stands right
behind the `<` of a tag without a name; the attributes that a tag cannot spell stand last; and the parts
of the tag's own name behind a `/`, which are spelled before all attributes, move none of them. -/
structure Settled (tag : String) (a : Attributes) : Prop where
  unnamed : tag = "" → ∀ n ∈ a.names.head?, n = ""
  plainFirst : a.names.Pairwise fun m n => IsPlainName n → IsPlainName m
  unmoved : arrange (writtenOrder (openingTag tag .empty)) a.entries = a.entries

instance (tag : String) (a : Attributes) : Decidable (a.Settled tag) :=
  decidable_of_iff
    ((tag = "" → ∀ n ∈ a.names.head?, n = "") ∧
      (a.names.Pairwise fun m n => IsPlainName n → IsPlainName m) ∧
      arrange (writtenOrder (openingTag tag .empty)) a.entries = a.entries)
    ⟨fun h => ⟨h.1, h.2.1, h.2.2⟩, fun h => ⟨h.unnamed, h.plainFirst, h.unmoved⟩⟩

end Attributes

namespace IsReadTag

variable {tag : String} {a : Attributes}

theorem sound (h : IsReadTag tag a) : a.Sound := ⟨h.nodup, fun n hn => (h.names n hn).lower⟩

theorem nameRun (h : IsReadTag tag a) : ∀ e ∈ a.entries, IsNameRun e.1.toList := fun e he =>
  (h.names e.1 (List.mem_map_of_mem he)).toIsNameRun

theorem arrange_spelled (h : IsReadTag tag a)
    (hp : a.names.Pairwise fun m n => IsPlainName n → IsPlainName m) (p : String × String → Bool) :
    Attributes.arrange (a.names.flatMap fun n => spelled n.toList) (a.entries.filter p)
      = a.entries.filter p := by
  have hnodup := h.nodup
  have hread := h.names
  unfold Attributes.names at hp hnodup hread ⊢
  -- the plain names stand first and spell themselves, and what the others spell is no name of theirs
  have hsplit : (a.entries.filter fun e => IsPlainName e.1)
      ++ (a.entries.filter fun e => !decide (IsPlainName e.1)) = a.entries := by
    refine filter_append_filter_not ((List.pairwise_map.mp hp).imp fun hxy hy => ?_)
    exact decide_eq_true (hxy (of_decide_eq_true hy))
  have hnamed : ∀ e ∈ a.entries.filter fun e => IsPlainName e.1, spelled e.1.toList = [e.1] :=
    fun e he => WrittenOrder.spelled_of_isPlainName (of_decide_eq_true (List.mem_filter.mp he).2)
  have hothers : ∀ e ∈ a.entries.filter fun e => !decide (IsPlainName e.1),
      IsReadName e.1 ∧ ¬ IsPlainName e.1 := fun e he => by
    obtain ⟨hm, hn⟩ := List.mem_filter.mp he
    exact ⟨hread e.1 (List.mem_map_of_mem hm), by simpa using hn⟩
  generalize (a.entries.filter fun e => IsPlainName e.1) = named at hsplit hnamed
  generalize (a.entries.filter fun e => !decide (IsPlainName e.1)) = others at hsplit hothers
  rw [← hsplit] at hnodup ⊢
  have hspelled : (named.map Prod.fst).flatMap (fun n => spelled n.toList) = named.map Prod.fst := by
    rw [List.flatMap_map]
    calc named.flatMap (fun e => spelled e.1.toList)
        = named.flatMap fun e => [e.1] := List.flatMap_congr hnamed
      _ = named.map Prod.fst := List.map_eq_flatMap.symm
  rw [List.map_append, List.flatMap_append, hspelled, Attributes.arrange_keys hnodup,
    Attributes.arrange_of_not_mem, List.filter_append]
  intro e he hm
  obtain ⟨hread, hplain⟩ := hothers e (List.mem_filter.mp he).1
  obtain ⟨n, _, hn⟩ := List.mem_flatMap.mp hm
  exact hplain (WrittenOrder.isPlainName_of_mem_namesFrom hread hn)

theorem plainFirst_of_arranged (h : IsReadTag tag a) (more : List Char)
    (hkept : Attributes.arrange (writtenOrder (openingTag tag a ++ more)) a.entries = a.entries) :
    a.names.Pairwise fun m n => IsPlainName n → IsPlainName m := by
  -- in front stand the names that the tag spells, and these are plain; a plain name is always spelled
  obtain ⟨first, hin, hfirst⟩ :=
    Attributes.exists_arrange (writtenOrder (openingTag tag a ++ more)) a.entries
  rw [hkept] at hfirst
  have hplain : ∀ e ∈ first, IsPlainName e.1 := fun e he => by
    have hm : e ∈ a.entries := hfirst ▸ List.mem_append_left _ he
    exact WrittenOrder.isPlainName_of_mem_namesFrom (h.names e.1 (List.mem_map_of_mem hm)) (hin e he)
  have hothers : ∀ e ∈ a.entries.filter fun e => e.1 ∉ writtenOrder (openingTag tag a ++ more),
      ¬ IsPlainName e.1 := fun e he hp => by
    obtain ⟨hm, hn⟩ := List.mem_filter.mp he
    exact of_decide_eq_true hn
      (mem_writtenOrder h.tagName.toIsNameRun h.nameRun more (List.mem_map_of_mem hm) hp)
  refine List.pairwise_map.mpr ?_
  rw [hfirst, List.pairwise_append]
  refine ⟨?_, ?_, fun x hx _ _ _ => hplain x hx⟩
  · exact List.pairwise_iff_forall_sublist.mpr fun hs _ =>
      hplain _ (hs.subset List.mem_cons_self)
  · refine List.pairwise_iff_forall_sublist.mpr fun hs hp => absurd hp (hothers _ ?_)
    exact hs.subset (List.mem_cons_of_mem _ List.mem_cons_self)

end IsReadTag

namespace Attributes

variable {a : Attributes}

theorem ofWritten_of_written {tag : String} (hr : IsReadTag tag a) (more : List Char) :
    ofWritten a.written (openingTag tag a ++ more)
      = ⟨arrange (writtenOrder (openingTag tag a ++ more)) a.entries⟩ := by
  have hrun := hr.tagName.toIsNameRun
  have hresolve := map_resolve_written fun n hn => (hr.names n hn).lower
  have hperm := (perm_written hr.nodup).map resolve
  rw [hresolve] at hperm
  -- The tag spells `id` and `class`, so what it does not spell was never taken out of its place.
  have hkind : ∀ {name : String}, IsPlainName name → ∀ x ∈ a.written,
      (resolve x).1 ∉ writtenOrder (openingTag tag a ++ more) → x.name ≠ name.toList := by
    intro name hp x hx hn he
    have hname : (resolve x).1 = name := by
      rw [resolve, he, String.ofList_toList, hp.lower]
    have hm : (resolve x).1 ∈ a.names := by
      rw [names, ← hresolve, List.map_map]
      exact List.mem_map_of_mem hx
    exact hn (mem_writtenOrder hrun hr.nameRun more hm (hname ▸ hp))
  let unspelled : String × String → Bool := fun p => p.1 ∉ writtenOrder (openingTag tag a ++ more)
  have hrest := congrArg (List.map resolve) (filter_written (q := unspelled ∘ resolve) hr.nodup
    fun x hx hq => ⟨hkind (by decide) x hx (of_decide_eq_true hq),
      hkind (by decide) x hx (of_decide_eq_true hq)⟩)
  rw [← List.filter_map, ← List.filter_map, hresolve] at hrest
  unfold ofWritten
  dsimp only
  rw [arrange_of_perm hr.nodup hperm hrest]
  exact ofList_entries (hr.sound.of_perm (perm_arrange _ _))

/-- The attributes of a written tag are read in their own order if they are settled, and only then. -/
theorem ofWritten_eq_self_iff {tag : String} (hr : IsReadTag tag a) (more : List Char) :
    ofWritten a.written (openingTag tag a ++ more) = a ↔
      (a.names.Pairwise fun m n => IsPlainName n → IsPlainName m) ∧
      arrange (writtenOrder (openingTag tag .empty)) a.entries = a.entries := by
  have horder := writtenOrder_openingTag hr.tagName.toIsNameRun hr.nameRun more
  rw [ofWritten_of_written hr]
  constructor
  · intro h
    have hkept : arrange (writtenOrder (openingTag tag a ++ more)) a.entries = a.entries :=
      congrArg entries h
    refine ⟨hr.plainFirst_of_arranged more hkept, ?_⟩
    rw [horder] at hkept
    exact (arrange_append_eq_self.mp hkept).1
  · rintro ⟨hplain, hunmoved⟩
    rw [horder, arrange_append_eq_self.mpr ⟨hunmoved, hr.arrange_spelled hplain _⟩]

theorem ofWritten_written {tag : String} (hr : IsReadTag tag a) (hs : a.Settled tag)
    (more : List Char) : ofWritten a.written (openingTag tag a ++ more) = a :=
  (ofWritten_eq_self_iff hr more).mpr ⟨hs.plainFirst, hs.unmoved⟩

theorem Writable.isReadTag {tag : String} (ht : IsPlainName tag) (h : a.Writable) :
    IsReadTag tag a where
  tagName := ht.isReadName
  nodup := h.nodup
  names n hn := (h.plain n hn).isReadName

theorem Writable.settled {tag : String} (ht : IsPlainName tag) (h : a.Writable) : a.Settled tag where
  unnamed he := absurd (congrArg String.toList he) ht.nonempty
  plainFirst := List.pairwise_iff_forall_sublist.mpr fun hmn _ =>
    h.plain _ (hmn.subset List.mem_cons_self)
  unmoved := by rw [writtenOrder_of_isPlainName ht, arrange_nil]

end Attributes

end Bindery
