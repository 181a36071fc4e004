import Bindery.Proofs.Markup.Ordering

/-!
# The places of attributes

The attributes of a tag are met one after the other.  They are kept without an order, `id` and `class`
apart from the others and only if they have a value, and are put in order again by the names that a
search through the tag finds.  This gives each attribute a place: that of its name among those found, or
a place behind them all.

* `Attributes.met`            the attributes that a tag gives, in the order in which they are met
* `Attributes.ofEnumerated`   the attributes as read, with those kept without an order in any order
* `Attributes.Unhashed`       that order does not show
* `Attributes.place`          the place of an attribute
* `pairwise_place`            attributes are read by their places
* `names_eq_met_iff`          the attributes stand as they are met if no place falls, and only then
* `ofEnumerated_of_found`     as they do where the search finds what is met
-/

namespace Bindery

/-! ## Lists with a key -/

section Keyed

variable {α β : Type} [DecidableEq β] {f : α → β}

/-- Arranged entries stand in the order of the list, and those it does not have as they stood before. -/
theorem pairwise_arrangeBy {S : α → α → Prop} {order : List β} {l : List α} (hl : (l.map f).Nodup)
    (hS : (l.filter fun x => f x ∉ order).Pairwise S) :
    (arrangeBy f order l).Pairwise fun a b =>
      order.idxOf (f a) < order.idxOf (f b) ∨ f a ∉ order ∧ f b ∉ order ∧ S a b := by
  induction order generalizing l with
  | nil =>
    rw [arrangeBy_nil]
    have hall : (l.filter fun x => f x ∉ []) = l :=
      List.filter_eq_self.mpr fun x _ => decide_eq_true List.not_mem_nil
    rw [hall] at hS
    exact hS.imp fun h => Or.inr ⟨List.not_mem_nil, List.not_mem_nil, h⟩
  | cons k order ih =>
    rw [filter_key_not_mem_cons] at hS
    have hrest := ih (hl.sublist (List.filter_sublist.map f)) hS
    have hne : ∀ x ∈ arrangeBy f order (l.filter fun x => f x ≠ k), k ≠ f x := by
      intro x hx
      have hx := List.mem_filter.mp ((perm_arrangeBy order _).mem_iff.mp hx)
      exact Ne.symm (of_decide_eq_true hx.2)
    rw [arrangeBy_cons, List.pairwise_append]
    refine ⟨?_, hrest.imp_of_mem fun {a b} ha hb h => ?_, fun a ha b hb => ?_⟩
    · -- no two entries have the key
      have hpair := List.pairwise_map.mp (hl.sublist (List.filter_sublist (p := fun x => f x = k).map f))
      refine hpair.imp_of_mem fun {a b} ha hb hab => absurd ?_ hab
      rw [of_decide_eq_true (List.mem_filter.mp ha).2, of_decide_eq_true (List.mem_filter.mp hb).2]
    · rw [List.idxOf_cons_ne _ (hne a ha), List.idxOf_cons_ne _ (hne b hb), List.mem_cons, List.mem_cons]
      rcases h with h | ⟨hao, hbo, h⟩
      · exact Or.inl (Nat.succ_lt_succ h)
      · exact Or.inr ⟨not_or.mpr ⟨Ne.symm (hne a ha), hao⟩, not_or.mpr ⟨Ne.symm (hne b hb), hbo⟩, h⟩
    · left
      rw [of_decide_eq_true (List.mem_filter.mp ha).2, List.idxOf_cons_ne _ (hne b hb),
        List.idxOf_cons_self]
      exact Nat.succ_pos _

theorem pairwise_idxOf {l : List β} (h : l.Nodup) :
    l.Pairwise fun a b => l.idxOf a < l.idxOf b := by
  refine List.pairwise_iff_getElem.mpr fun i j hi hj hij => ?_
  rw [h.idxOf_getElem, h.idxOf_getElem]
  exact hij

omit [DecidableEq β] in
/-- A list is told by its keys among those with the same entries. -/
theorem eq_of_perm_of_map_eq {l m : List α} (hm : (m.map f).Nodup) (hp : l.Perm m)
    (h : l.map f = m.map f) : l = m := by
  refine List.ext_getElem hp.length_eq fun i hi hi' => ?_
  refine List.inj_on_of_nodup_map hm (hp.mem_iff.mp (List.getElem_mem hi)) (List.getElem_mem hi') ?_
  have hkey := congrArg (·[i]?) h
  simpa [hi, hi'] using hkey

end Keyed

/-! ## Attributes -/

def WrittenAttribute.key (w : WrittenAttribute) : String := Text.lower (String.ofList w.name)

namespace Attributes

variable {l others : List WrittenAttribute} {source : List Char}

/-- The attributes that a tag gives, in the order in which they are met: `id` and `class` need a value. -/
def met (l : List WrittenAttribute) : List WrittenAttribute :=
  l.filter fun w => w.value?.isSome = true ∨ w.name ≠ "id".toList ∧ w.name ≠ "class".toList

def unordered (l : List WrittenAttribute) : List WrittenAttribute :=
  l.filter fun w => w.name ≠ "id".toList ∧ w.name ≠ "class".toList

def enumerated (others l : List WrittenAttribute) : List WrittenAttribute :=
  others ++ lastWritten "id" l ++ lastWritten "class" l

/-- The attributes of a tag when those kept without an order come in the order of `others`. -/
def ofEnumerated (others l : List WrittenAttribute) (source : List Char) : Attributes :=
  ofList (arrange (writtenOrder source) ((enumerated others l).map resolve))

theorem ofWritten_eq (l : List WrittenAttribute) (source : List Char) :
    ofWritten l source = ofEnumerated (unordered l) l source := rfl

/-- The attributes are the same in whatever order those kept without one come. -/
def Unhashed (l : List WrittenAttribute) (source : List Char) : Prop :=
  ∀ others, others.Perm (unordered l) → ofEnumerated others l source = ofWritten l source

theorem unhashed_of_length_le_one (h : (unordered l).length ≤ 1) (source : List Char) :
    Unhashed l source := by
  intro others ho
  have hsame : others = unordered l := by
    generalize unordered l = r at h ho
    match r, h with
    | [], _ => exact ho.eq_nil
    | [w], _ => exact ho.eq_singleton
  rw [hsame, ofWritten_eq]

/-- Behind all names that are found come `id` and, last of all, `class`. -/
def rank (w : WrittenAttribute) : Nat :=
  if w.name = "id".toList then 1 else if w.name = "class".toList then 2 else 0

/-- Where an attribute is put when the names in `order` have been found. -/
def place (order : List String) (w : WrittenAttribute) : Nat :=
  if w.key ∈ order then order.idxOf w.key else order.length + rank w

/-- One attribute comes before another by a number, or if that is the same, by where they are met. -/
def Before (l : List WrittenAttribute) (number : WrittenAttribute → Nat) (a b : WrittenAttribute) :
    Prop :=
  number a < number b ∨ number a = number b ∧
    ((met l).map WrittenAttribute.key).idxOf a.key < ((met l).map WrittenAttribute.key).idxOf b.key

theorem nodup_name (h : (l.map WrittenAttribute.key).Nodup) :
    (l.map WrittenAttribute.name).Nodup := by
  have hkey : l.map WrittenAttribute.key
      = (l.map WrittenAttribute.name).map fun n => Text.lower (String.ofList n) := by
    rw [List.map_map]
    rfl
  rw [hkey] at h
  exact h.of_map _

theorem nodup_met (h : (l.map WrittenAttribute.key).Nodup) :
    ((met l).map WrittenAttribute.key).Nodup :=
  h.sublist (List.filter_sublist.map _)

theorem unordered_eq (l : List WrittenAttribute) :
    unordered l = (met l).filter fun w => w.name ≠ "id".toList ∧ w.name ≠ "class".toList := by
  unfold met unordered
  rw [List.filter_filter]
  refine List.filter_congr fun w _ => ?_
  rw [← Bool.decide_and]
  exact decide_eq_decide.mpr ⟨fun h => ⟨h, Or.inr h⟩, fun h => h.1⟩

theorem lastWritten_eq (h : (l.map WrittenAttribute.key).Nodup) {name : String}
    (hname : name = "id" ∨ name = "class") :
    lastWritten name l = (met l).filter fun w => w.name = name.toList := by
  rw [lastWritten_of_nodup (nodup_name h)]
  unfold met
  rw [List.filter_filter]
  refine List.filter_congr fun w _ => ?_
  rw [← Bool.decide_and]
  refine decide_eq_decide.mpr ⟨fun hw => ⟨hw.1, Or.inl hw.2⟩, fun ⟨hw, hmet⟩ => ⟨hw, ?_⟩⟩
  refine hmet.resolve_right fun hne => ?_
  rcases hname with rfl | rfl
  · exact hne.1 hw
  · exact hne.2 hw

theorem perm_enumerated (h : (l.map WrittenAttribute.key).Nodup) (ho : others.Perm (unordered l)) :
    (enumerated others l).Perm (met l) := by
  have hkinds := perm_kinds (met l)
  rw [← unordered_eq, ← lastWritten_eq h (Or.inl rfl), ← lastWritten_eq h (Or.inr rfl)] at hkinds
  exact ((ho.append_right _).append_right _).trans hkinds

theorem nodup_enumerated (h : (l.map WrittenAttribute.key).Nodup) (ho : others.Perm (unordered l)) :
    ((enumerated others l).map WrittenAttribute.key).Nodup :=
  ((perm_enumerated h ho).map _).nodup_iff.mpr (nodup_met h)

/-- The attributes as read are those that come, arranged by their names. -/
theorem ofEnumerated_eq (h : (l.map WrittenAttribute.key).Nodup) (ho : others.Perm (unordered l))
    (source : List Char) :
    ofEnumerated others l source
      = ⟨(arrangeBy WrittenAttribute.key (writtenOrder source) (enumerated others l)).map resolve⟩ := by
  have harrange : arrange (writtenOrder source) ((enumerated others l).map resolve)
      = (arrangeBy WrittenAttribute.key (writtenOrder source) (enumerated others l)).map resolve := by
    unfold arrange arrangeBy
    rw [List.map_append, List.map_flatMap, List.filter_map]
    refine congrArg (· ++ _) (List.flatMap_congr fun n _ => ?_)
    exact List.filter_map
  have hkeys : ((arrangeBy WrittenAttribute.key (writtenOrder source)
        (enumerated others l)).map resolve).map Prod.fst
      = (arrangeBy WrittenAttribute.key (writtenOrder source) (enumerated others l)).map
          WrittenAttribute.key := by
    rw [List.map_map]
    rfl
  have hsound : (Attributes.mk ((arrangeBy WrittenAttribute.key (writtenOrder source)
      (enumerated others l)).map resolve)).Sound := by
    refine ⟨?_, fun n hn => ?_⟩
    · show (List.map Prod.fst _).Nodup
      rw [hkeys]
      exact ((perm_arrangeBy _ _).map _).nodup_iff.mpr (nodup_enumerated h ho)
    · replace hn : n ∈ List.map Prod.fst _ := hn
      rw [hkeys] at hn
      obtain ⟨w, -, rfl⟩ := List.mem_map.mp hn
      exact Text.lower_lower _
  rw [ofEnumerated, harrange]
  exact ofList_entries hsound

theorem perm_entries (h : (l.map WrittenAttribute.key).Nodup) (source : List Char) :
    (ofWritten l source).entries.Perm ((met l).map resolve) := by
  rw [ofWritten_eq, ofEnumerated_eq h (.refl _)]
  exact ((perm_arrangeBy _ _).trans (perm_enumerated h (.refl _))).map resolve

theorem pairwise_enumerated (h : (l.map WrittenAttribute.key).Nodup) :
    (enumerated (unordered l) l).Pairwise (Before l rank) := by
  have hmet := List.pairwise_map.mp (pairwise_idxOf (nodup_met h))
  -- one of the three parts
  have hpart : ∀ {p : WrittenAttribute → Bool} {n : Nat},
      (∀ w ∈ (met l).filter p, rank w = n) → ((met l).filter p).Pairwise (Before l rank) := by
    intro p n hn
    refine (hmet.sublist List.filter_sublist).imp_of_mem fun ha hb hab => Or.inr ⟨?_, hab⟩
    rw [hn _ ha, hn _ hb]
  have hothers : ∀ w ∈ (met l).filter fun w => w.name ≠ "id".toList ∧ w.name ≠ "class".toList,
      rank w = 0 := fun w hw => by
    obtain ⟨hid, hclass⟩ := of_decide_eq_true (List.mem_filter.mp hw).2
    rw [rank, if_neg hid, if_neg hclass]
  have hid : ∀ w ∈ (met l).filter fun w => w.name = "id".toList, rank w = 1 := fun w hw => by
    rw [rank, if_pos (of_decide_eq_true (List.mem_filter.mp hw).2)]
  have hclass : ∀ w ∈ (met l).filter fun w => w.name = "class".toList, rank w = 2 := fun w hw => by
    have hw := of_decide_eq_true (List.mem_filter.mp hw).2
    rw [rank, if_neg (by rw [hw]; decide), if_pos hw]
  rw [enumerated, unordered_eq, lastWritten_eq h (Or.inl rfl), lastWritten_eq h (Or.inr rfl),
    List.pairwise_append, List.pairwise_append]
  refine ⟨⟨hpart hothers, hpart hid, fun a ha b hb => Or.inl ?_⟩, hpart hclass,
    fun a ha b hb => Or.inl ?_⟩
  · rw [hothers a ha, hid b hb]
    exact Nat.one_pos
  · rw [hclass b hb]
    rcases List.mem_append.mp ha with ha | ha
    · rw [hothers a ha]
      exact Nat.two_pos
    · rw [hid a ha]
      exact Nat.lt_succ_self 1

theorem place_of_mem {order : List String} {w : WrittenAttribute} (h : w.key ∈ order) :
    place order w = order.idxOf w.key := if_pos h

theorem place_of_not_mem {order : List String} {w : WrittenAttribute} (h : w.key ∉ order) :
    place order w = order.length + rank w := if_neg h

theorem place_lt {order : List String} {a b : WrittenAttribute}
    (h : order.idxOf a.key < order.idxOf b.key) : place order a < place order b := by
  have ha : a.key ∈ order := List.idxOf_lt_length_iff.mp (h.trans_le List.idxOf_le_length)
  rw [place_of_mem ha]
  by_cases hb : b.key ∈ order
  · rw [place_of_mem hb]
    exact h
  · rw [place_of_not_mem hb]
    exact Nat.lt_add_right _ (List.idxOf_lt_length_iff.mpr ha)

theorem pairwise_place (h : (l.map WrittenAttribute.key).Nodup) (order : List String) :
    (arrangeBy WrittenAttribute.key order (enumerated (unordered l) l)).Pairwise
      (Before l (place order)) := by
  -- what is not found keeps the order of the ranks
  have hunfound := (pairwise_enumerated h).sublist
    (List.filter_sublist (p := fun w : WrittenAttribute => w.key ∉ order))
  refine (pairwise_arrangeBy (nodup_enumerated h (.refl _)) hunfound).imp fun {a b} hab => ?_
  rcases hab with hab | ⟨ha, hb, hab | ⟨hrank, hab⟩⟩
  · exact Or.inl (place_lt hab)
  · left
    rw [place_of_not_mem ha, place_of_not_mem hb]
    exact Nat.add_lt_add_left hab _
  · refine Or.inr ⟨?_, hab⟩
    rw [place_of_not_mem ha, place_of_not_mem hb, hrank]

/-- The attributes stand in the order in which they are met if their places never fall, and only then. -/
theorem names_eq_met_iff (h : (l.map WrittenAttribute.key).Nodup) (source : List Char) :
    (ofWritten l source).names = (met l).map WrittenAttribute.key ↔
      (met l).Pairwise fun a b => place (writtenOrder source) a ≤ place (writtenOrder source) b := by
  have hmet := nodup_met h
  have hperm := (perm_arrangeBy (f := WrittenAttribute.key) (writtenOrder source) _).trans
    (perm_enumerated h (.refl _))
  have hplace := pairwise_place h (writtenOrder source)
  have hnames : (ofWritten l source).names
      = (arrangeBy WrittenAttribute.key (writtenOrder source) (enumerated (unordered l) l)).map
          WrittenAttribute.key := by
    rw [ofWritten_eq, ofEnumerated_eq h (.refl _), names, List.map_map]
    rfl
  rw [hnames]
  generalize arrangeBy WrittenAttribute.key (writtenOrder source) (enumerated (unordered l) l) = stand
    at hperm hplace
  constructor
  · intro hsame
    rw [eq_of_perm_of_map_eq hmet hperm hsame] at hplace
    exact hplace.imp fun hab => hab.elim Nat.le_of_lt fun hab => Nat.le_of_eq hab.1
  · intro hrise
    refine congrArg (List.map _) (hperm.eq_of_pairwise (fun a b _ _ hab hba => ?_) hplace ?_)
    · unfold Before at hab hba
      omega
    · refine hrise.imp₂ (fun a b hle hlt => ?_) (List.pairwise_map.mp (pairwise_idxOf hmet))
      exact (Nat.lt_or_eq_of_le hle).imp_right fun heq => ⟨heq, hlt⟩

/-- Where what is found is what is met, the attributes stand as they are met, in whatever order those
kept without one come. -/
theorem ofEnumerated_of_found (h : (l.map WrittenAttribute.key).Nodup)
    (hfound : writtenOrder source = l.map WrittenAttribute.key) (ho : others.Perm (unordered l)) :
    ofEnumerated others l source = ⟨(met l).map resolve⟩ := by
  have hperm := perm_enumerated h ho
  have hin : ∀ w ∈ enumerated others l, w.key ∈ l.map WrittenAttribute.key := fun w hw =>
    List.mem_map_of_mem (List.mem_filter.mp (hperm.mem_iff.mp hw)).1
  have hnone : ((enumerated others l).filter fun w => w.key ∉ l.map WrittenAttribute.key) = [] :=
    List.filter_eq_nil_iff.mpr fun w hw hn => of_decide_eq_true hn (hin w hw)
  have hrise : (arrangeBy WrittenAttribute.key (l.map WrittenAttribute.key)
      (enumerated others l)).Pairwise fun a b => (l.map WrittenAttribute.key).idxOf a.key
        < (l.map WrittenAttribute.key).idxOf b.key := by
    have hpair := pairwise_arrangeBy (S := fun _ _ => False) (nodup_enumerated h ho)
      (by rw [hnone]; exact .nil)
    exact hpair.imp fun hab => hab.resolve_right fun hab => hab.2.2
  have hmet : (met l).Pairwise fun a b => (l.map WrittenAttribute.key).idxOf a.key
      < (l.map WrittenAttribute.key).idxOf b.key :=
    (List.pairwise_map.mp (pairwise_idxOf h)).sublist List.filter_sublist
  rw [ofEnumerated_eq h ho, hfound]
  refine congrArg (fun stand => Attributes.mk (List.map resolve stand)) ?_
  refine ((perm_arrangeBy _ _).trans hperm).eq_of_pairwise (fun a b _ _ hab hba => ?_)
    hrise hmet
  exact absurd hab (Nat.lt_asymm hba)

theorem unhashed_of_found (h : (l.map WrittenAttribute.key).Nodup)
    (hfound : writtenOrder source = l.map WrittenAttribute.key) : Unhashed l source := fun others ho => by
  rw [ofWritten_eq, ofEnumerated_of_found h hfound ho, ofEnumerated_of_found h hfound (.refl _)]

end Attributes

end Bindery
