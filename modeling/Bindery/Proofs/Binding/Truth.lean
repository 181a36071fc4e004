import Bindery.Proofs.Binding.Calm
import Bindery.Proofs.Binding.Making
import Bindery.Proofs.Template.Occurrences

/-!
# Attributes that are truth values

An attribute `checked`, `selected` or `disabled` is there or it is not.  Binding decides that by the text
that fills it, and a later write by the value itself.  For most values the two agree: the text that a
page shows for a value is true as a text if the value is true.

* `Value.ShowsTruth`          the values for which they agree
* `isTruthy_display_iff`      and that there are no more
* `truth_attribute_settles`   such an attribute tells the value after binding, and writing the value
                              once more changes no attribute that consists of its slot
-/

namespace Bindery

variable {κ σ : Type}

/-! ## Texts of numbers -/

theorem exists_cons_natDigits (n : Nat) : ∃ c r, natDigits n = c :: r ∧ c.isDigit = true := by
  cases h : natDigits n with
  | nil => exact absurd h Nat.toDigits_ne_nil
  | cons c r =>
    have hmem : c ∈ natDigits n := by
      rw [h]
      exact List.mem_cons_self
    exact ⟨c, r, rfl, Nat.isDigit_of_mem_toDigits (by decide) (by decide) hmem⟩

theorem ne_of_isDigit {c : Char} (h : c.isDigit = true) : c ≠ 'f' := by
  rintro rfl
  exact absurd h (by decide)

theorem exists_cons_intDigits (n : Int) : ∃ c r, intDigits n = c :: r ∧ c ≠ 'f' := by
  unfold intDigits
  split
  · exact ⟨'-', _, rfl, by decide⟩
  · obtain ⟨c, r, hr, hc⟩ := exists_cons_natDigits n.natAbs
    exact ⟨c, r, hr, ne_of_isDigit hc⟩

theorem Decimal.exists_cons_whole (d : Decimal) :
    ∃ c r, d.wholeAndFraction.1 = c :: r ∧ c.isDigit = true := by
  obtain ⟨c, r, hr, hc⟩ := exists_cons_natDigits d.digits
  unfold wholeAndFraction
  dsimp only
  rw [hr]
  split
  · exact ⟨c, _, rfl, hc⟩
  · generalize (-d.exponent).toNat = places
    have hlength : 0 < (List.replicate (places + 1 - (c :: r).length) '0' ++ c :: r).length - places := by
      rw [List.length_append, List.length_replicate]
      omega
    obtain ⟨k, hk⟩ := Nat.exists_eq_succ_of_ne_zero (Nat.pos_iff_ne_zero.mp hlength)
    show ∃ c' r', List.take _ _ = c' :: r' ∧ _
    rw [hk]
    cases places + 1 - (c :: r).length with
    | zero => exact ⟨c, _, rfl, hc⟩
    | succ zeros => exact ⟨'0', _, rfl, by decide⟩

theorem Double.exists_cons_positional (x : Double) : ∃ c r, x.positional = c :: r ∧ c ≠ 'f' := by
  unfold positional
  split
  · exact ⟨'0', [], rfl, by decide⟩
  · dsimp only
    split
    · exact ⟨'-', _, rfl, by decide⟩
    · obtain ⟨c, r, hr, hc⟩ := (x.shortest .up).exists_cons_whole
      unfold Decimal.positional
      split
      · rename_i whole hw
        rw [hw] at hr
        exact ⟨c, r, hr, ne_of_isDigit hc⟩
      · rename_i whole fraction _ hw
        rw [hw] at hr
        change whole = c :: r at hr
        rw [hr]
        exact ⟨c, _, rfl, ne_of_isDigit hc⟩

/-! ## Values that show their truth -/

namespace Value

/-- The display text of the value is as true as the value.  It is for a text and for a truth value; null
and zero show a text that is true, and a list, which is true, may show one that is not. -/
def ShowsTruth : Value → Prop
  | null => False
  | int n => n ≠ 0
  | double d => d.isZero = false
  | list items => (list items).display ≠ "" ∧ (list items).display ≠ "false"
  | _ => True

theorem isTruthy_text_cons {c : Char} (h : c ≠ 'f') (r : List Char) :
    (text (String.ofList (c :: r))).isTruthy = true := by
  have hne : ∀ s : String, s.toList.head? ≠ some c → String.ofList (c :: r) ≠ s := by
    rintro s hs rfl
    rw [String.toList_ofList] at hs
    exact hs rfl
  unfold isTruthy
  rw [Bool.and_eq_true, bne_iff_ne, bne_iff_ne]
  refine ⟨hne _ nofun, hne _ fun he => h ?_⟩
  have hf : "false".toList.head? = some 'f' := by decide
  exact (Option.some.inj (hf.symm.trans he)).symm

theorem isTruthy_display_iff (v : Value) : (text v.display).isTruthy = v.isTruthy ↔ v.ShowsTruth := by
  cases v with
  | null => exact ⟨fun h => absurd h (by decide), False.elim⟩
  | bool b => cases b <;> exact ⟨fun _ => trivial, fun _ => by decide⟩
  | int n =>
    obtain ⟨c, r, hr, hc⟩ := exists_cons_intDigits n
    have htext : (text (int n).display).isTruthy = true := by
      show (text (String.ofList (intDigits n))).isTruthy = true
      rw [hr]
      exact isTruthy_text_cons hc r
    rw [htext]
    exact eq_comm.trans bne_iff_ne
  | double d =>
    obtain ⟨c, r, hr, hc⟩ := d.exists_cons_positional
    have htext : (text (double d).display).isTruthy = true := by
      show (text (String.ofList d.positional)).isTruthy = true
      rw [hr]
      exact isTruthy_text_cons hc r
    rw [htext]
    show true = (!d.isZero) ↔ d.isZero = false
    cases d.isZero <;> decide
  | text s =>
    refine ⟨fun _ => trivial, fun _ => ?_⟩
    show (text (String.ofList s.toList)).isTruthy = _
    rw [String.ofList_toList]
  | list items =>
    show ((list items).display != "" && (list items).display != "false") = true ↔ _
    rw [Bool.and_eq_true, bne_iff_ne, bne_iff_ne]
    exact Iff.rfl
  | record fields =>
    refine ⟨fun _ => trivial, fun _ => ?_⟩
    exact isTruthy_text_cons (by decide) _

end Value

/-! ## A template that is a slot -/

namespace Template

theorem names_slot {key : String} (hne : key ≠ "") (h : IsName key) : names (slot key) = [key] := by
  have hlist : key.toList ≠ [] := fun he => hne (String.toList_eq_nil_iff.mp he)
  have hslot := slotAt?_slotChars hlist h []
  rw [List.append_nil] at hslot
  have hpieces : pieces (slotChars key.toList) = [.slot key.toList] := by
    have hcons : slotChars key.toList = '$' :: ('\x7b' :: key.toList ++ ['\x7d']) := rfl
    rw [hcons] at hslot ⊢
    rw [pieces]
    split
    · rename_i name after hsome
      cases hslot.symm.trans hsome
      rw [pieces]
    · rename_i hnone
      cases hslot.symm.trans hnone
  unfold names slot
  rw [String.toList_ofList, hpieces]
  show [String.ofList key.toList] = _
  rw [String.ofList_toList]

theorem ofList_fillEach_slot {lookup : String → Option Value} {key : String} {v : Value}
    (h : lookup key = some v) : String.ofList (fillEach lookup [key] (slot key).toList) = v.display := by
  have hall : (slotChars key.toList).isPrefixOf ('$' :: ('\x7b' :: key.toList ++ ['\x7d'])) = true :=
    List.isPrefixOf_iff_prefix.mpr List.prefix_rfl
  have hfirst : fillFirstChars (slotChars key.toList) key.toList v.displayChars = v.displayChars := by
    show Text.replaceFirst (slotChars key.toList) _ ('$' :: ('\x7b' :: key.toList ++ ['\x7d'])) = _
    unfold Text.replaceFirst
    rw [if_pos hall]
    show _ ++ (slotChars key.toList).drop (slotChars key.toList).length = _
    rw [List.drop_length, List.append_nil]
  rw [fillEach_cons_of_some h, slot, String.toList_ofList, hfirst]
  rfl

end Template

theorem Model.keysIn_slot {d : Model} {key : String} (hne : key ≠ "") (h : Template.IsName key)
    (hc : d.contains key = true) : d.keysIn (Template.slot key) = [key] := by
  unfold keysIn
  rw [Template.names_slot hne h, List.filter_cons_of_pos hc]
  rfl

namespace Attributes

/-- A value that shows its truth may be written by its text. -/
theorem setProperty_display {v : Value} (h : v.ShowsTruth) (a : Attributes) (name : String) :
    a.setProperty name (.text v.display) = a.setProperty name v := by
  have hdisplay : (Value.text v.display).display = v.display := String.ofList_toList
  unfold setProperty
  rw [v.isTruthy_display_iff.mpr h, hdisplay]

theorem contains_setProperty {name : String} (hb : isBooleanProperty name = true) (a : Attributes)
    (v : Value) : (a.setProperty name v).contains name = v.isTruthy := by
  have h := property_setProperty_self a name v
  unfold property Value.asProperty at h
  rw [if_pos hb, if_pos hb, Value.bool.injEq] at h
  exact h

theorem foldl_setProperty_eq_self {a : Attributes} {value : Value} {names : List String}
    (h : ∀ n ∈ names, a.setProperty n value = a) :
    names.foldl (fun a n => a.setProperty n value) a = a := by
  induction names with
  | nil => rfl
  | cons n r ih =>
    rw [List.foldl_cons, h n List.mem_cons_self]
    exact ih fun m hm => h m (List.mem_cons_of_mem n hm)

end Attributes

namespace Bond

/-- The attribute names no key but one of which it is the slot. -/
def Whole (β : Bond κ) (key : String) (name : String) : Prop :=
  ∀ a ∈ β.before.attributes.entries, Text.lower name = Text.lower a.1 →
    key ∈ Template.names a.2 → a.2 = Template.slot key

theorem setProperty_shownAttributes {β : Bond κ} {key attr : String} {w : Value} (hne : key ≠ "")
    (hname : Template.IsName key) (hget : β.data.get? key = some w) (hw : w.ShowsTruth)
    (hattr : (attr, Template.slot key) ∈ β.before.attributes.entries) :
    β.shownAttributes.setProperty attr w = β.shownAttributes := by
  have hc : β.data.contains key = true := by
    rw [Model.contains_eq, hget]
    rfl
  have hkeys := Model.keysIn_slot hne hname hc
  have hsome : β.data.keysIn (Template.slot key) ≠ [] := by
    rw [hkeys]
    exact List.cons_ne_nil key []
  have hshown := Attributes.get?_showAll β.sound.nodup_lower hattr hsome β.before.attributes
  rw [hkeys, Template.ofList_fillEach_slot hget, Attributes.setProperty_display hw] at hshown
  refine Attributes.setProperty_eq_self ?_
  exact (Attributes.get?_setProperty_congr ..).trans hshown.symm

theorem exists_entry_of_heard {β : Bond κ} {r : Registry (Listener κ)}
    (hsilent : ∀ event, r.heard event = []) {key name : String}
    (h : (r.addAll β.listeners).Displays (β.data.event key) β.element name) :
    ∃ template, (name, template) ∈ β.before.attributes.entries ∧ key ∈ Template.names template := by
  obtain ⟨l, hl, hon⟩ := h
  rw [Page.heard_addAll, hsilent, List.nil_append] at hl
  obtain ⟨⟨event, l⟩, hx, rfl⟩ := List.mem_map.mp hl
  obtain ⟨hx, hevent⟩ := List.mem_filter.mp hx
  obtain ⟨c, rfl, -⟩ := propertyOn_eq_some.mp hon
  obtain ⟨-, other, hslot, rfl⟩ := property_mem_listeners hx
  cases β.data.event_injective (of_decide_eq_true hevent)
  obtain ⟨template, hmem, hkey⟩ := Model.mem_slots.mp hslot
  exact ⟨template, hmem, (Model.mem_keysIn.mp hkey).1⟩

/-- Attributes that have the value of a key keep what they show when some that name the key are
written once more. -/
theorem get?_foldl_of_whole {β : Bond κ} {key name : String} {w : Value} {a : Attributes}
    {names : List String} (hwhole : β.Whole key name)
    (hnames : ∀ n ∈ names, ∃ template, (n, template) ∈ β.before.attributes.entries ∧
      key ∈ Template.names template)
    (hself : ∀ n, (n, Template.slot key) ∈ β.before.attributes.entries → a.setProperty n w = a) :
    (names.foldl (fun a n => a.setProperty n w) a).get? name = a.get? name := by
  by_cases hex : ∃ n ∈ names, Text.lower name = Text.lower n
  · obtain ⟨n, hn, hl⟩ := hex
    obtain ⟨template, hmem, hkey⟩ := hnames n hn
    have hslot : (n, Template.slot key) ∈ β.before.attributes.entries := hwhole _ hmem hl hkey ▸ hmem
    have hsame : ∀ other ∈ names, Text.lower n = Text.lower other → other = n := by
      intro other ho hlo
      obtain ⟨t, ht, -⟩ := hnames other ho
      rw [← β.sound.lower other (List.mem_map.mpr ⟨_, ht, rfl⟩), ← hlo]
      exact β.sound.lower n (List.mem_map.mpr ⟨_, hmem, rfl⟩)
    obtain ⟨a', ha'⟩ := Attributes.exists_get?_foldl_of_mem (a := a) hn hsame w
    have hget : ∀ a : Attributes, a.get? name = a.get? n := by
      intro a
      unfold Attributes.get?
      rw [hl]
    rw [hget, ha', hget, Attributes.get?_setProperty_congr a' a, hself n hslot]
  · exact Attributes.get?_foldl_of_not_mem (fun n hn hl => hex ⟨n, hn, hl⟩) w

end Bond

/-- An attribute that is a truth value and consists of the slot of a key, whose value shows its truth,
on a bus on which nobody else listens.  Binding the element ends well if the bus is calm, and whenever it
does, the attribute is there if the value is true.  Writing the value once more changes no attribute that
names the key in nothing but its slot. -/
theorem truth_attribute_settles (callbacks : Callbacks κ σ) {b : BusId} {β : Bond κ} {p : Page κ σ}
    {r : Registry (Listener κ)} {key attr : String} {w : Value} (hr : p.bus? b = some r)
    (hsilent : ∀ event, r.heard event = []) (hfits : p.Fits β) (hhome : β.data.bus = b)
    (hne : key ≠ "") (hname : Template.IsName key) (hget : β.data.get? key = some w)
    (hw : w.ShowsTruth) (hattr : (attr, Template.slot key) ∈ β.before.attributes.entries)
    (hbool : isBooleanProperty attr = true) :
    (r.Calm → ∃ targets q, ∀ frames, (Engine.ofFrames callbacks (frames + 1)).bindElement b β.model
      β.element p = some (.ok targets, q)) ∧
    ∀ frames targets q, (Engine.ofFrames callbacks frames).bindElement b β.model β.element p
        = some (.ok targets, q) →
      ∃ el outcome q' el', q.element? β.element = some el ∧
        el.attributes.contains attr = w.isTruthy ∧
        (∀ n, (Engine.ofFrames callbacks (n + 1)).write β.model key w q = some (outcome, q')) ∧
        q'.element? β.element = some el' ∧
        (∀ name, β.Whole key name → el'.attributes.get? name = el.attributes.get? name) ∧
        ((∀ a ∈ β.before.attributes.entries, β.Whole key a.1) → el'.attributes = el.attributes) := by
  have hquiet : r.Quiet := fun event l hl => by
    rw [hsilent] at hl
    cases hl
  have hspares : r.Spares β.element := fun event l hl => by
    rw [hsilent] at hl
    cases hl
  refine ⟨fun hcalm => ?_, fun frames targets q hbind => ?_⟩
  · obtain ⟨targets, q, hbind, -⟩ := Engine.bindElement_of_calm callbacks
      (Page.calmOn_of_bus? hr hcalm) β.model β.element
    exact ⟨targets, q, hbind⟩
  · obtain ⟨-, hmakes⟩ := Page.makes_of_bindElement (Engine.publishes_ofFrames callbacks frames) hr
      hquiet hfits hspares hbind
    obtain ⟨el, hel, -, hattrs, -⟩ := hmakes.element
    have hself : ∀ n, (n, Template.slot key) ∈ β.before.attributes.entries →
        el.attributes.setProperty n w = el.attributes := fun n hn =>
      hattrs ▸ Bond.setProperty_shownAttributes hne hname hget hw hn
    have hm : q.model? β.model = some β.data := by
      rw [hmakes.rest]
      exact hfits.model
    have hbus := hmakes.registry r hr
    have hquiet' : q.QuietOn β.data.bus := fun r' hr' => by
      rw [hhome, hbus] at hr'
      cases hr'
      exact Page.quiet_addAll hquiet fun l hl => Bond.isBinding_of_mem hl
    obtain ⟨outcome, q', ls, hwrite, hwrote, hheard, -⟩ :=
      Engine.write_of_quiet callbacks hm hquiet' key w
    obtain ⟨el', names, hel', hnames, hattrs'⟩ := hwrote.attributes hel
    have hentries : ∀ n ∈ names, ∃ template, (n, template) ∈ β.before.attributes.entries ∧
        key ∈ Template.names template := by
      intro n hn
      obtain ⟨l, hl, hon⟩ := hnames n hn
      obtain ⟨r', hr', hl⟩ := hheard l hl
      rw [hhome, hbus] at hr'
      cases hr'
      exact Bond.exists_entry_of_heard hsilent ⟨l, hl, hon⟩
    refine ⟨el, outcome, q', el', hel, ?_, hwrite, hel', fun name hwhole => ?_, fun hall => ?_⟩
    · rw [← hself attr hattr]
      exact Attributes.contains_setProperty hbool _ w
    · rw [hattrs']
      exact Bond.get?_foldl_of_whole hwhole hentries hself
    · rw [hattrs']
      refine Attributes.foldl_setProperty_eq_self fun n hn => hself n ?_
      obtain ⟨template, hmem, hkey⟩ := hentries n hn
      exact hall _ hmem _ hmem rfl hkey ▸ hmem

/-! ## One element and one key -/

def oneKey (key : String) (w : Value) : Model := ⟨⟨0⟩, "m", [(key, w)], [key]⟩

def flagPage (entries : List (String × String)) (key : String) (w : Value) : Page Unit Unit :=
  { buses := #[{ maxDepth := 1 }]
    models := #[oneKey key w]
    elements := #[{ tag := "p", attributes := ⟨entries⟩ }]
    held := [.element ⟨0⟩, .model ⟨0⟩]
    host := () }

/-- A button that is disabled by a list, which is also its title. -/
def disabledBond : Bond Unit where
  model := ⟨0⟩
  data := oneKey "k" (.list [.int 0])
  element := ⟨0⟩
  before := { tag := "p", attributes := ⟨[("disabled", "${k}"), ("title", "${k}")]⟩ }
  text := ""
  sound := ⟨by decide, by decide⟩
  known := by decide

/-- A list with a zero in it is true, and shows a text that is. -/
theorem list_disables :
    (Value.list [.int 0]).ShowsTruth ∧
      ∃ targets q el outcome q' el', (Engine.ofFrames idleCode 1).bindElement ⟨0⟩ ⟨0⟩ ⟨0⟩
          (flagPage disabledBond.before.attributes.entries "k" (.list [.int 0])) = some (.ok targets, q) ∧
        q.element? ⟨0⟩ = some el ∧ el.attributes.contains "disabled" = true ∧
        (Engine.ofFrames idleCode 1).write ⟨0⟩ "k" (.list [.int 0]) q = some (outcome, q') ∧
        q'.element? ⟨0⟩ = some el' ∧ el'.attributes = el.attributes := by
  have hw : (Value.list [.int 0]).ShowsTruth := ⟨by decide +kernel, by decide +kernel⟩
  have hfits : (flagPage disabledBond.before.attributes.entries "k" (.list [.int 0])).Fits
      disabledBond := ⟨rfl, rfl, by decide +kernel⟩
  have hcalm : ({ maxDepth := 1 } : Registry (Listener Unit)).Calm :=
    ⟨fun _ _ h => (nomatch h), rfl, Nat.le_refl 1⟩
  have hname : Template.IsName "k" :=
    List.all_eq_true.mp (by decide : "k".toList.all Template.isNameChar = true)
  obtain ⟨hgood, hall⟩ := truth_attribute_settles idleCode (b := ⟨0⟩) rfl (fun _ => rfl) hfits rfl
    (by decide) hname rfl hw
    (by decide +kernel : ("disabled", Template.slot "k") ∈ disabledBond.before.attributes.entries)
    (by decide)
  obtain ⟨targets, q, hbind⟩ := hgood hcalm
  obtain ⟨el, outcome, q', el', hel, hthere, hwrite, hel', -, hsame⟩ := hall 1 targets q (hbind 0)
  refine ⟨hw, targets, q, el, outcome, q', el', hbind 0, hel, hthere, hwrite 0, hel', hsame ?_⟩
  unfold Bond.Whole
  decide +kernel

/-- The attributes of an element after binding it, and after the value was written once more. -/
def boundAndWritten (entries : List (String × String)) (key : String) (w : Value) :
    Option (Attributes × Attributes) :=
  ((Engine.ofFrames idleCode 1).bindElement ⟨0⟩ ⟨0⟩ ⟨0⟩ (flagPage entries key w)).bind fun x =>
    match x.1 with
    | .error _ => none
    | .ok _ => ((Engine.ofFrames idleCode 1).write ⟨0⟩ key w x.2).map fun y =>
      (x.2.attributesOf ⟨0⟩, y.2.attributesOf ⟨0⟩)

/-- Writing the value once more takes away the text around a slot.  Null is false but shows a text that
is true, so the attribute is there at first and then not.  And a name that is no name of a slot fills
nothing: the attribute is there although the value is false. -/
theorem truth_attribute_unsettled :
    boundAndWritten [("checked", "${k}"), ("title", "a ${k}")] "k" (.bool true)
        = some (⟨[("checked", ""), ("title", "a true")]⟩, ⟨[("checked", ""), ("title", "true")]⟩) ∧
      boundAndWritten [("checked", "${k}")] "k" .null = some (⟨[("checked", "")]⟩, ⟨[]⟩) ∧
      boundAndWritten [("checked", "${-}")] "-" (.bool false)
        = some (⟨[("checked", "${-}")]⟩, ⟨[("checked", "${-}")]⟩) := by
  decide +kernel

end Bindery
