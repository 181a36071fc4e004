import Mathlib.Data.List.Nodup
import Bindery.Proofs.Binding.Bonds
import Bindery.Proofs.Binding.Repeating

/-!
# Entering a text into a control

A text is entered into the only attribute of a form control that is bound, and the event of the control
is fired.  The handlers are called in the order of the slots.  The first one writes the text to its key;
whoever listens receives it, the attribute itself as well, which shows the text still.  So the next one
writes the same text to the next key.

* `Page.Entered`         a text was entered into a control
* `handleAll_rewrites`   the handlers write it to one key after the other
* `dispatch_rewrites`    and so does firing the event
* `Bond.Lone`            a control with one attribute that is bound
-/

namespace Bindery

variable {κ σ : Type}

namespace Bond

def heard (β : Bond κ) (r : Registry (Listener κ)) (key : String) : List (Listener κ) :=
  r.heard (β.data.event key)

/-- While its event is fired, a control is held, and so is the model that it writes. -/
def takeHold (β : Bond κ) (p : Page κ σ) : Page κ σ :=
  (p.hold (.element β.element)).hold (.model β.model)

def letGo (β : Bond κ) (p : Page κ σ) : Page κ σ :=
  (p.release (.model β.model)).release (.element β.element)

/-- The keys have a text, and all who listen received it; the control is still held. -/
def rewritten (β : Bond κ) (r : Registry (Listener κ)) (entry : String) (keys : List String)
    (p : Page κ σ) : Page κ σ :=
  (β.takeHold p).rewrite β.model (.text entry) (β.heard r) keys

end Bond

namespace Page

/-- An attribute of a bound control shows the text that was entered. -/
structure Entered (r : Registry (Listener κ)) (β : Bond κ) (attr entry : String) (p : Page κ σ) :
    Prop where
  registry : p.bus? β.data.bus = some r
  model : ∃ d, p.model? β.model = some d ∧ d.bus = β.data.bus ∧ d.name = β.data.name ∧
    d.observed = β.data.observed
  shows : ∃ d, p.element? β.element = some d ∧ d.attributes.get? attr = some entry

variable {r : Registry (Listener κ)} {β : Bond κ} {attr entry : String} {p q : Page κ σ}

theorem Entered.reads (h : p.Entered r β attr entry) (hb : isBooleanProperty attr = false) :
    p.property β.element attr = .text entry := by
  obtain ⟨d, hd, hget⟩ := h.shows
  rw [property_of_element? hd]
  unfold Attributes.property
  rw [if_neg (Bool.eq_false_iff.mp hb), hget]
  rfl

theorem Entered.of_same (h : p.Entered r β attr entry) (hb : q.buses = p.buses)
    (hm : q.models = p.models) (he : q.elements = p.elements) : q.Entered r β attr entry where
  registry := (bus?_of_buses hb _).trans h.registry
  model := by
    rw [model?_of_models hm]
    exact h.model
  shows := by
    unfold element?
    rw [he]
    exact h.shows

/-- The text is stored and announced: the attribute shows it still. -/
theorem Entered.receiveAll (h : p.Entered r β attr entry) (hb : isBooleanProperty attr = false)
    (hheld : .element β.element ∈ p.held) {ls : List (Listener κ)}
    (honly : ∀ l ∈ ls, ∀ name, l.propertyOn β.element = some name → name = attr) (key : String) :
    ((p.store β.model key (.text entry)).receiveAll (.text entry) ls).Entered r β attr entry where
  registry := (bus?_receiveAll ..).trans h.registry
  model := by
    obtain ⟨d, hd, hbus, hname, hobserved⟩ := h.model
    exact ⟨_, (model?_receiveAll ..).trans (model?_store_self hd key _), hbus, hname, hobserved⟩
  shows := by
    obtain ⟨d, hd, hget⟩ := h.shows
    have hd' : (p.store β.model key (.text entry)).element? β.element = some d := hd
    obtain ⟨d', hd', -, -, hattr, -⟩ := element?_receiveAll (.text entry) hd' ls
    have hroot : (p.store β.model key (.text entry)).isRooted [β.element] = true :=
      isRooted_of_held hheld
    refine ⟨d', hd', ?_⟩
    have hall : ∀ n ∈ ls.filterMap (Listener.propertyOn β.element), n = attr := by
      intro n hn
      obtain ⟨l, hl, hon⟩ := List.mem_filterMap.mp hn
      exact honly l hl n hon
    rw [hattr hroot]
    by_cases hmem : attr ∈ ls.filterMap (Listener.propertyOn β.element)
    · rw [Attributes.get?_foldl_of_mem hb hmem fun n hn _ => hall n hn]
      exact congrArg some String.ofList_toList
    · rw [Attributes.get?_foldl_of_not_mem fun n hn _ => hmem (hall n hn ▸ hn)]
      exact hget

theorem hold_release {h : Handle} {held : List Handle} (hheld : p.held = h :: held) :
    (p.release h).hold h = p := by
  show { p with held := h :: p.held.erase h } = p
  rw [hheld, List.erase_cons_head, ← hheld]

theorem release_hold (h : Handle) (p : Page κ σ) : (p.hold h).release h = p := by
  show { p with held := (h :: p.held).erase h } = p
  rw [List.erase_cons_head]

theorem textContent_letGo (x : ElementId) : (β.letGo p).textContent x = p.textContent x :=
  textContent_of_sameChildren (p := p) (q := β.letGo p) rfl (fun _ => rfl) x

theorem lookup_letGo (m : ModelId) (key : String) : (β.letGo p).lookup m key = p.lookup m key := rfl

/-- A control that is let go of and held again. -/
theorem takeHold_letGo {held : List Handle}
    (hheld : p.held = .model β.model :: .element β.element :: held) :
    β.takeHold (β.letGo p) = p := by
  have hnext : (p.release (.model β.model)).held = .element β.element :: held := by
    show p.held.erase _ = _
    rw [hheld, List.erase_cons_head]
  unfold Bond.takeHold Bond.letGo
  rw [hold_release hnext, hold_release hheld]

end Page

namespace Engine

open Page

variable (callbacks : Callbacks κ σ) (frames : Nat) {r : Registry (Listener κ)} {β : Bond κ}
  {attr entry : String} {c : Control} {p : Page κ σ}

/-- What the handlers of a control need: the bus is calm, and the control has one attribute that is
bound, which shows texts. -/
structure Alone (r : Registry (Listener κ)) (β : Bond κ) (attr : String) : Prop where
  calm : r.Calm
  only : ∀ event name, r.Displays event β.element name → name = attr
  shows : isBooleanProperty attr = false

theorem handle_enters (hr : Alone r β attr) (hp : p.Entered r β attr entry)
    (hheld : .element β.element ∈ p.held) (hc : c ≠ .number) {key : String}
    (hkey : key ∈ β.data.observed) :
    handle callbacks (ofFrames callbacks (frames + 1)) β.element (.writeBack (.strong β.model) attr key c) p
        = some (.ok (), (((p.hold (.model β.model)).store β.model key (.text entry)).receiveAll
          (.text entry) (β.heard r key)).release (.model β.model)) ∧
      (((p.hold (.model β.model)).store β.model key (.text entry)).receiveAll (.text entry)
        (β.heard r key)).Entered r β attr entry := by
  obtain ⟨d, hd, hbus, hname, hobserved⟩ := hp.model
  have hheld' : .element β.element ∈ (p.hold (.model β.model)).held := List.mem_cons_of_mem _ hheld
  have hp' : (p.hold (.model β.model)).Entered r β attr entry := hp.of_same rfl rfl rfl
  refine ⟨?_, hp'.receiveAll hr.shows hheld' (fun l hl name hon => hr.only _ name ⟨l, hl, hon⟩) key⟩
  rw [handle_of_strong, Control.coerce_of_ne hc, hp.reads hr.shows,
    write_quiet_ok callbacks _ hr.calm.quiet hr.calm.idle hr.calm.room frames hd
      (hbus.symm ▸ hp.registry) (hobserved ▸ hkey)]
  have hevent : d.event key = β.data.event key := congrArg (changeEvent · key) hname
  rw [hevent]
  rfl

theorem handleAll_rewrites (hr : Alone r β attr) (hp : p.Entered r β attr entry)
    (hheld : .element β.element ∈ p.held) (hc : c ≠ .number) {keys : List String}
    (hkeys : ∀ key ∈ keys, key ∈ β.data.observed) :
    handleAll callbacks (ofFrames callbacks (frames + 1)) β.element
        (keys.map fun key => .writeBack (.strong β.model) attr key c) p
      = some (.ok (), ((p.hold (.model β.model)).rewrite β.model (.text entry) (β.heard r)
          keys).release (.model β.model)) ∧
      ((p.hold (.model β.model)).rewrite β.model (.text entry) (β.heard r) keys).Entered r β attr
        entry := by
  induction keys generalizing p with
  | nil =>
    refine ⟨?_, hp.of_same rfl rfl rfl⟩
    show some (_, p) = some (_, (p.hold (.model β.model)).release (.model β.model))
    rw [release_hold]
  | cons key rest ih =>
    obtain ⟨hrun, hq⟩ := handle_enters callbacks frames hr hp hheld hc (hkeys key List.mem_cons_self)
    generalize hq₀ : ((p.hold (.model β.model)).store β.model key (.text entry)).receiveAll
      (.text entry) (β.heard r key) = q at hrun hq
    have hqheld : q.held = .model β.model :: p.held := by
      rw [← hq₀, held_receiveAll]
      rfl
    have hheldq : .element β.element ∈ (q.release (.model β.model)).held := by
      show _ ∈ q.held.erase _
      rw [hqheld, List.erase_cons_head]
      exact hheld
    obtain ⟨hrest, hend⟩ := ih (p := q.release (.model β.model)) (hq.of_same rfl rfl rfl) hheldq
      fun k hk => hkeys k (List.mem_cons_of_mem key hk)
    rw [hold_release hqheld, ← hq₀] at hrest hend
    refine ⟨?_, hend⟩
    rw [List.map_cons, handleAll, Run.bind_of_eq hrun, ← hq₀]
    exact hrest

theorem dispatch_rewrites (hr : Alone r β attr) (hp : p.Entered r β attr entry) (hc : c ≠ .number)
    {keys : List String} (hkeys : ∀ key ∈ keys, key ∈ β.data.observed)
    (hhandlers : p.handlers β.element c.event = keys.map fun key => .writeBack (.strong β.model) attr key c) :
    (ofFrames callbacks (frames + 2)).dispatch β.element c.event p
        = some (.ok (), β.letGo (β.rewritten r entry keys p)) ∧
      (β.rewritten r entry keys p).Entered r β attr entry := by
  have hp' : (p.hold (.element β.element)).Entered r β attr entry := hp.of_same rfl rfl rfl
  obtain ⟨hrun, hend⟩ :=
    handleAll_rewrites callbacks frames hr hp' List.mem_cons_self hc hkeys
  rw [← hhandlers] at hrun
  refine ⟨?_, hend⟩
  rw [ofFrames_succ]
  exact Run.holding_of_eq hrun

end Engine

/-! ## A control with one attribute that is bound -/

/-- A control that was bound by one of its attributes only, which shows texts.  The keys of the
attribute announce their writes, and nothing else handles the event of the control. -/
structure Bond.Lone (β : Bond κ) (attr template : String) (c : Control) : Prop where
  control : Control.classify β.before.tag β.before.attributes = some c
  notNumber : c ≠ .number
  entry : (attr, template) ∈ β.before.attributes.entries
  others : ∀ a ∈ β.before.attributes.entries, a.1 ≠ attr → β.data.keysIn a.2 = []
  shows : isBooleanProperty attr = false
  notType : attr ≠ "type"
  observed : ∀ k ∈ β.data.keysIn template, k ∈ β.data.observed
  handlers : ∀ h ∈ β.before.handlers, h.1 ≠ c.event

namespace Bond.Lone

variable {β : Bond κ} {attr template : String} {c : Control}

theorem eq_template (h : β.Lone attr template c) {other : String}
    (hm : (attr, other) ∈ β.before.attributes.entries) : other = template := by
  have heq := List.inj_on_of_nodup_map β.sound.nodup hm h.entry rfl
  exact (Prod.mk.inj heq).2

theorem mem_slots_iff (h : β.Lone attr template c) {name key : String} :
    (name, key) ∈ β.slots ↔ name = attr ∧ key ∈ β.data.keysIn template := by
  refine ⟨fun hs => ?_, fun ⟨hname, hkey⟩ => ?_⟩
  · obtain ⟨t, ht, hkey⟩ := Model.mem_slots.mp hs
    by_cases hname : name = attr
    · subst hname
      exact ⟨rfl, h.eq_template ht ▸ hkey⟩
    · rw [h.others _ ht hname] at hkey
      cases hkey
  · exact Model.mem_slots.mpr ⟨template, hname ▸ h.entry, hkey⟩

theorem slots_eq (h : β.Lone attr template c) :
    β.slots = (β.data.keysIn template).map (attr, ·) := by
  have hall : ∀ entries : List (String × String), (entries.map Prod.fst).Nodup →
      (∀ a ∈ entries, a.1 ≠ attr → β.data.keysIn a.2 = []) → (attr, template) ∈ entries →
      β.data.slots entries = (β.data.keysIn template).map (attr, ·) := by
    intro entries
    induction entries with
    | nil => exact fun _ _ hm => absurd hm List.not_mem_nil
    | cons a r ih =>
      intro hnodup hothers hm
      rw [List.map_cons, List.nodup_cons] at hnodup
      have hcons : β.data.slots (a :: r) = (β.data.keysIn a.2).map (a.1, ·) ++ β.data.slots r := rfl
      have hrest := fun x hx => hothers x (List.mem_cons_of_mem a hx)
      rw [hcons]
      rcases List.mem_cons.mp hm with rfl | hm
      · -- the attributes behind it have no slots
        have hnone : β.data.slots r = [] := by
          refine List.flatMap_eq_nil_iff.mpr fun x hx => List.map_eq_nil_iff.mpr (hrest x hx ?_)
          exact fun he => hnodup.1 (he ▸ List.mem_map.mpr ⟨x, hx, rfl⟩)
        rw [hnone, List.append_nil]
      · have hne : a.1 ≠ attr := fun he => hnodup.1 (he ▸ List.mem_map.mpr ⟨_, hm, rfl⟩)
        rw [hothers a List.mem_cons_self hne, ih hnodup.2 hrest hm]
        rfl
  exact hall _ β.sound.nodup h.others h.entry

theorem keepsType (h : β.Lone attr template c) : β.KeepsType := by
  intro a ha htype
  refine h.others a ha fun he => h.notType ?_
  rw [← he, ← β.sound.lower a.1 (List.mem_map.mpr ⟨a, ha, rfl⟩), htype]

theorem handlers_eq (h : β.Lone attr template c) :
    (β.handlers.filter (·.1 = c.event)).map Prod.snd
      = (β.data.keysIn template).map fun key => .writeBack (.strong β.model) attr key c := by
  have hold : β.before.handlers.filter (·.1 = c.event) = [] := by
    refine List.filter_eq_nil_iff.mpr fun x hx => ?_
    simpa using h.handlers x hx
  unfold Bond.handlers
  rw [h.control, h.slots_eq, List.filter_append, hold, List.nil_append, handlers_writeBacks,
    List.map_map]
  rfl

end Bond.Lone

end Bindery
