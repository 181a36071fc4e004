import Bindery.Proofs.Binding.Making
import Bindery.Proofs.Binding.Trail

/-!
# What binding an element adds up to

Binding an element adds one listener for each slot of its text and its attributes that is a key, and
one handler for each such slot of the attributes of a form control.  The text and the attributes with a
key show themselves filled.  Everything else stays.

* `listenerCount_addAll`, `Bond.keys`   listeners are counted by the slots they were made for
* `Page.Accounts`                       the account of a bond
* `binding_accounted`                   binding always comes to this account
-/

namespace Bindery

variable {κ σ : Type}

namespace Registry

theorem listenerCount_eq {L : Type} (r : Registry L) (event : String) :
    r.listenerCount event = (r.heard event).length := by
  unfold listenerCount heard
  cases hc : r.channel? event with
  | none => rw [slotsOf_of_none hc, List.filterMap_nil, List.length_nil]
  | some c =>
    rw [slotsOf_of_some hc]
    rfl

theorem listenerCount_addAll (r : Registry (Listener κ)) (ls : List (String × Listener κ))
    (event : String) :
    (r.addAll ls).listenerCount event = r.listenerCount event + ls.countP (·.1 = event) := by
  rw [listenerCount_eq, listenerCount_eq, Page.heard_addAll, List.length_append, List.length_map,
    List.countP_eq_length_filter]

end Registry

def Page.listenerCount (p : Page κ σ) (b : BusId) (event : String) : Nat :=
  ((p.bus? b).map (·.listenerCount event)).getD 0

namespace Bond

def keys (β : Bond κ) : List String := β.data.keysIn β.text ++ β.slots.map Prod.snd

theorem countP_listeners (β : Bond κ) (event : String) :
    β.listeners.countP (·.1 = event) = β.keys.countP (β.data.event · = event) := by
  unfold listeners keys
  rw [List.countP_append, List.countP_append, List.countP_map, List.countP_map, List.countP_map]
  rfl

theorem count_keys (β : Bond κ) {key : String} (hc : β.data.contains key = true) :
    β.keys.count key = (Template.names β.text).count key
      + (β.before.attributes.entries.map fun a => (Template.names a.2).count key).sum := by
  have hslots : β.slots.map Prod.snd
      = β.before.attributes.entries.flatMap fun a => β.data.keysIn a.2 := by
    unfold slots Model.slots
    rw [List.map_flatMap]
    refine congrArg (List.flatMap · _) (funext fun a => ?_)
    rw [List.map_map]
    exact List.map_id _
  have hcount : ∀ template, (β.data.keysIn template).count key = (Template.names template).count key :=
    fun template => List.count_filter hc
  unfold keys
  rw [List.count_append, hslots, List.count_flatMap, hcount]
  simp only [Function.comp_def, hcount]

theorem length_slots (β : Bond κ) :
    β.slots.length
      = (β.before.attributes.entries.map fun a => (β.data.keysIn a.2).length).sum := by
  unfold slots Model.slots
  rw [List.length_flatMap]
  simp only [List.length_map]

end Bond

namespace Page

variable {b : BusId} {β : Bond κ} {p q : Page κ σ}

theorem Makes.listenerCount (h : p.Makes b β q) {r : Registry (Listener κ)} (hr : p.bus? b = some r)
    (event : String) :
    q.listenerCount b event
      = p.listenerCount b event + β.keys.countP (β.data.event · = event) := by
  unfold Page.listenerCount
  rw [h.registry r hr, hr, Option.map_some, Option.map_some, Option.getD_some, Option.getD_some,
    Registry.listenerCount_addAll, Bond.countP_listeners]

/-- The account of a bond: what it added to a page and what now shows. -/
structure Accounts (b : BusId) (β : Bond κ) (p q : Page κ σ) : Prop where
  /-- one listener for each slot with a key -/
  listeners : ∀ key, β.data.contains key = true → q.listenerCount b (β.data.event key)
    = p.listenerCount b (β.data.event key) + ((Template.names β.text).count key
      + (β.before.attributes.entries.map fun a => (Template.names a.2).count key).sum)
  /-- and none for any other event -/
  otherEvents : ∀ event, (∀ key, β.data.contains key = true → event ≠ β.data.event key) →
    q.listenerCount b event = p.listenerCount b event
  otherBuses : ∀ c, c ≠ b → q.bus? c = p.bus? c
  /-- a control has one more handler of its event for each slot of an attribute with a key -/
  handlers : ∀ kind, (q.handlers β.element kind).length = (p.handlers β.element kind).length
    + if β.event? = some kind
      then (β.before.attributes.entries.map fun a => (β.data.keysIn a.2).length).sum else 0
  otherHandlers : ∀ c, c ≠ β.element → ∀ kind, q.handlers c kind = p.handlers c kind
  text : q.textContent β.element = Template.fill β.data.get? β.text
  element : ∃ el, q.element? β.element = some el ∧ el.tag = β.before.tag ∧
    (β.data.keysIn β.text = [] → el.children = β.before.children) ∧
    (∀ a ∈ β.before.attributes.entries, β.data.keysIn a.2 ≠ [] →
      el.attributes.Displays a.1 (.text (Template.fill β.data.get? a.2))) ∧
    (∀ name, (∀ a ∈ β.before.attributes.entries, Text.lower name = Text.lower a.1 →
      β.data.keysIn a.2 = []) → el.attributes.get? name = β.before.attributes.get? name)
  /-- an element that no listener writes stays the same -/
  otherElements : ∀ r c, p.bus? b = some r → c ≠ β.element → r.Spares c →
    q.element? c = p.element? c
  rest : q = { p with buses := q.buses, elements := q.elements }

/-- The account of a bond whose templates are tidy and whose values are plain. -/
theorem Makes.accounts (h : p.Makes b β q) {r : Registry (Listener κ)} (hr : p.bus? b = some r)
    (htype : β.KeepsType) (htext : Template.Tidy β.text)
    (htidy : ∀ a ∈ β.before.attributes.entries, Template.Tidy a.2)
    (hplain : ∀ key value, β.data.get? key = some value → value.Plain) : p.Accounts b β q where
  listeners key hc := by
    have hcount : β.keys.countP (β.data.event · = β.data.event key) = β.keys.count key := by
      rw [List.count_eq_countP]
      refine List.countP_congr fun k _ => ?_
      rw [decide_eq_true_eq, beq_iff_eq]
      exact ⟨β.data.event_injective, fun he => by rw [he]⟩
    rw [h.listenerCount hr, hcount, β.count_keys hc]
  otherEvents event hne := by
    have hnone : β.keys.countP (β.data.event · = event) = 0 := by
      rw [List.countP_eq_zero]
      intro key hkey he
      refine hne key ?_ (of_decide_eq_true he).symm
      rcases List.mem_append.mp hkey with hkey | hkey
      · exact (Model.mem_keysIn.mp hkey).2
      · obtain ⟨s, hs, rfl⟩ := List.mem_map.mp hkey
        obtain ⟨t, -, ht⟩ := Model.mem_slots.mp hs
        exact (Model.mem_keysIn.mp ht).2
    rw [h.listenerCount hr, hnone, Nat.add_zero]
  otherBuses := h.buses
  handlers kind := by
    rw [h.handlers, htype.keepsEvent.writeBackCount, Bond.length_slots]
  otherHandlers := h.otherHandlers
  text := h.text.trans (Model.shownText_of_tidy htext fun n _ => hplain n)
  element := by
    obtain ⟨el, hel, htag, hattr, hchildren⟩ := h.element
    refine ⟨el, hel, htag, hchildren, fun a ha hk => ?_, fun name hn => ?_⟩
    · have hshown := Attributes.get?_showAll β.sound.nodup_lower ha hk β.before.attributes
      rw [Model.fillEach_keysIn (htidy a ha) fun n _ => hplain n] at hshown
      rw [hattr]
      exact (Attributes.displays_congr hshown _).mpr (Attributes.displays_setProperty ..)
    · rw [hattr]
      exact Attributes.get?_showAll_of_not_mem hn _
  otherElements := h.others
  rest := h.rest

end Page

/-- An element that was not bound before is bound on a calm bus on which only bindings listen.  The
type of the element has no key in it, the templates are tidy and the values plain.  Binding ends well,
gives one target for the text and one for each attribute that has a key, in order, and comes to its
account. -/
theorem binding_accounted (callbacks : Callbacks κ σ) {b : BusId} {β : Bond κ} {p : Page κ σ}
    {r : Registry (Listener κ)} (hr : p.bus? b = some r) (hcalm : r.Calm) (hfits : p.Fits β)
    (hfresh : r.Spares β.element) (htype : β.KeepsType) (htext : Template.Tidy β.text)
    (htidy : ∀ a ∈ β.before.attributes.entries, Template.Tidy a.2)
    (hplain : ∀ key value, β.data.get? key = some value → value.Plain) :
    ∃ q, (∀ frames, (Engine.ofFrames callbacks (frames + 1)).bindElement b β.model β.element p
        = some (.ok β.targets, q)) ∧ p.Accounts b β q := by
  obtain ⟨targets, q, hbind, -⟩ := Engine.bindElement_of_calm callbacks
    (Page.calmOn_of_bus? hr hcalm) β.model β.element
  obtain ⟨rfl, hmakes⟩ := Page.makes_of_bindElement (Engine.publishes_ofFrames callbacks 1) hr
    hcalm.quiet hfits hfresh (hbind 0)
  exact ⟨q, hbind, hmakes.accounts hr htype htext htidy hplain⟩

/-! ## A check box with a text -/

def labelledBox : Bond Unit where
  model := ⟨0⟩
  data := ⟨⟨0⟩, "m", [("a", .text "x"), ("b", .bool false)], ["a", "b"]⟩
  element := ⟨0⟩
  before := {
    tag := "input"
    attributes := ⟨[("type", "checkbox"), ("title", "${a} ${a}"),
      ("checked", "${b}"), ("lang", "${z}")]⟩
    children := [.text "Hi ${a}", .element ⟨1⟩] }
  text := "Hi ${a}! ${z}"
  sound := ⟨by decide, by decide⟩
  known := by decide

/-- A bus with room for one event, on which the text of another element waits for `a`. -/
def sharedBus : Registry (Listener Unit) :=
  ({ maxDepth := 1 } : Registry (Listener Unit)).addAll
    [("m.a:change", .text (.weak ⟨2⟩) (.weak ⟨0⟩) "${a}" ["a"] "a")]

def labelledPage : Page Unit Unit :=
  { buses := #[sharedBus]
    models := #[labelledBox.data]
    elements := #[labelledBox.before, { tag := "b", children := [.text "! ${z}"] }, { tag := "p" }]
    held := [.element ⟨0⟩, .element ⟨2⟩, .model ⟨0⟩]
    host := () }

theorem calm_sharedBus : sharedBus.Calm := by
  have hempty : ({ maxDepth := 1 } : Registry (Listener Unit)).Calm :=
    ⟨fun _ _ h => (nomatch h), rfl, Nat.le_refl 1⟩
  exact hempty.addAll fun l hl => by
    rw [List.mem_singleton.mp hl]
    rfl

theorem spares_sharedBus : sharedBus.Spares ⟨0⟩ := by
  have hempty : ({ maxDepth := 1 } : Registry (Listener Unit)).Spares ⟨0⟩ :=
    fun _ _ h => (nomatch h)
  refine Registry.spares_addAll hempty fun l hl => ?_
  rw [List.mem_singleton.mp hl]
  exact ⟨by decide, rfl⟩

theorem plain_labelledBox {key : String} {value : Value}
    (h : labelledBox.data.get? key = some value) : value.Plain := by
  have hmem := Record.mem_of_get? h
  rcases List.mem_cons.mp hmem with he | hmem
  · cases he
    decide +kernel
  · cases List.mem_singleton.mp hmem
    decide +kernel

/-- The text, the title and the check mark are bound: three more listeners for `a`, one for `b`, and
three handlers. -/
theorem labelled_box_accounted :
    sharedBus.Calm ∧ labelledPage.Fits labelledBox ∧ sharedBus.Spares labelledBox.element ∧
      labelledBox.KeepsType ∧ Template.Tidy labelledBox.text ∧
      ∃ q, (Engine.ofFrames idleCode 1).bindElement ⟨0⟩ ⟨0⟩ ⟨0⟩ labelledPage = some (.ok
          [⟨⟨0⟩, .text, "Hi ${a}! ${z}", ["a", "z"]⟩,
            ⟨⟨0⟩, .property "title", "${a} ${a}", ["a", "a"]⟩,
            ⟨⟨0⟩, .property "checked", "${b}", ["b"]⟩], q) ∧
        q.listenerCount ⟨0⟩ "m.a:change" = 4 ∧ q.listenerCount ⟨0⟩ "m.b:change" = 1 ∧
        q.listenerCount ⟨0⟩ "m.z:change" = 0 ∧
        (q.handlers ⟨0⟩ .change).length = 3 ∧ (q.handlers ⟨0⟩ .input).length = 0 ∧
        q.textContent ⟨0⟩ = "Hi x! ${z}" := by
  have hfits : labelledPage.Fits labelledBox := ⟨rfl, rfl, by decide +kernel⟩
  have htype : labelledBox.KeepsType := by
    unfold Bond.KeepsType
    decide +kernel
  have htext : Template.Tidy labelledBox.text := by decide +kernel
  obtain ⟨q, hbind, hq⟩ := binding_accounted idleCode (b := ⟨0⟩) (p := labelledPage) rfl calm_sharedBus
    hfits spares_sharedBus htype htext (by decide +kernel) fun _ _ => plain_labelledBox
  have htargets : labelledBox.targets = [⟨⟨0⟩, .text, "Hi ${a}! ${z}", ["a", "z"]⟩,
      ⟨⟨0⟩, .property "title", "${a} ${a}", ["a", "a"]⟩,
      ⟨⟨0⟩, .property "checked", "${b}", ["b"]⟩] := by decide +kernel
  refine ⟨calm_sharedBus, hfits, spares_sharedBus, htype, htext, q, htargets ▸ hbind 0, ?_⟩
  have hunknown : ∀ key, labelledBox.data.contains key = true →
      "m.z:change" ≠ labelledBox.data.event key := by
    intro key hkey he
    have hz : "z" = key := labelledBox.data.event_injective (j := "z") (k := key) he
    rw [← hz] at hkey
    exact absurd hkey (by decide)
  exact ⟨(hq.listeners "a" (by decide +kernel)).trans (by decide +kernel),
    (hq.listeners "b" (by decide +kernel)).trans (by decide +kernel),
    (hq.otherEvents "m.z:change" hunknown).trans (by decide +kernel),
    (hq.handlers .change).trans (by decide +kernel), (hq.handlers .input).trans (by decide +kernel),
    hq.text.trans (by decide +kernel)⟩

end Bindery
