import Bindery.Proofs.Binding.Entering

/-!
# Two-way binding converges

When the event of a control was fired, every key of the attribute that is bound has the text that was
entered, the attribute shows it, and all texts that show one of the keys are in sync.  Firing the event
once more leaves the page as it is.

* `Bears.thorough`          whoever shows two of the keys listens to both
* `Bears.text_rewritten`    so the text shows both in the end
* `Bears.rewritten_again`   and the same keys are written in vain
* `edit_converges`          what an edit comes to
-/

namespace Bindery

variable {κ σ : Type}

/-! ## Who listens to it -/

namespace Page

variable {b : BusId} {bonds : List (Bond κ)} {r : Registry (Listener κ)} {β γ : Bond κ}
  {attr template entry : String} {c : Control} {keys : List String} {value : Value}
  {p q : Page κ σ}

theorem Bears.same_model (h : p.Bears b bonds) (hβ : β ∈ bonds) (hγ : γ ∈ bonds)
    (hm : γ.model = β.model) : γ.data.name = β.data.name ∧ γ.data.observed = β.data.observed := by
  obtain ⟨d, hd, -, hname, hobserved⟩ := h.model β hβ
  obtain ⟨d', hd', -, hname', hobserved'⟩ := h.model γ hγ
  rw [hm, hd] at hd'
  cases hd'
  exact ⟨hname'.symm.trans hname, hobserved'.symm.trans hobserved⟩

theorem Bears.event_eq (h : p.Bears b bonds) (hβ : β ∈ bonds) (hγ : γ ∈ bonds)
    (hm : γ.model = β.model) (key : String) : γ.data.event key = β.data.event key :=
  congrArg (changeEvent · key) (h.same_model hβ hγ hm).1

theorem Bears.alone (h : p.Bears b bonds) (hcalm : r.Calm) (hears : r.Hears bonds) (hβ : β ∈ bonds)
    (hlone : β.Lone attr template c) : Engine.Alone r β attr where
  calm := hcalm
  only event name hshows := by
    obtain ⟨l, hl, hon⟩ := hshows
    obtain ⟨x, rfl, hx⟩ := propertyOn_eq_some.mp hon
    obtain ⟨γ, hγ, hl⟩ := (hears event _).mp hl
    obtain ⟨rfl, key, hs, -⟩ := Bond.property_mem_listeners hl
    rw [← h.once β hβ γ hγ hx.symm] at hs
    exact (hlone.mem_slots_iff.mp hs).1
  shows := hlone.shows

/-- A text that shows a key of the attribute and another one listens to both. -/
theorem Bears.thorough (h : p.Bears b bonds) (hears : r.Hears bonds) (hβ : β ∈ bonds)
    (hlone : β.Lone attr template c) :
    Thorough β.model (β.heard r) (β.data.keysIn template) := by
  intro j hj key hkey x m text names changed hl hmodel hname
  obtain ⟨γ, hγ, hl⟩ := (hears _ _).mp hl
  obtain ⟨heq, -, -⟩ := Bond.text_mem_listeners hl
  obtain ⟨rfl, rfl, htext, hnames⟩ : x = .weak γ.element ∧ m = .weak γ.model ∧ text = γ.text ∧
      names = Template.names γ.text := by
    injection heq with hx hm htext hnames
    exact ⟨hx, hm, htext, hnames⟩
  have hm : β.model = γ.model := hmodel.symm
  have hobserved : key ∈ γ.data.observed := by
    rw [(h.same_model hβ hγ hm.symm).2]
    exact hlone.observed key hkey
  have hin : key ∈ γ.data.keysIn γ.text := Bond.mem_keysIn_of_observed (hnames ▸ hname) hobserved
  refine ⟨γ.following key, (hears _ _).mpr ⟨γ, hγ, ?_⟩, writesText_text ..⟩
  rw [← h.event_eq hβ hγ hm.symm]
  exact Bond.following_mem_listeners hin

theorem Bears.oneModel (h : p.Bears b bonds) (hears : r.Hears bonds) (keys : List String) :
    OneModel (keys.flatMap (β.heard r)) := by
  intro x m text names changed x' m' text' names' changed' hl hl' htarget
  obtain ⟨key, -, hl⟩ := List.mem_flatMap.mp hl
  obtain ⟨key', -, hl'⟩ := List.mem_flatMap.mp hl'
  obtain ⟨γ, hγ, hl⟩ := (hears _ _).mp hl
  obtain ⟨γ', hγ', hl'⟩ := (hears _ _).mp hl'
  obtain ⟨heq, -, -⟩ := Bond.text_mem_listeners hl
  obtain ⟨heq', -, -⟩ := Bond.text_mem_listeners hl'
  injection heq with hx hm
  injection heq' with hx' hm'
  subst hx hm hx' hm'
  rw [h.once γ hγ γ' hγ' htarget]

theorem lower_of_hears (hears : r.Hears bonds) {event : String} {x : Captured ElementId} {name : String}
    (hl : .property x name ∈ r.heard event) : Text.lower name = name := by
  obtain ⟨γ, -, hl⟩ := (hears _ _).mp hl
  obtain ⟨-, key, hs, -⟩ := Bond.property_mem_listeners hl
  exact Bond.lower_of_mem_slots hs

theorem exists_bond_of_writesText (hears : r.Hears bonds) {event : String} {l : Listener κ}
    (hl : l ∈ r.heard event) {x : ElementId} (hw : l.writesText x = true) :
    ∃ γ ∈ bonds, γ.element = x := by
  obtain ⟨γ, hγ, hl⟩ := (hears _ _).mp hl
  obtain ⟨c, m, text, names, changed, rfl, rfl⟩ := exists_of_writesText hw
  exact ⟨γ, hγ, Option.some.inj (Bond.element_of_mem hl).symm⟩

/-- A text that shows one of the keys is its template, filled with the values there are. -/
theorem Bears.filled_of_stands (h : p.Bears b bonds) (hears : r.Hears bonds) (hβ : β ∈ bonds)
    (hγ : γ ∈ bonds) (hm : γ.model = β.model)
    (hstands : q.Stands value (keys.flatMap (β.heard r)) [])
    (hstored : ∀ key ∈ keys, q.lookup β.model key = some value)
    (hplain : ∀ key v, q.lookup β.model key = some v → v.Plain) (htidy : Template.Tidy γ.text)
    {key : String} (hkey : key ∈ keys) (hin : key ∈ γ.data.keysIn γ.text)
    (halive : q.elementAlive γ.element = true) (hmodel : q.modelAlive β.model = true)
    (helement : ∃ d, q.element? γ.element = some d) :
    q.textContent γ.element = Template.fill (q.lookup β.model) γ.text := by
  have hheard : γ.following key ∈ keys.flatMap (β.heard r) := by
    refine List.mem_flatMap.mpr ⟨key, hkey, (hears _ _).mpr ⟨γ, hγ, ?_⟩⟩
    rw [← h.event_eq hβ hγ hm]
    exact Bond.following_mem_listeners hin
  -- the last listener that writes the text is one of the element's
  obtain ⟨done, l, rest, heq, hw, hlast⟩ := exists_last_writer ⟨_, hheard, writesText_text ..⟩
  have hmem : l ∈ keys.flatMap (β.heard r) := heq ▸ List.mem_append_right _ List.mem_cons_self
  obtain ⟨last, hlastkey, hmem⟩ := List.mem_flatMap.mp hmem
  obtain ⟨δ, hδ, hl⟩ := (hears _ _).mp hmem
  obtain ⟨x, m, text, names, changed, rfl, hx⟩ := exists_of_writesText hw
  obtain ⟨hfollows, hchanged, hevent⟩ := Bond.text_mem_listeners hl
  have hδγ : δ = γ :=
    h.once δ hδ γ hγ ((Option.some.inj (Bond.element_of_mem hl)).symm.trans hx)
  subst hδγ
  rw [h.event_eq hβ hδ hm] at hevent
  have hsame : last = changed := β.data.event_injective hevent
  subst hsame
  rw [hfollows, Bond.following, hm] at heq
  obtain ⟨d, hd⟩ := helement
  have hchildren := hstands.text heq (by simpa using hlast) halive hmodel hd
  rw [textContent_of_element? hd, hchildren]
  refine (congrArg String.ofList (textContent_rowWithin_text q _ _)).trans ?_
  rw [String.ofList_toList]
  exact Template.render_eq_fill htidy (fun n _ => hplain n) (Model.mem_keysIn.mp hchanged).1
    (hstored _ hlastkey)

/-! ## The page after the event -/

theorem Bears.entered (h : p.Bears b bonds) (hr : p.bus? β.data.bus = some r) (hβ : β ∈ bonds)
    {d : PageElement κ} (hd : p.element? β.element = some d)
    (hshows : d.attributes.get? attr = some entry) : p.Entered r β attr entry :=
  ⟨hr, h.model β hβ, d, hd, hshows⟩

theorem Bears.handlers_lone (h : p.Bears b bonds) (hβ : β ∈ bonds) (hlone : β.Lone attr template c) :
    p.handlers β.element c.event
      = (β.data.keysIn template).map fun key => .writeBack (.strong β.model) attr key c := by
  obtain ⟨d, hd⟩ := h.element β hβ
  rw [handlers_of_element? hd, h.handlers β hβ hlone.keepsType d hd, hlone.handlers_eq]

theorem held_rewritten : (β.rewritten r entry keys p).held
    = .model β.model :: .element β.element :: p.held :=
  held_rewrite ..

theorem shrinks_rewritten : Shrinks (β.takeHold p) (β.rewritten r entry keys p) :=
  shrinks_rewrite ..

theorem Bears.lookup_rewritten (h : p.Bears b bonds) (hβ : β ∈ bonds) (m : ModelId) (key : String) :
    (β.rewritten r entry keys p).lookup m key
      = if m = β.model ∧ key ∈ keys then some (.text entry) else p.lookup m key := by
  obtain ⟨d, hd, -⟩ := h.model β hβ
  exact lookup_rewrite (p := β.takeHold p) hd m key

theorem element?_rewritten (β : Bond κ) (r : Registry (Listener κ)) (entry : String)
    (keys : List String) {x : ElementId} {d : PageElement κ} (hd : p.element? x = some d) :
    ∃ d', (β.rewritten r entry keys p).element? x = some d' ∧ d'.handlers = d.handlers := by
  obtain ⟨d', hd', hh, -⟩ :=
    element?_rewrite β.model (.text entry) (β.heard r) keys (p := β.takeHold p) hd
  exact ⟨d', hd', hh⟩

theorem Bears.stands_rewritten (h : p.Bears b bonds) (hears : r.Hears bonds) (hβ : β ∈ bonds)
    (hlone : β.Lone attr template c) :
    (β.rewritten r entry (β.data.keysIn template) p).Stands (.text entry)
      ((β.data.keysIn template).flatMap (β.heard r)) [] :=
  stands_rewrite (h.thorough hears hβ hlone) (fun _ _ _ _ hl => lower_of_hears hears hl) _

/-- The control is let go of, and everything is done again. -/
theorem Bears.rewritten_again (h : p.Bears b bonds) (hears : r.Hears bonds) (hβ : β ∈ bonds)
    (hlone : β.Lone attr template c) (entry : String) :
    β.rewritten r entry (β.data.keysIn template)
        (β.letGo (β.rewritten r entry (β.data.keysIn template) p))
      = β.rewritten r entry (β.data.keysIn template) p := by
  rw [Bond.rewritten, takeHold_letGo held_rewritten]
  exact rewrite_rewrite _ (h.thorough hears hβ hlone) (fun _ _ _ _ hl => lower_of_hears hears hl)
    (h.oneModel hears _)

theorem alive_of_rewritten (hears : r.Hears bonds) {x : ElementId}
    (hout : ∀ γ ∈ bonds, ¬ p.Inside γ.element x) (ha : p.elementAlive x = true) :
    (β.rewritten r entry keys p).elementAlive x = true := by
  have hshrinks : Shrinks (β.takeHold p) (β.rewritten r entry keys p) := shrinks_rewritten
  refine elementAlive_of_outside (p := p) hshrinks.size hshrinks.views (fun h hh => ?_)
    (fun {h} hh => ?_) (fun e he => ?_) ha
  · rw [held_rewritten]
    exact List.mem_cons_of_mem _ (List.mem_cons_of_mem _ hh)
  · exact (captures_of_buses (p := p) (buses_rewrite (p := β.takeHold p) ..) h).trans hh
  · refine sameChildren_rewrite (p := β.takeHold p) β.model _ fun key _ l hl => ?_
    refine Bool.eq_false_iff.mpr fun hw => ?_
    obtain ⟨γ, hγ, rfl⟩ := exists_bond_of_writesText hears hl hw
    exact hout γ hγ he

theorem Bears.text_rewritten (h : p.Bears b bonds) (hears : r.Hears bonds) (hβ : β ∈ bonds)
    (hlone : β.Lone attr template c)
    (hplain : ∀ key v, p.lookup β.model key = some v → v.Plain) (hentry : '$' ∉ entry.toList)
    (hγ : γ ∈ bonds) (hm : γ.model = β.model) (htidy : Template.Tidy γ.text)
    (hshown : ∃ key ∈ β.data.keysIn template, key ∈ γ.data.keysIn γ.text)
    (hout : ∀ δ ∈ bonds, ¬ p.Inside δ.element γ.element) (ha : p.elementAlive γ.element = true) :
    (β.rewritten r entry (β.data.keysIn template) p).textContent γ.element
      = Template.fill ((β.rewritten r entry (β.data.keysIn template) p).lookup β.model) γ.text := by
  obtain ⟨key, hkey, hin⟩ := hshown
  have halive : (β.rewritten r entry (β.data.keysIn template) p).elementAlive γ.element = true :=
    alive_of_rewritten hears hout ha
  obtain ⟨d, hd⟩ := h.element γ hγ
  obtain ⟨d', hd', -⟩ := element?_rewritten β r entry (β.data.keysIn template) hd
  refine h.filled_of_stands hears hβ hγ hm (h.stands_rewritten hears hβ hlone) (fun k hk => ?_)
    (fun k v hv => ?_) htidy hkey hin halive ?_ ⟨d', hd'⟩
  · rw [h.lookup_rewritten hβ, if_pos ⟨rfl, hk⟩]
  · rw [h.lookup_rewritten hβ] at hv
    split at hv
    · cases hv
      exact hentry
    · exact hplain k v hv
  · refine modelAlive_of_held ?_
    rw [held_rewritten]
    exact List.mem_cons_self

theorem leaves_setAttribute (b : BusId) (p : Page κ σ) (e : ElementId) (name value : String) :
    p.Leaves b (p.setAttribute e name value) where
  bus hr := ⟨_, hr, rfl, rfl, fun _ => rfl⟩
  model hd := ⟨_, hd, rfl, rfl, rfl⟩
  element {x d} hd := by
    by_cases hx : e = x
    · subst hx
      exact ⟨_, element?_modifyElement_self hd _, rfl⟩
    · exact ⟨d, (element?_modifyElement_of_ne hx _).trans hd, rfl⟩

end Page

open Page

/-- An attribute of a control is edited, the only one that is bound, and the event of the control is
fired.  That ends well: all keys of the attribute have the new text, no other value changed, the
attribute shows the text still, and every text of the same model that shows one of the keys is its
template filled with the values there are now.  Firing the event again changes nothing. -/
theorem edit_converges {callbacks : Callbacks κ σ} {b : BusId} {start p : Page κ σ}
    {bonds : List (Bond κ)} (hstart : start.Fresh b) (h : Bonded callbacks b start bonds p)
    {β : Bond κ} (hβ : β ∈ bonds) (hbus : β.data.bus = b) {attr template : String} {c : Control}
    (hlone : β.Lone attr template c)
    (hplain : ∀ key v, p.lookup β.model key = some v → v.Plain) {entry : String}
    (hentry : '$' ∉ entry.toList) :
    ∃ q,
      (∀ n, (Engine.ofFrames callbacks (n + 2)).dispatch β.element c.event
        (p.setAttribute β.element attr entry) = some (.ok (), q)) ∧
      (∀ m key, q.lookup m key
        = if m = β.model ∧ key ∈ β.data.keysIn template then some (.text entry)
          else p.lookup m key) ∧
      (∃ d, q.element? β.element = some d ∧ d.attributes.get? attr = some entry) ∧
      (∀ γ ∈ bonds, γ.model = β.model → Template.Tidy γ.text →
        (∃ key ∈ β.data.keysIn template, key ∈ γ.data.keysIn γ.text) →
        (∀ δ ∈ bonds, ¬ p.Inside δ.element γ.element) → p.elementAlive γ.element = true →
        q.textContent γ.element = Template.fill (q.lookup β.model) γ.text) ∧
      ∀ n, (Engine.ofFrames callbacks (n + 2)).dispatch β.element c.event q = some (.ok (), q) := by
  subst hbus
  have hbefore := bears_of_bonded hstart h
  have hsame : ∀ e, SameChildren p (p.setAttribute β.element attr entry) e :=
    sameChildren_modifyElement β.element fun _ => rfl
  have hinside : ∀ {x y}, (p.setAttribute β.element attr entry).Inside x y → p.Inside x y :=
    fun hi => hi.of_sameChildren (hsame _) fun c _ => hsame c
  have halive : ∀ {x}, p.elementAlive x = true →
      (p.setAttribute β.element attr entry).elementAlive x = true :=
    elementAlive_of_outside (size_modifyElement ..) rfl (fun _ hk => hk) id fun e _ => hsame e
  have hbears := hbefore.leaves (leaves_setAttribute β.data.bus p β.element attr entry)
  obtain ⟨d, hd⟩ := hbefore.element β hβ
  have hd' := element?_modifyElement_self hd fun d =>
    { d with attributes := d.attributes.set attr entry }
  have hlookup : ∀ m key, (p.setAttribute β.element attr entry).lookup m key = p.lookup m key :=
    fun _ _ => rfl
  -- from here on the page with the text entered
  change (p.setAttribute β.element attr entry).element? β.element = _ at hd'
  generalize p.setAttribute β.element attr entry = p' at *
  obtain ⟨r, hr, hcalm, hears⟩ := hbears.registry
  have halone := hbears.alone hcalm hears hβ hlone
  have hhandlers := hbears.handlers_lone hβ hlone
  have hentered := hbears.entered hr hβ hd' (Attributes.get?_set_self d.attributes attr entry)
  have hfire := fun n => Engine.dispatch_rewrites callbacks n halone hentered hlone.notNumber
    hlone.observed hhandlers
  obtain ⟨-, hend⟩ := hfire 0
  have hagain := hbears.rewritten_again hears hβ hlone entry
  obtain ⟨d₁, hd₁, hh₁⟩ :=
    element?_rewritten β r entry (β.data.keysIn template) hd'
  refine ⟨_, fun n => (hfire n).1, fun m key => ?_, hend.shows, ?_, fun n => ?_⟩
  · rw [lookup_letGo, ← hlookup]
    exact hbears.lookup_rewritten hβ m key
  · intro γ hγ hm htidy hshown hout ha
    rw [textContent_letGo, funext (lookup_letGo β.model)]
    exact hbears.text_rewritten hears hβ hlone (fun k v hv => hplain k v (hlookup .. ▸ hv)) hentry hγ
      hm htidy hshown (fun δ hδ hi => hout δ hδ (hinside hi)) (halive ha)
  · generalize β.rewritten r entry (β.data.keysIn template) p' = q at *
    have hfire' := Engine.dispatch_rewrites callbacks n (p := β.letGo q) halone
      (hend.of_same rfl rfl rfl) hlone.notNumber hlone.observed ?_
    · rw [hagain] at hfire'
      exact hfire'.1
    · rw [← hhandlers, handlers_of_element? hd', ← hh₁]
      exact handlers_of_element? (p := β.letGo q) hd₁ _

/-! ## An input for two keys -/

def tripleModel : Model :=
  ⟨⟨0⟩, "m", [("a", .text "1"), ("b", .text "2"), ("c", .text "3")], ["a", "b", "c"]⟩

/-- An input that shows two keys, one of them twice. -/
def tripleInput : PageElement Unit :=
  { tag := "input", attributes := ⟨[("value", "${a}${b}${a}")]⟩ }

def tripleCaption : String := "${a} is ${b}, not ${c}"

def triplePage : Page Unit Unit where
  buses := #[{ maxDepth := 1 }]
  models := #[tripleModel]
  elements := #[tripleInput, { tag := "p", children := [.text tripleCaption] }]
  held := [.element ⟨0⟩, .element ⟨1⟩, .model ⟨0⟩]
  host := ()

def tripleBond : Bond Unit where
  model := ⟨0⟩
  data := tripleModel
  element := ⟨0⟩
  before := tripleInput
  text := ""
  sound := ⟨by decide +kernel, by decide +kernel⟩
  known := by decide

def tripleText (d : PageElement Unit) (h : d.attributes.entries = []) : Bond Unit where
  model := ⟨0⟩
  data := tripleModel
  element := ⟨1⟩
  before := d
  text := tripleCaption
  sound := by
    have hnames : d.attributes.names = [] := congrArg (List.map Prod.fst) h
    exact ⟨hnames ▸ List.nodup_nil, fun _ hn => absurd (hnames ▸ hn) List.not_mem_nil⟩
  known := by decide

theorem lone_tripleBond : tripleBond.Lone "value" "${a}${b}${a}" .text where
  control := by decide +kernel
  notNumber := nofun
  entry := List.mem_singleton_self _
  others a ha hne := absurd (congrArg Prod.fst (List.mem_singleton.mp ha)) hne
  shows := by decide +kernel
  notType := by decide
  observed := by decide +kernel
  handlers _ h := absurd h List.not_mem_nil

/-- A text is entered: both keys have it, and the text shows it in place of both. -/
theorem two_keys_converge :
    ∃ bonds p q, Bonded idleCode ⟨0⟩ triplePage bonds p ∧ tripleBond ∈ bonds ∧
      (Engine.ofFrames idleCode 2).dispatch ⟨0⟩ .input (p.setAttribute ⟨0⟩ "value" "z")
        = some (.ok (), q) ∧
      (∀ key ∈ ["a", "b"], q.lookup ⟨0⟩ key = some (.text "z")) ∧
      (∃ d, q.element? ⟨0⟩ = some d ∧ d.attributes.get? "value" = some "z") ∧
      q.textContent ⟨1⟩ = "z is z, not 3" ∧
      (Engine.ofFrames idleCode 2).dispatch ⟨0⟩ .input q = some (.ok (), q) := by
  have hrun : (((Engine.ofFrames idleCode 2).bindElement ⟨0⟩ ⟨0⟩ ⟨0⟩ triplePage).bind fun a =>
      a.1.toOption.bind fun _ =>
        ((Engine.ofFrames idleCode 2).bindElement ⟨0⟩ ⟨0⟩ ⟨1⟩ a.2).bind fun c =>
          c.1.toOption.map fun _ => ((a.2.element? ⟨1⟩).map (·.attributes.entries),
            a.2.textContent ⟨1⟩, c.2.elementAlive ⟨1⟩ &&
              (c.2.childElements ⟨0⟩ ++ c.2.childElements ⟨1⟩).isEmpty))
      = some (some [], tripleCaption, true) := by
    decide +kernel
  obtain ⟨⟨first, p₁⟩, hfirst, hrun⟩ := Option.bind_eq_some_iff.mp hrun
  obtain ⟨targets₁, htargets₁, hrun⟩ := Option.bind_eq_some_iff.mp hrun
  obtain ⟨⟨second, p⟩, hsecond, hrun⟩ := Option.bind_eq_some_iff.mp hrun
  obtain ⟨targets, htargets, hrun⟩ := Option.map_eq_some_iff.mp hrun
  obtain ⟨hentries, htext, halive⟩ : _ ∧ _ ∧ _ := by simpa only [Prod.mk.injEq] using hrun
  obtain ⟨d, hd, hentries⟩ := Option.map_eq_some_iff.mp hentries
  obtain ⟨halive, hnone⟩ := (Bool.and_eq_true _ _).mp halive
  cases first with
  | error failure => cases htargets₁
  | ok _ =>
  cases second with
  | error failure => cases htargets
  | ok _ =>
  have hstart : triplePage.Fresh ⟨0⟩ := ⟨_, rfl, rfl, Nat.le_refl 1, fun _ => rfl⟩
  -- the input is bound
  have hfits₁ : triplePage.Fits tripleBond := ⟨rfl, rfl, by decide +kernel⟩
  have hfresh₁ : ∀ γ ∈ ([] : List (Bond Unit)), γ.element ≠ tripleBond.element :=
    fun _ hγ => absurd hγ List.not_mem_nil
  have hunbound : Bonded idleCode ⟨0⟩ triplePage [] triplePage := .start
  have hbonded₁ : Bonded idleCode ⟨0⟩ triplePage [tripleBond] p₁ :=
    .bind tripleBond 2 hunbound hfits₁ hfresh₁ hfirst
  have hmodels₁ : p₁.models = triplePage.models :=
    ((bears_of_bonded hstart hunbound).binds hfits₁ hfresh₁ hfirst).models
  -- and then the text
  have hfits : p₁.Fits (tripleText d hentries) :=
    ⟨model?_of_models hmodels₁ ⟨0⟩, hd, htext⟩
  have hfresh : ∀ δ ∈ [tripleBond], δ.element ≠ (tripleText d hentries).element := by
    intro δ hδ
    rw [List.mem_singleton.mp hδ]
    exact fun h => nomatch h
  have hbonded : Bonded idleCode ⟨0⟩ triplePage [tripleText d hentries, tripleBond] p :=
    .bind (tripleText d hentries) 2 hbonded₁ hfits hfresh hsecond
  have hmodels : p.models = triplePage.models :=
    ((bears_of_bonded hstart hbonded₁).binds hfits hfresh hsecond).models.trans hmodels₁
  have hlookup : ∀ key, p.lookup ⟨0⟩ key = tripleModel.get? key := by
    intro key
    unfold lookup
    rw [model?_of_models hmodels]
    rfl
  have hplain : ∀ key v, p.lookup ⟨0⟩ key = some v → v.Plain := by
    intro key v hv
    rw [hlookup] at hv
    have hall : ∀ f ∈ tripleModel.values, f.2.Plain := by decide +kernel
    exact hall _ (Record.mem_of_get? hv)
  obtain ⟨hnone₀, hnone₁⟩ := List.append_eq_nil_iff.mp (List.isEmpty_iff.mp hnone)
  have hout : ∀ δ ∈ [tripleText d hentries, tripleBond], ¬ p.Inside δ.element ⟨1⟩ := by
    intro δ hδ
    rcases List.mem_cons.mp hδ with rfl | hδ
    · exact not_inside_of_childElements hnone₁
    · rw [List.mem_singleton.mp hδ]
      exact not_inside_of_childElements hnone₀
  have hmem : tripleBond ∈ [tripleText d hentries, tripleBond] :=
    List.mem_cons_of_mem _ List.mem_cons_self
  obtain ⟨q, hfire, hvalues, hshows, htexts, hagain⟩ :=
    edit_converges hstart hbonded hmem rfl lone_tripleBond hplain (show '$' ∉ "z".toList by decide)
  have hkeys : tripleModel.keysIn "${a}${b}${a}" = ["a", "b", "a"] := by
    decide +kernel
  have hstored : q.lookup ⟨0⟩ = fun key =>
      if key ∈ ["a", "b", "a"] then some (.text "z") else tripleModel.get? key := by
    funext key
    rw [hvalues, hlookup]
    exact if_congr ⟨fun h => hkeys ▸ h.2, fun h => ⟨rfl, hkeys.symm ▸ h⟩⟩ rfl rfl
  refine ⟨_, p, q, hbonded, hmem, hfire 0, fun key hkey => ?_, hshows, ?_, hagain 0⟩
  · rw [hstored]
    refine if_pos ?_
    revert key
    decide
  · have htidy : Template.Tidy tripleCaption := by decide +kernel
    have hshown : "a" ∈ tripleModel.keysIn tripleCaption := by decide +kernel
    have hfilled : q.textContent ⟨1⟩ = Template.fill (q.lookup ⟨0⟩) tripleCaption :=
      htexts _ List.mem_cons_self rfl htidy ⟨"a", hkeys ▸ List.mem_cons_self, hshown⟩ hout halive
    rw [hfilled, hstored]
    decide +kernel

end Bindery
