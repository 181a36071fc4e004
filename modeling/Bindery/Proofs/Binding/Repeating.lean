import Bindery.Proofs.Binding.Sync

/-!
# Writing the same value again

A value is written to some keys of a model, one after the other, and each time the listeners of the key
receive it.  Doing all this once more changes nothing.  On the way texts may change, if they show
another model whose events have the same names; but whoever writes an element last writes what the
element shows already.

* `Page.rewrite`           one value, written to one key after the other
* `Page.Stands`            elements show what their last listeners wrote
* `stands_rewrite`         so they do after a rewrite
* `receiveAll_of_stands`   and then all listeners together change nothing
* `rewrite_rewrite`        nor does the same rewrite
-/

namespace Bindery

variable {κ σ : Type}

namespace Child

def ofText (text : String) : List Child := if text = "" then [] else [.text text]

theorem element_not_mem_ofText (text : String) (c : ElementId) : element c ∉ ofText text := by
  unfold ofText
  split
  · exact List.not_mem_nil
  · exact fun h => nomatch List.mem_singleton.mp h

end Child

namespace Page

variable {value : Value} {l : Listener κ} {ls later rest : List (Listener κ)} {m : ModelId}
  {p q : Page κ σ}

/-! ## The last listener of an element -/

theorem renderedText_congr {template : String} {names : List String}
    (h : ∀ n ∈ names, q.lookup m n = p.lookup m n) (changed : String) (value : Value) :
    Engine.renderedText q m template names changed value
      = Engine.renderedText p m template names changed value :=
  Template.render_congr h template changed value

theorem lookup_receive (p : Page κ σ) (l : Listener κ) (m : ModelId) (key : String) :
    (p.receive value l).lookup m key = p.lookup m key := by
  rw [receive_eq]
  rfl

theorem handlers_receive (value : Value) (p : Page κ σ) (l : Listener κ) {e : ElementId}
    {d : PageElement κ} (hd : (p.receive value l).element? e = some d) :
    ∃ d', p.element? e = some d' ∧ d'.handlers = d.handlers := by
  obtain ⟨d₀, hd₀, -⟩ := (shrinks_receive value p l).children hd
  obtain ⟨d', hd', -, hh, -⟩ := element?_receive value hd₀ l
  cases hd'.symm.trans hd
  exact ⟨d₀, hd₀, hh.symm⟩

/-- Every element that is alive shows what its listeners among `ls` wrote: its text the last of them,
unless one that comes later writes it as well. -/
structure Stands (value : Value) (ls later : List (Listener κ)) (p : Page κ σ) : Prop where
  text : ∀ {done rest x m template names changed d},
    ls = done ++ .text x m template names changed :: rest →
    (∀ l ∈ rest ++ later, l.writesText x.target = false) →
    p.elementAlive x.target = true → p.modelAlive m.target = true → p.element? x.target = some d →
    d.children = Child.ofText (Engine.renderedText p m.target template names changed value)
  property : ∀ {x name d}, .property x name ∈ ls → p.elementAlive x.target = true →
    p.element? x.target = some d → d.attributes.setProperty name value = d.attributes

theorem stands_nil (value : Value) (later : List (Listener κ)) (p : Page κ σ) :
    p.Stands value [] later where
  text h := by simp at h
  property h := absurd h List.not_mem_nil

theorem Stands.receive (h : p.Stands value ls (l :: later))
    (hlower : ∀ {x name}, Listener.property x name ∈ ls ++ [l] → Text.lower name = name) :
    (p.receive value l).Stands value (ls ++ [l]) later where
  text {done rest x m template names changed d} heq hlast ha hm hd := by
    have hs := shrinks_receive value p l
    have hax := elementAlive_of_shrinks hs ha
    have hmx := modelAlive_of_shrinks hs (handlers_receive value p l) hm
    obtain ⟨d₀, hd₀, -⟩ := hs.children hd
    rw [renderedText_congr fun n _ => lookup_receive p l m.target n]
    rcases List.eq_nil_or_concat rest with rfl | ⟨rest, k, rfl⟩
    · -- the listener itself
      obtain ⟨rfl, hl⟩ := List.append_inj' heq rfl
      cases hl
      rw [receive_text, hax, hmx] at hd
      cases (element?_modifyElement_self hd₀ _).symm.trans hd
      rfl
    · -- an earlier one
      rw [List.concat_eq_append, ← List.cons_append, ← List.append_assoc] at heq
      obtain ⟨rfl, hl⟩ := List.append_inj' heq rfl
      cases hl
      rw [List.concat_eq_append, List.append_assoc] at hlast
      have hnot : l.writesText x.target = false := hlast l (by simp)
      obtain ⟨d', hd', -, -, -, hchildren⟩ := element?_receive value hd₀ l
      cases hd'.symm.trans hd
      rw [hchildren hnot]
      exact h.text rfl hlast hax hmx hd₀
  property {x name d} hmem ha hd := by
    have hax := elementAlive_of_shrinks (shrinks_receive value p l) ha
    obtain ⟨d₀, hd₀, -⟩ := (shrinks_receive value p l).children hd
    obtain ⟨d', hd', -, -, hattr, -⟩ := element?_receive value hd₀ l
    cases hd'.symm.trans hd
    rw [hattr hax]
    rcases List.mem_append.mp hmem with hold | hnew
    · have hkept := h.property hold hax hd₀
      cases l with
      | property c other =>
        by_cases hc : c.target = x.target
        · have hon : (Listener.property c other : Listener κ).propertyOn x.target = some other :=
            if_pos hc
          rw [hon]
          refine Attributes.setProperty_eq_self_of_setProperty hkept fun hl => ?_
          rw [hlower hmem, hlower (List.mem_append_right _ (List.mem_singleton_self _))] at hl
          exact hl
        · have hon : (Listener.property c other : Listener κ).propertyOn x.target = none := if_neg hc
          rw [hon]
          exact hkept
      | text c m template names changed => exact hkept
      | callback code => exact hkept
    · cases List.mem_singleton.mp hnew
      have hon : (Listener.property x name : Listener κ).propertyOn x.target = some name := if_pos rfl
      rw [hon]
      exact d₀.attributes.setProperty_setProperty name value

theorem Stands.receiveAll (h : p.Stands value ls (rest ++ later))
    (hlower : ∀ {x name}, Listener.property x name ∈ ls ++ rest → Text.lower name = name) :
    (p.receiveAll value rest).Stands value (ls ++ rest) later := by
  induction rest generalizing p ls with
  | nil =>
    rw [List.append_nil]
    exact h
  | cons l rest ih =>
    rw [← List.singleton_append, ← List.append_assoc] at hlower ⊢
    exact ih (Stands.receive h fun hm => hlower (List.mem_append_left _ hm)) hlower

theorem lookup_store_of_ne (p : Page κ σ) {m n : ModelId} {key other : String}
    (h : m = n → other ≠ key) (stored : Value) :
    (p.store m key stored).lookup n other = p.lookup n other := by
  unfold lookup
  by_cases hmn : m = n
  · subst hmn
    cases hd : p.model? m with
    | none => rw [model?_store_of_none hd]
    | some d =>
      rw [model?_store_self hd, Option.bind_some, Option.bind_some, Model.get?_written_of_ne _ (h rfl)]
  · rw [model?_store_of_ne hmn]

theorem Stands.store (h : p.Stands value ls []) {key : String} {stored : Value}
    (hcover : ∀ {x c template names changed}, Listener.text x c template names changed ∈ ls →
      c.target = m → key ∈ names → ∃ l ∈ later, l.writesText x.target = true) :
    (p.store m key stored).Stands value ls later where
  text {done rest x n template names changed d} heq hlast ha hn hd := by
    have hlives : SameLives p (p.store m key stored) := .store p m key stored
    rw [hlives.elementAlive] at ha
    rw [hlives.modelAlive] at hn
    rw [h.text heq (fun l hl => hlast l (by simpa using Or.inl (by simpa using hl))) ha hn hd,
      ← renderedText_congr fun name hname => lookup_store_of_ne p ?_ stored]
    rintro rfl rfl
    obtain ⟨l, hl, hw⟩ := hcover (heq ▸ List.mem_append_right _ List.mem_cons_self) rfl hname
    rw [hlast l (List.mem_append_right _ hl)] at hw
    cases hw
  property hmem ha hd := by
    have hlives : SameLives p (p.store m key stored) := .store p m key stored
    rw [hlives.elementAlive] at ha
    exact h.property hmem ha hd

/-! ## One key after the other -/

/-- A value written to some keys, one after the other; after each the listeners of the key receive
it. -/
def rewrite (m : ModelId) (value : Value) (heard : String → List (Listener κ)) (keys : List String)
    (p : Page κ σ) : Page κ σ :=
  keys.foldl (fun p key => (p.store m key value).receiveAll value (heard key)) p

theorem held_rewrite (m : ModelId) (value : Value) (heard : String → List (Listener κ))
    (keys : List String) (p : Page κ σ) : (p.rewrite m value heard keys).held = p.held := by
  induction keys generalizing p with
  | nil => rfl
  | cons key rest ih => exact (ih _).trans (held_receiveAll ..)

theorem buses_rewrite (m : ModelId) (value : Value) (heard : String → List (Listener κ))
    (keys : List String) (p : Page κ σ) : (p.rewrite m value heard keys).buses = p.buses := by
  induction keys generalizing p with
  | nil => rfl
  | cons key rest ih =>
    have hq := receiveAll_eq value (p.store m key value) (heard key)
    refine (ih _).trans ?_
    dsimp only
    rw [hq]
    rfl

theorem shrinks_rewrite (m : ModelId) (value : Value) (heard : String → List (Listener κ))
    (keys : List String) (p : Page κ σ) : Shrinks p (p.rewrite m value heard keys) := by
  induction keys generalizing p with
  | nil => exact .refl p
  | cons key rest ih =>
    exact ((SameLives.store p m key value).shrinks.trans (shrinks_receiveAll ..)).trans (ih _)

/-- An element keeps its handlers, and its children unless a listener writes its text. -/
theorem element?_rewrite (m : ModelId) (value : Value) (heard : String → List (Listener κ))
    (keys : List String) {p : Page κ σ} {x : ElementId} {d : PageElement κ}
    (hd : p.element? x = some d) :
    ∃ d', (p.rewrite m value heard keys).element? x = some d' ∧ d'.handlers = d.handlers ∧
      ((∀ key ∈ keys, ∀ l ∈ heard key, l.writesText x = false) → d'.children = d.children) := by
  induction keys generalizing p d with
  | nil => exact ⟨d, hd, rfl, fun _ => rfl⟩
  | cons key rest ih =>
    have hstored : (p.store m key value).element? x = some d := hd
    obtain ⟨d₁, hd₁, -, hh₁, -, hc₁⟩ := element?_receiveAll value hstored (heard key)
    obtain ⟨d₂, hd₂, hh₂, hc₂⟩ := ih hd₁
    refine ⟨d₂, hd₂, hh₂.trans hh₁, fun h => ?_⟩
    rw [hc₂ fun k hk => h k (List.mem_cons_of_mem key hk), hc₁ (h key List.mem_cons_self)]

theorem sameChildren_rewrite (m : ModelId) (value : Value) {heard : String → List (Listener κ)}
    {keys : List String} {x : ElementId}
    (h : ∀ key ∈ keys, ∀ l ∈ heard key, l.writesText x = false) :
    SameChildren p (p.rewrite m value heard keys) x := by
  unfold SameChildren
  cases hd : p.element? x with
  | none => rw [element?_eq_none_of_size (shrinks_rewrite m value heard keys p).size hd]
  | some d =>
    obtain ⟨d', hd', -, hc⟩ := element?_rewrite m value heard keys hd
    rw [hd', Option.map_some, Option.map_some, hc h]

/-- Whoever shows one of these keys as well as another listens to both. -/
def Thorough (m : ModelId) (heard : String → List (Listener κ)) (keys : List String) : Prop :=
  ∀ j ∈ keys, ∀ key ∈ keys, ∀ {x c template names changed},
    Listener.text x c template names changed ∈ heard j → c.target = m → key ∈ names →
    ∃ l ∈ heard key, l.writesText x.target = true

variable {heard : String → List (Listener κ)} {keys : List String}

theorem stands_rewrite (hthorough : Thorough m heard keys)
    (hlower : ∀ key ∈ keys, ∀ {x name}, Listener.property x name ∈ heard key → Text.lower name = name)
    (p : Page κ σ) : (p.rewrite m value heard keys).Stands value (keys.flatMap heard) [] := by
  -- by induction along the keys, with those that were written already
  have hall : ∀ todo done : List String, ∀ p : Page κ σ, (∀ key ∈ done ++ todo, key ∈ keys) →
      p.Stands value (done.flatMap heard) [] →
      (p.rewrite m value heard todo).Stands value ((done ++ todo).flatMap heard) [] := by
    intro todo
    induction todo with
    | nil =>
      intro done p _ h
      rw [List.append_nil]
      exact h
    | cons key todo ih =>
      intro done p hsub h
      have hkey : key ∈ keys := hsub key (by simp)
      have hnext := ih (done ++ [key]) ((p.store m key value).receiveAll value (heard key))
      rw [List.append_assoc, List.singleton_append] at hnext
      refine hnext hsub ?_
      rw [List.flatMap_append, List.flatMap_singleton]
      refine Stands.receiveAll ?_ ?_
      · rw [List.append_nil]
        refine h.store fun hmem hmodel hname => ?_
        obtain ⟨j, hj, hl⟩ := List.mem_flatMap.mp hmem
        exact hthorough j (hsub j (List.mem_append_left _ hj)) key hkey hl hmodel hname
      · intro x name hmem
        rcases List.mem_append.mp hmem with hmem | hmem
        · obtain ⟨j, hj, hl⟩ := List.mem_flatMap.mp hmem
          exact hlower j (hsub j (List.mem_append_left _ hj)) hl
        · exact hlower key hkey hmem
  exact hall keys [] p (fun _ h => h) (stands_nil value [] p)

theorem lookup_receiveAll (p : Page κ σ) (ls : List (Listener κ)) (n : ModelId) (key : String) :
    (p.receiveAll value ls).lookup n key = p.lookup n key := by
  unfold lookup
  rw [model?_receiveAll]

theorem lookup_store_self {d : Model} (hd : p.model? m = some d) (key : String) (value : Value) :
    (p.store m key value).lookup m key = some value := by
  unfold lookup
  rw [model?_store_self hd, Option.bind_some, Model.get?_written_self]

/-- The keys that were written have the value, and nothing else is stored. -/
theorem lookup_rewrite {d : Model} (hd : p.model? m = some d) (n : ModelId) (key : String) :
    (p.rewrite m value heard keys).lookup n key
      = if n = m ∧ key ∈ keys then some value else p.lookup n key := by
  induction keys generalizing p d with
  | nil => rw [if_neg fun h => absurd h.2 List.not_mem_nil]; rfl
  | cons k rest ih =>
    have hnext : ((p.store m k value).receiveAll value (heard k)).model? m = some _ :=
      (model?_receiveAll ..).trans (model?_store_self hd k value)
    show (((p.store m k value).receiveAll value (heard k)).rewrite m value heard rest).lookup n key = _
    rw [ih hnext, lookup_receiveAll]
    by_cases hrest : n = m ∧ key ∈ rest
    · rw [if_pos hrest, if_pos ⟨hrest.1, List.mem_cons_of_mem k hrest.2⟩]
    · rw [if_neg hrest]
      by_cases hk : n = m ∧ key = k
      · obtain ⟨rfl, rfl⟩ := hk
        rw [if_pos ⟨rfl, List.mem_cons_self⟩, lookup_store_self hd]
      · rw [lookup_store_of_ne p fun hmn hkey => hk ⟨hmn.symm, hkey⟩, if_neg]
        rintro ⟨hn, hmem⟩
        rcases List.mem_cons.mp hmem with hkey | hmem
        · exact hk ⟨hn, hkey⟩
        · exact hrest ⟨hn, hmem⟩

/-- The model has the value under the key, in the place where it would be put. -/
def Stores (m : ModelId) (key : String) (value : Value) (p : Page κ σ) : Prop :=
  ∀ d, p.model? m = some d → d.values.set key value = d.values

theorem Stores.store_eq_self {key : String} (h : p.Stores m key value) :
    p.store m key value = p := by
  have hall : p.models.modify m.index (fun d => { d with values := d.values.set key value })
      = p.models := by
    refine Array.ext_getElem? fun i => ?_
    rw [Array.getElem?_modify]
    split
    · rename_i hi
      subst hi
      cases hd : p.models[m.index]? with
      | none => rfl
      | some d =>
        rw [Option.map_some, h d hd]
    · rfl
  show { p with models := p.models.modify m.index _ } = p
  rw [hall]

theorem stores_store (m : ModelId) (key : String) (value : Value) (p : Page κ σ) :
    (p.store m key value).Stores m key value := by
  intro d hd
  cases hp : p.model? m with
  | none => cases (model?_store_of_none hp key value).symm.trans hd
  | some d₀ =>
    cases (model?_store_self hp key value).symm.trans hd
    exact Record.set_set key value d₀.values

theorem Stores.store {key : String} (h : p.Stores m key value) (other : String) :
    (p.store m other value).Stores m key value := by
  by_cases hk : key = other
  · rw [hk]
    exact stores_store m other value p
  · intro d hd
    cases hp : p.model? m with
    | none => cases (model?_store_of_none hp other value).symm.trans hd
    | some d₀ =>
      cases (model?_store_self hp other value).symm.trans hd
      exact Record.set_eq_self_of_set (h d₀ hp) hk

theorem Stores.receiveAll {key : String} (h : p.Stores m key value) (ls : List (Listener κ)) :
    (p.receiveAll value ls).Stores m key value := by
  intro d hd
  exact h d ((model?_receiveAll p ls m).symm.trans hd)

theorem Stores.rewrite {key : String} (h : p.Stores m key value) (keys : List String) :
    (p.rewrite m value heard keys).Stores m key value := by
  induction keys generalizing p with
  | nil => exact h
  | cons k rest ih => exact ih ((h.store k).receiveAll (heard k))

theorem stores_rewrite {key : String} (hkey : key ∈ keys) (p : Page κ σ) :
    (p.rewrite m value heard keys).Stores m key value := by
  induction keys generalizing p with
  | nil => cases hkey
  | cons k rest ih =>
    by_cases hrest : key ∈ rest
    · exact ih hrest _
    · rw [(List.mem_cons.mp hkey).resolve_right hrest]
      exact ((stores_store m k value p).receiveAll (heard k)).rewrite rest

/-! ## All listeners once more -/

def Pending (ls : List (Listener κ)) (p : Page κ σ) (x : ElementId) : Prop :=
  p.elementAlive x = true ∧ ∃ c m template names changed,
    Listener.text c m template names changed ∈ ls ∧ c.target = x ∧ p.modelAlive m.target = true

theorem Pending.of_cons {x : ElementId} (h : Pending (l :: rest) p x)
    (hl : ∀ c m template names changed, l = .text c m template names changed → c.target = x →
      p.modelAlive m.target = false) : Pending rest p x := by
  obtain ⟨ha, c, m, template, names, changed, hmem, hc, hm⟩ := h
  refine ⟨ha, c, m, template, names, changed, (List.mem_cons.mp hmem).resolve_left fun he => ?_, hc, hm⟩
  rw [hl c m template names changed he.symm hc] at hm
  cases hm

/-- From `p` to `q` texts may differ that a listener among `ls` will write. -/
structure Near (ls : List (Listener κ)) (p q : Page κ σ) : Prop where
  rest : q = { p with elements := q.elements }
  size : q.elements.size = p.elements.size
  element : ∀ {x d}, p.element? x = some d → ∃ children, q.element? x = some { d with children } ∧
    (children = d.children ∨
      (∀ c, .element c ∉ children) ∧ (∀ c, .element c ∉ d.children) ∧ Pending ls p x)

namespace Near

theorem refl (ls : List (Listener κ)) (p : Page κ σ) : Near ls p p :=
  ⟨rfl, rfl, fun hd => ⟨_, hd, Or.inl rfl⟩⟩

theorem element_back (h : Near ls p q) {x : ElementId} {d' : PageElement κ}
    (hd : q.element? x = some d') :
    ∃ d, p.element? x = some d ∧ d' = { d with children := d'.children } ∧
      ∀ c, .element c ∈ d'.children ↔ .element c ∈ d.children := by
  obtain ⟨d, hp⟩ := exists_element_of_size h.size.symm hd
  obtain ⟨children, hq, hc⟩ := h.element hp
  cases hq.symm.trans hd
  refine ⟨d, hp, rfl, fun c => ?_⟩
  rcases hc with rfl | ⟨hnone, hnone', -⟩
  · exact Iff.rfl
  · exact iff_of_false (hnone c) (hnone' c)

theorem shrinks (h : Near ls p q) : Shrinks p q where
  size := h.size
  views := by rw [h.rest]
  held hh := by
    rw [h.rest] at hh
    exact hh
  captured hh := by
    rw [h.rest] at hh
    exact hh
  children hd := by
    obtain ⟨d, hp, -, hc⟩ := h.element_back hd
    exact ⟨d, hp, fun c => (hc c).mp⟩

theorem grows (h : Near ls p q) : Shrinks q p where
  size := h.size.symm
  views := by rw [h.rest]
  held hh := by
    rw [h.rest]
    exact hh
  captured hh := by
    rw [h.rest]
    exact hh
  children hd := by
    obtain ⟨children, hq, -⟩ := h.element hd
    obtain ⟨d', hp, -, hc⟩ := h.element_back hq
    cases hd.symm.trans hp
    exact ⟨_, hq, fun c => (hc c).mpr⟩

theorem elementAlive (h : Near ls p q) (x : ElementId) : q.elementAlive x = p.elementAlive x :=
  Bool.eq_iff_iff.mpr ⟨elementAlive_of_shrinks h.shrinks, elementAlive_of_shrinks h.grows⟩

theorem modelAlive (h : Near ls p q) (m : ModelId) : q.modelAlive m = p.modelAlive m := by
  refine Bool.eq_iff_iff.mpr ⟨modelAlive_of_shrinks h.shrinks fun hd => ?_,
    modelAlive_of_shrinks h.grows fun hd => ?_⟩
  · obtain ⟨d, hp, heq, -⟩ := h.element_back hd
    exact ⟨d, hp, (congrArg PageElement.handlers heq).symm⟩
  · obtain ⟨children, hq, -⟩ := h.element hd
    exact ⟨_, hq, rfl⟩

theorem eq (h : Near [] p q) : q = p := by
  have hall : q.elements = p.elements := by
    refine Array.ext_getElem? fun i => ?_
    cases hd : p.element? ⟨i⟩ with
    | none => exact (element?_eq_none_of_size h.size hd).trans hd.symm
    | some d =>
      obtain ⟨children, hq, hc⟩ := h.element hd
      rcases hc with rfl | ⟨-, -, -, _, _, _, _, _, hmem, -⟩
      · exact hq.trans hd.symm
      · cases hmem
  rw [h.rest, hall]

end Near

def OneModel (ls : List (Listener κ)) : Prop :=
  ∀ {x m template names changed x' m' template' names' changed'},
    Listener.text x m template names changed ∈ ls →
    Listener.text x' m' template' names' changed' ∈ ls → x.target = x'.target → m.target = m'.target

theorem exists_last_writer {x : ElementId} (h : ∃ l ∈ ls, l.writesText x = true) :
    ∃ done l rest, ls = done ++ l :: rest ∧ l.writesText x = true ∧
      ∀ k ∈ rest, k.writesText x = false := by
  induction ls with
  | nil =>
    obtain ⟨l, hl, -⟩ := h
    cases hl
  | cons k ls ih =>
    by_cases hlater : ∃ l ∈ ls, l.writesText x = true
    · obtain ⟨done, l, rest, rfl, hw, hrest⟩ := ih hlater
      exact ⟨k :: done, l, rest, rfl, hw, hrest⟩
    · obtain ⟨l, hl, hw⟩ := h
      have hhead : l = k := (List.mem_cons.mp hl).resolve_right fun hin => hlater ⟨l, hin, hw⟩
      exact ⟨[], k, ls, rfl, hhead ▸ hw, fun j hj =>
        Bool.eq_false_iff.mpr fun hjw => hlater ⟨j, hj, hjw⟩⟩

theorem writesText_text (x : Captured ElementId) (m : Captured ModelId) (template : String)
    (names : List String) (changed : String) :
    (Listener.text x m template names changed : Listener κ).writesText x.target = true :=
  decide_eq_true rfl

theorem exists_of_writesText {x : ElementId} (h : l.writesText x = true) :
    ∃ c m template names changed, l = .text c m template names changed ∧ c.target = x := by
  cases l with
  | text c m template names changed =>
    exact ⟨c, m, template, names, changed, rfl, of_decide_eq_true h⟩
  | property c name => cases h
  | callback code => cases h

/-- The text of an element that a listener writes has no elements in it. -/
theorem Stands.childless (h : p.Stands value ls []) (hone : OneModel ls) {x : Captured ElementId}
    {n : Captured ModelId} {template : String} {names : List String} {changed : String}
    (hmem : .text x n template names changed ∈ ls) (ha : p.elementAlive x.target = true)
    (hn : p.modelAlive n.target = true) {d : PageElement κ} (hd : p.element? x.target = some d)
    (c : ElementId) : .element c ∉ d.children := by
  obtain ⟨done, l, rest, heq, hw, hlast⟩ := exists_last_writer ⟨_, hmem, writesText_text ..⟩
  obtain ⟨x', n', template', names', changed', rfl, hx⟩ := exists_of_writesText hw
  have hmodel := hone hmem (heq ▸ List.mem_append_right _ List.mem_cons_self) hx.symm
  rw [← hx] at hlast ha hd
  rw [h.text heq (by simpa using hlast) ha (hmodel ▸ hn) hd]
  exact Child.element_not_mem_ofText _ c

/-- One listener: what it writes is there already, or will be written later. -/
theorem Near.receive (hst : p.Stands value ls []) (hone : OneModel ls) {done : List (Listener κ)}
    (heq : ls = done ++ l :: rest) (h : Near (l :: rest) p q) : Near rest p (q.receive value l) := by
  have hmem : l ∈ ls := heq ▸ List.mem_append_right _ List.mem_cons_self
  have hsub : ∀ k ∈ rest, k ∈ ls := fun k hk =>
    heq ▸ List.mem_append_right _ (List.mem_cons_of_mem l hk)
  refine ⟨?_, ?_, fun {x d} hd => ?_⟩
  · rw [receive_eq, h.rest]
  · exact (shrinks_receive value q l).size.trans h.size
  obtain ⟨children, hq, hc⟩ := h.element hd
  cases l with
  | callback code =>
    exact ⟨children, hq, hc.imp_right (·.imp_right (·.imp_right (·.of_cons nofun)))⟩
  | property c name =>
    refine ⟨children, ?_, hc.imp_right (·.imp_right (·.imp_right (·.of_cons nofun)))⟩
    rw [receive_property]
    split
    · rename_i ha
      by_cases hcx : c.target = x
      · subst hcx
        rw [h.elementAlive] at ha
        refine (element?_modifyElement_self hq _).trans ?_
        rw [hst.property hmem ha hd]
      · exact (element?_modifyElement_of_ne hcx _).trans hq
    · exact hq
  | text c m template names changed =>
    rw [receive_text, h.elementAlive, h.modelAlive]
    by_cases hcx : c.target = x
    · subst hcx
      split
      · -- the text is written now
        rename_i halive
        rw [Bool.and_eq_true] at halive
        refine ⟨_, element?_modifyElement_self hq _, ?_⟩
        by_cases hlater : ∃ k ∈ rest, k.writesText c.target = true
        · obtain ⟨k, hk, hw⟩ := hlater
          obtain ⟨c', m', template', names', changed', rfl, hc'⟩ := exists_of_writesText hw
          have hmodel := hone hmem (hsub _ hk) hc'.symm
          exact Or.inr ⟨Child.element_not_mem_ofText _,
            hst.childless hone hmem halive.1 halive.2 hd,
            halive.1, c', m', template', names', changed', hk, hc', hmodel ▸ halive.2⟩
        · have hshown : Engine.renderedText q m.target template names changed value
              = Engine.renderedText p m.target template names changed value :=
            renderedText_congr (fun n _ => by rw [h.rest]; rfl) changed value
          left
          rw [hshown]
          refine (hst.text heq (fun k hk => ?_) halive.1 halive.2 hd).symm
          rw [List.append_nil] at hk
          exact Bool.eq_false_iff.mpr fun hw => hlater ⟨k, hk, hw⟩
      · rename_i hdead
        refine ⟨children, hq, hc.imp_right (·.imp_right (·.imp_right fun hp => hp.of_cons ?_))⟩
        rintro _ _ _ _ _ ⟨⟩ -
        rw [hp.1, Bool.true_and] at hdead
        exact Bool.eq_false_iff.mpr hdead
    · have hkept : children = d.children ∨ (∀ c, .element c ∉ children) ∧
          (∀ c, .element c ∉ d.children) ∧ Pending rest p x :=
        hc.imp_right (·.imp_right (·.imp_right (·.of_cons fun _ _ _ _ _ he hx => by
          cases he
          exact absurd hx hcx)))
      split
      · exact ⟨children, (element?_modifyElement_of_ne hcx _).trans hq, hkept⟩
      · exact ⟨children, hq, hkept⟩

theorem receiveAll_of_stands (h : p.Stands value ls []) (hone : OneModel ls) :
    p.receiveAll value ls = p := by
  have hall : ∀ todo done : List (Listener κ), ∀ q, ls = done ++ todo → Near todo p q →
      Near [] p (q.receiveAll value todo) := by
    intro todo
    induction todo with
    | nil => exact fun _ _ _ hn => hn
    | cons l todo ih =>
      intro done q heq hn
      have hstep := hn.receive h hone heq
      exact ih (done ++ [l]) _ (by rw [heq, List.append_assoc]; rfl) hstep
  exact (hall ls [] p rfl (.refl ls p)).eq

/-! ## The same rewrite once more -/

theorem rewrite_eq_receiveAll (h : ∀ key ∈ keys, p.Stores m key value) :
    p.rewrite m value heard keys = p.receiveAll value (keys.flatMap heard) := by
  induction keys generalizing p with
  | nil => rfl
  | cons key rest ih =>
    show ((p.store m key value).receiveAll value (heard key)).rewrite m value heard rest = _
    rw [(h key List.mem_cons_self).store_eq_self,
      ih fun k hk => (h k (List.mem_cons_of_mem key hk)).receiveAll (heard key)]
    exact (List.foldl_append ..).symm

/-- A rewrite that is done again changes nothing. -/
theorem rewrite_rewrite (p : Page κ σ) (hthorough : Thorough m heard keys)
    (hlower : ∀ key ∈ keys, ∀ {x name}, Listener.property x name ∈ heard key → Text.lower name = name)
    (hone : OneModel (keys.flatMap heard)) :
    (p.rewrite m value heard keys).rewrite m value heard keys = p.rewrite m value heard keys := by
  rw [rewrite_eq_receiveAll fun key hkey => stores_rewrite hkey p]
  exact receiveAll_of_stands (stands_rewrite hthorough hlower p) hone

end Page

end Bindery
