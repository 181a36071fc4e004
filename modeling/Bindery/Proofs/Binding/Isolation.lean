import Bindery.Proofs.Binding.Tying
import Bindery.Proofs.Binding.WriteBack
import Bindery.Proofs.Page.Content
import Bindery.Proofs.Page.Growth

/-!
# Models that share a bus

The name of a model stands in front of each of its events, up to a dot.  Keys may have dots as well, so
two models with different names have an event in common if one name, a dot and some more make up the
other.  Apart from that, writing to one model leaves alone what shows the other.

* `changeEvent_eq_iff`   when two models have an event in common
* `Assembled`            the pages that come about by binding elements
* `names_isolate`        what writes to one model leave alone
* `dotted_key_crosses`   a write that is shown where another model is bound
-/

namespace Bindery

/-! ## Events in common -/

/-- Two ways to cut a text at a dot, when nothing behind the second one has a dot. -/
theorem append_dot_eq_iff {name other key k : List Char} (hne : name ≠ other) (hk : '.' ∉ k) :
    name ++ '.' :: key = other ++ '.' :: k ↔
      ∃ x, other = name ++ '.' :: x ∧ key = x ++ '.' :: k := by
  constructor
  · intro h
    rcases List.append_eq_append_iff.mp h with ⟨x, hother, hkey⟩ | ⟨x, hname, hk'⟩
    · cases x with
      | nil => exact absurd (hother.trans (List.append_nil name)).symm hne
      | cons c x =>
        rw [List.cons_append, List.cons.injEq] at hkey
        obtain ⟨rfl, hkey⟩ := hkey
        exact ⟨x, hother, hkey⟩
    · cases x with
      | nil => exact absurd (hname.trans (List.append_nil other)) hne
      | cons c x =>
        rw [List.cons_append, List.cons.injEq] at hk'
        exact absurd (hk'.2 ▸ List.mem_append_right x List.mem_cons_self) hk
  · rintro ⟨x, rfl, rfl⟩
    rw [List.append_assoc]
    rfl

theorem changeEvent_eq_iff {name other key k : String} (hne : name ≠ other)
    (hk : Template.IsName k) :
    changeEvent name key = changeEvent other k ↔
      ∃ x, other = name ++ "." ++ x ∧ key = x ++ "." ++ k := by
  have hdot : '.' ∉ k.toList := fun h => nomatch hk '.' h
  have hchars : ∀ n j : String, (changeEvent n j).toList = (n.toList ++ '.' :: j.toList) ++ ":change".toList := by
    intro n j
    unfold changeEvent
    simp only [String.toList_append, List.append_assoc]
    rfl
  rw [← String.toList_inj, hchars, hchars, List.append_cancel_right_eq,
    append_dot_eq_iff (fun h => hne (String.toList_inj.mp h)) hdot]
  constructor
  · rintro ⟨x, hother, hkey⟩
    refine ⟨String.ofList x, ?_, ?_⟩
    · rw [← String.toList_inj]
      simpa using hother
    · rw [← String.toList_inj]
      simpa using hkey
  · rintro ⟨x, rfl, rfl⟩
    exact ⟨x.toList, by simp, by simp⟩

/-- Writing the key of the first model is announced by an event that announces a key of the second. -/
def Model.Meets (d d' : Model) (key : String) : Prop :=
  ∃ x k, d'.name = d.name ++ "." ++ x ∧ key = x ++ "." ++ k ∧ d'.contains k = true ∧
    Template.IsName k

variable {κ σ : Type}

/-! ## Pages on which elements are bound -/

/-- The pages that come about when elements are bound to models on a bus, each to models that it is to
show, however binding ends.  In between all may change, but who listens on the bus, and models only
grow. -/
inductive Assembled (callbacks : Callbacks κ σ) (b : BusId) (shows : ElementId → ModelId → Prop)
    (start : Page κ σ) : Page κ σ → Prop where
  | start : Assembled callbacks b shows start start
  | bind {p q : Page κ σ} {m : ModelId} {e : ElementId} {frames : Nat}
      {outcome : Except BusError (List Target)} : Assembled callbacks b shows start p → shows e m →
      (Engine.ofFrames callbacks (frames + 1)).bindElement b m e p = some (outcome, q) →
      Assembled callbacks b shows start q
  | change {p q : Page κ σ} : Assembled callbacks b shows start p → q.bus? b = p.bus? b →
      p.Grown q → Assembled callbacks b shows start q

/-- Two kinds of elements, one for each of two models. -/
def pairing (m₁ m₂ : ModelId) (firsts seconds : ElementId → Prop) (e : ElementId) (m : ModelId) :
    Prop :=
  firsts e ∧ m = m₁ ∨ seconds e ∧ m = m₂

namespace Page

variable {b : BusId} {shows : ElementId → ModelId → Prop} {p q : Page κ σ}

def Deserted (b : BusId) (p : Page κ σ) : Prop :=
  ∃ r, p.bus? b = some r ∧ ∀ event, r.heard event = []

/-- All listeners of the bus tie an element to a model that it is to show. -/
def Serves (b : BusId) (shows : ElementId → ModelId → Prop) (p : Page κ σ) : Prop :=
  ∃ r, p.bus? b = some r ∧ ∀ event, ∀ l ∈ r.heard event, ∃ m e, shows e m ∧ p.Ties m e event l

theorem Ties.of_grown {m : ModelId} {e : ElementId} {event : String} {l : Listener κ}
    (h : p.Ties m e event l) (hg : p.Grown q) : q.Ties m e event l := by
  obtain ⟨hl, d, k, hm, hk, hname, rfl⟩ := h
  obtain ⟨d', hm', hext⟩ := hg m d hm
  exact ⟨hl, d', k, hm', hext.keys k hk, hname, (hext.event k).symm⟩

namespace Serves

theorem quietOn (h : p.Serves b shows) : p.QuietOn b := by
  obtain ⟨r, hr, hall⟩ := h
  intro r' hr'
  cases hr.symm.trans hr'
  intro event l hl
  obtain ⟨m, e, -, hties⟩ := hall event l hl
  exact Listener.isBinding_of_element? hties.1

theorem of_grown (h : p.Serves b shows) (hb : q.bus? b = p.bus? b) (hg : p.Grown q) :
    q.Serves b shows := by
  obtain ⟨r, hr, hall⟩ := h
  refine ⟨r, hb.trans hr, fun event l hl => ?_⟩
  obtain ⟨m, e, hshows, hties⟩ := hall event l hl
  exact ⟨m, e, hshows, hties.of_grown hg⟩

theorem of_tied (h : p.Serves b shows) {m : ModelId} {e : ElementId} (hshows : shows e m)
    (ht : Tied b m e p q) : q.Serves b shows := by
  have hg : p.Grown q := .of_models (by rw [ht.rest])
  obtain ⟨r, hr, hall⟩ := h
  obtain ⟨ls, hls, hties⟩ := ht.registry r hr
  refine ⟨r.addAll ls, hls, fun event l hl => ?_⟩
  rw [heard_addAll] at hl
  rcases List.mem_append.mp hl with hl | hl
  · obtain ⟨m', e', hshows', hties'⟩ := hall event l hl
    exact ⟨m', e', hshows', hties'.of_grown hg⟩
  · obtain ⟨x, hx, rfl⟩ := List.mem_map.mp hl
    obtain ⟨hmem, hevent⟩ := List.mem_filter.mp hx
    have hxe : x.1 = event := by simpa using hevent
    exact ⟨m, e, hshows, hxe ▸ (hties x hmem).of_grown hg⟩

end Serves

end Page

open Page

theorem serves_of_assembled {callbacks : Callbacks κ σ} {b : BusId}
    {shows : ElementId → ModelId → Prop} {start p : Page κ σ} (hstart : start.Deserted b)
    (h : Assembled callbacks b shows start p) : p.Serves b shows := by
  induction h with
  | start =>
    obtain ⟨r, hr, hnone⟩ := hstart
    refine ⟨r, hr, fun event l hl => ?_⟩
    rw [hnone event] at hl
    cases hl
  | @bind p q m e frames outcome _ hshows hrun ih =>
    obtain ⟨outcome', q', hrun', htied, -⟩ := Engine.bindElement_of_quiet callbacks b m e ih.quietOn
    cases (hrun' frames).symm.trans hrun
    exact ih.of_tied hshows htied
  | change _ hb hg ih => exact ih.of_grown hb hg

/-! ## Many writes -/

/-- Writes values one after the other, however each of the writes ends. -/
def Engine.writeAll (engine : Engine κ σ) (m : ModelId) : List (String × Value) → Run κ σ Unit
  | [] => return ()
  | w :: rest => do
    let _ ← engine.write m w.1 w.2
    engine.writeAll m rest

theorem writeAll_of_quiet (callbacks : Callbacks κ σ) (frames : Nat) {p : Page κ σ} {m : ModelId}
    {d : Model} {r : Registry (Listener κ)} (hm : p.model? m = some d) (hb : p.bus? d.bus = some r)
    (hq : r.Quiet) (writes : List (String × Value)) :
    ∃ q, (Engine.ofFrames callbacks (frames + 1)).writeAll m writes p = some ((), q) ∧
      q.elements.size = p.elements.size ∧ (∀ n, n ≠ m → q.model? n = p.model? n) ∧
      ∀ c, (∀ w ∈ writes, ∀ l ∈ r.heard (d.event w.1), l.element? ≠ some c) →
        q.element? c = p.element? c := by
  induction writes generalizing p d with
  | nil => exact ⟨p, rfl, rfl, fun _ _ => rfl, fun _ _ => rfl⟩
  | cons w rest ih =>
    have hquiet : p.QuietOn d.bus := fun r' hr' => Option.some.inj (hb.symm.trans hr') ▸ hq
    obtain ⟨outcome, s, ls, hwrite, hwrote, hheard, -⟩ :=
      Engine.write_of_quiet callbacks hm hquiet w.1 w.2
    have hm' : s.model? m = some { d with values := d.values.set w.1 w.2 } :=
      (hwrote.model? m).trans (model?_store_self hm w.1 w.2)
    obtain ⟨q, hrun, hsize, hmodels, helement⟩ := ih hm' ((hwrote.bus? d.bus).trans hb)
    refine ⟨q, ?_, hsize.trans hwrote.size, fun n hn => ?_, fun c hc => ?_⟩
    · exact (Run.bind_of_eq (hwrite frames) _).trans hrun
    · exact (hmodels n hn).trans ((hwrote.model? n).trans (model?_store_of_ne (Ne.symm hn) w.1 w.2))
    · rw [helement c fun x hx => hc x (List.mem_cons_of_mem w hx)]
      refine hwrote.element c fun l hl => ?_
      obtain ⟨r', hr', hl⟩ := hheard l hl
      cases hb.symm.trans hr'
      exact hc w List.mem_cons_self l hl

/-- Elements are bound to one of two models with different names.  Then writing to the first model
leaves the second one alone, and, unless it is announced by an event of the second, all elements that
are not bound to the first; their texts as well, but for what elements inside them show. -/
theorem names_isolate {callbacks : Callbacks κ σ} {b : BusId} {m₁ m₂ : ModelId}
    {firsts seconds : ElementId → Prop} {start p : Page κ σ} {d₁ d₂ : Model}
    (hstart : start.Deserted b) (h : Assembled callbacks b (pairing m₁ m₂ firsts seconds) start p)
    (h₁ : p.model? m₁ = some d₁) (h₂ : p.model? m₂ = some d₂) (hbus : d₁.bus = b)
    (hne : d₁.name ≠ d₂.name) (frames : Nat) (writes : List (String × Value)) :
    ∃ q, (Engine.ofFrames callbacks (frames + 1)).writeAll m₁ writes p = some ((), q) ∧
      q.model? m₂ = some d₂ ∧
      ((∀ w ∈ writes, ¬ d₁.Meets d₂ w.1) → ∀ c, ¬ firsts c → q.element? c = p.element? c ∧
        ((∀ x, p.Inside c x → ¬ firsts x) → q.textContent c = p.textContent c)) := by
  have hserves := serves_of_assembled hstart h
  have hquiet := hserves.quietOn
  obtain ⟨r, hr, hall⟩ := hserves
  subst hbus
  obtain ⟨q, hrun, hsize, hmodels, helement⟩ :=
    writeAll_of_quiet callbacks frames h₁ hr (hquiet r hr) writes
  have hm : m₂ ≠ m₁ := by
    rintro rfl
    exact hne (congrArg Model.name (Option.some.inj (h₁.symm.trans h₂)))
  refine ⟨q, hrun, (hmodels m₂ hm).trans h₂, fun hapart => ?_⟩
  -- no listener of an event that is published writes an element of the second kind
  have hkeeps : ∀ c, ¬ firsts c → q.element? c = p.element? c := by
    intro c hc
    refine helement c fun w hw l hl hlc => ?_
    obtain ⟨m, e, hshows, hle, d, k, hd, hk, hname, hevent⟩ := hall _ l hl
    cases hlc.symm.trans hle
    rcases hshows with ⟨hfirst, -⟩ | ⟨-, rfl⟩
    · exact hc hfirst
    · cases h₂.symm.trans hd
      obtain ⟨x, hx, hkey⟩ := (changeEvent_eq_iff hne hname).mp hevent
      exact hapart w hw ⟨x, k, hx, hkey, hk, hname⟩
  have hsame : ∀ c, ¬ firsts c → SameChildren p q c := fun c hc => by
    unfold SameChildren
    rw [hkeeps c hc]
  exact fun c hc => ⟨hkeeps c hc, fun hinside =>
    textContent_congr hsize (hsame c hc) fun x hx => hsame x (hinside x hx)⟩

/-! ## Two models whose names begin alike -/

def shortModel : Model := ⟨⟨0⟩, "a", [("b.c", .text "1"), ("k", .text "2")], ["b.c", "k"]⟩

def longModel : Model := ⟨⟨0⟩, "a.b", [("c", .text "3")], ["c"]⟩

/-- A text for the first model inside an element with a title for the second, and a text for the
second. -/
def crossPage : Page Unit Unit where
  buses := #[{ maxDepth := 8 }]
  models := #[shortModel, longModel]
  elements := #[{ tag := "p", children := [.text "${k}"] },
    { tag := "div", attributes := ⟨[("title", "${c}")]⟩, children := [.element ⟨0⟩] },
    { tag := "p", children := [.text "${c}"] }]
  held := [.element ⟨0⟩, .element ⟨1⟩, .element ⟨2⟩, .model ⟨0⟩, .model ⟨1⟩]
  host := ()

def boundTo (m : ModelId) (e : ElementId) (p : Page Unit Unit) : Option (Page Unit Unit) :=
  ((Engine.ofFrames idleCode 1).bindElement ⟨0⟩ m e p).map Prod.snd

def crossBound : Option (Page Unit Unit) :=
  ((boundTo ⟨0⟩ ⟨0⟩ crossPage).bind (boundTo ⟨1⟩ ⟨1⟩)).bind (boundTo ⟨1⟩ ⟨2⟩)

abbrev crossing : ElementId → ModelId → Prop := pairing ⟨0⟩ ⟨1⟩ (· = ⟨0⟩) (· ≠ ⟨0⟩)

theorem assembled_boundTo {p q : Page Unit Unit} {m : ModelId} {e : ElementId}
    (h : Assembled idleCode ⟨0⟩ crossing crossPage p) (hshows : crossing e m)
    (hq : boundTo m e p = some q) :
    Assembled idleCode ⟨0⟩ crossing crossPage q ∧ q.models = p.models := by
  obtain ⟨⟨outcome, s⟩, hrun, rfl⟩ := Option.map_eq_some_iff.mp hq
  have hquiet := (serves_of_assembled ⟨_, rfl, fun _ => rfl⟩ h).quietOn
  obtain ⟨outcome', q', hrun', htied, -⟩ := Engine.bindElement_of_quiet idleCode ⟨0⟩ m e hquiet
  cases (hrun' 0).symm.trans hrun
  exact ⟨.bind h hshows hrun, by rw [htied.rest]⟩

theorem assembled_crossBound {p : Page Unit Unit} (h : crossBound = some p) :
    Assembled idleCode ⟨0⟩ crossing crossPage p ∧ p.models = crossPage.models := by
  unfold crossBound at h
  obtain ⟨q, hq, hp⟩ := Option.bind_eq_some_iff.mp h
  obtain ⟨s, hs, hq⟩ := Option.bind_eq_some_iff.mp hq
  obtain ⟨h₁, hm₁⟩ := assembled_boundTo .start (Or.inl ⟨rfl, rfl⟩) hs
  obtain ⟨h₂, hm₂⟩ := assembled_boundTo h₁ (Or.inr ⟨by decide, rfl⟩) hq
  obtain ⟨h₃, hm₃⟩ := assembled_boundTo h₂ (Or.inr ⟨by decide, rfl⟩) hp
  exact ⟨h₃, (hm₃.trans hm₂).trans hm₁⟩

/-- What is shown after some values were written to the first model: the title and the text inside it,
and the text of the last element. -/
def crossShown (writes : List (String × Value)) (p : Page Unit Unit) :
    Option (Option String × String × String) :=
  ((Engine.ofFrames idleCode 1).writeAll ⟨0⟩ writes p).map fun a =>
    ((a.2.attributesOf ⟨1⟩).get? "title", a.2.textContent ⟨1⟩, a.2.textContent ⟨2⟩)

theorem not_meets_longModel {key : String} (h : key.toList.getLast? ≠ some 'c') :
    ¬ shortModel.Meets longModel key := by
  rintro ⟨x, k, -, rfl, hk, -⟩
  by_cases hc : k = "c"
  · subst hc
    exact h (by simp)
  · have hnone : longModel.contains k = false := by
      show (if "c" = k then some (Value.text "3") else none).isSome = false
      rw [if_neg (Ne.symm hc)]
      rfl
    rw [hnone] at hk
    cases hk

/-- Keys of the first model that do not end like one of the second. -/
theorem other_keys_stay_apart :
    ∃ p q, crossPage.Deserted ⟨0⟩ ∧ Assembled idleCode ⟨0⟩ crossing crossPage p ∧
      p.model? ⟨0⟩ = some shortModel ∧ p.model? ⟨1⟩ = some longModel ∧
      shortModel.name ≠ longModel.name ∧
      (Engine.ofFrames idleCode 1).writeAll ⟨0⟩ [("k", .text "Y"), ("b.d", .text "Z")] p
        = some ((), q) ∧
      q.model? ⟨1⟩ = some longModel ∧ q.element? ⟨1⟩ = p.element? ⟨1⟩ ∧ q.textContent ⟨2⟩ = "3" := by
  have hshown : crossBound.map (fun p => (p.childElements ⟨2⟩, p.textContent ⟨2⟩))
      = some ([], "3") := by
    decide +kernel
  obtain ⟨p, hp, hshown⟩ := Option.map_eq_some_iff.mp hshown
  obtain ⟨hinside, htext⟩ := Prod.mk.inj hshown
  obtain ⟨hassembled, hmodels⟩ := assembled_crossBound hp
  have hdeserted : crossPage.Deserted ⟨0⟩ := ⟨_, rfl, fun _ => rfl⟩
  have h₁ : p.model? ⟨0⟩ = some shortModel := congrArg (fun a => a[0]?) hmodels
  have h₂ : p.model? ⟨1⟩ = some longModel := congrArg (fun a => a[1]?) hmodels
  have hne : shortModel.name ≠ longModel.name := by decide
  obtain ⟨q, hrun, hlong, hkept⟩ := names_isolate hdeserted hassembled h₁ h₂ rfl hne 0
    [("k", .text "Y"), ("b.d", .text "Z")]
  have happart : ∀ w ∈ [("k", Value.text "Y"), ("b.d", Value.text "Z")],
      ¬ shortModel.Meets longModel w.1 := by
    intro w hw
    apply not_meets_longModel
    rcases List.mem_cons.mp hw with rfl | hw
    · decide
    · rw [List.mem_singleton.mp hw]
      decide
  obtain ⟨-, hlast⟩ := hkept happart ⟨2⟩ (by decide)
  refine ⟨p, q, hdeserted, hassembled, h₁, h₂, hne, hrun, hlong, (hkept happart ⟨1⟩ (by decide)).1, ?_⟩
  rw [hlast fun x hx => absurd hx (not_inside_of_childElements hinside), htext]

/-- The event of the key `b.c` of the first model is that of the key `c` of the second, so its value is
shown by all elements that are bound to the second; and an element has the text of those inside it. -/
theorem dotted_key_crosses :
    ∃ p, crossPage.Deserted ⟨0⟩ ∧ Assembled idleCode ⟨0⟩ crossing crossPage p ∧
      p.model? ⟨0⟩ = some shortModel ∧ p.model? ⟨1⟩ = some longModel ∧
      shortModel.name ≠ longModel.name ∧
      crossShown [] p = some (some "3", "2", "3") ∧
      crossShown [("b.c", .text "X")] p = some (some "X", "2", "X") ∧
      crossShown [("k", .text "Y")] p = some (some "3", "Y", "3") := by
  have hshown : (crossBound.bind fun p =>
      if crossShown [] p = some (some "3", "2", "3") ∧
          crossShown [("b.c", .text "X")] p = some (some "X", "2", "X") ∧
          crossShown [("k", .text "Y")] p = some (some "3", "Y", "3") then some () else none)
      = some () := by
    decide +kernel
  obtain ⟨p, hp, hshown⟩ := Option.bind_eq_some_iff.mp hshown
  split at hshown
  · rename_i hvalues
    obtain ⟨hassembled, hmodels⟩ := assembled_crossBound hp
    exact ⟨p, ⟨_, rfl, fun _ => rfl⟩, hassembled, congrArg (fun a => a[0]?) hmodels,
      congrArg (fun a => a[1]?) hmodels, by decide, hvalues⟩
  · cases hshown

end Bindery
