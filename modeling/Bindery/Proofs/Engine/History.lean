import Bindery.Proofs.Binding.Tying
import Bindery.Proofs.Engine.Moments
import Bindery.Proofs.Page.Flights
import Bindery.Proofs.Page.Growth

/-!
# What a model has seen

A model at any moment of a run is told by the writes to it so far, in the order in which they began,
whatever listeners write on their way and however deliveries end.  So are the events that it has
published: one for each write to a key that announces its writes, and the value is stored by then.

* `Page.Unwritten`               no model changes
* `Act.write?`, `Act.announcement?`
                                 what an act writes to a model, and what the model publishes by it
* `Model.rewritten`              a model after some writes
* `step_history`                 one step: the writes and the announcements of a model
* `history_of_after`             and a whole run
* `model_follows_history`        a model at any moment after it was installed
-/

namespace Bindery

variable {κ σ : Type}

/-! ## Whatever is done apart from writes -/

def Page.Unwritten (p q : Page κ σ) : Prop := ∀ m d, p.model? m = some d → q.model? m = some d

namespace Page.Unwritten

variable {p q t : Page κ σ}

theorem of_models (h : q.models = p.models) : p.Unwritten q :=
  fun m _ hd => (model?_of_models h m).trans hd

theorem of_push {d : Model} (h : q.models = p.models.push d) : p.Unwritten q := by
  intro m e he
  have hlt : m.index < p.models.size := (Array.getElem?_eq_some_iff.mp he).1
  show q.models[m.index]? = some e
  rw [h, Array.getElem?_push_lt hlt, ← Array.getElem?_eq_getElem hlt]
  exact he

theorem subscribe (p : Page κ σ) (b : BusId) (event : String) (l : Listener κ) :
    p.Unwritten (p.subscribe b event l).2 :=
  fun m _ hd => (model?_subscribe p b event l m).trans hd

theorem bindAttributes (p : Page κ σ) (b : BusId) (m : ModelId) (e : ElementId)
    (entries : List (String × String)) : p.Unwritten (p.bindAttributes b m e entries).2 := by
  have htied : Tied b m e p (p.bindAttributes b m e entries).2 := tied_bindAttributes entries
  rw [htied.rest]
  exact of_models rfl

theorem setMarkup (p : Page κ σ) (e : ElementId) (markup : String) :
    p.Unwritten (p.setMarkup e markup) := by
  rw [setMarkup_eq]
  exact of_models rfl

theorem request (p : Page κ σ) (s : ShelfId) (path : String) : p.Unwritten (p.request s path).2 := by
  rw [request_eq]
  exact of_models rfl

theorem openView (p : Page κ σ) (b : BusId) (r : ViewRequest) : p.Unwritten (p.openView b r).2 := by
  unfold Page.openView
  split
  · exact of_models rfl
  · exact of_push rfl

theorem receive (p : Page κ σ) (value : Value) (l : Listener κ) : p.Unwritten (p.receive value l) := by
  rw [receive_eq]
  exact of_models rfl

end Page.Unwritten

open Page

theorem Page.bindsWithin_unwritten : BindsWithin (Unwritten (κ := κ) (σ := σ)) where
  refl _ := .of_models rfl
  hold _ _ := .of_models rfl
  release _ _ := .of_models rfl
  subscribe := .subscribe
  bindAttributes := .bindAttributes

theorem Page.callsWithin_unwritten : CallsWithin (Unwritten (κ := κ) (σ := σ)) where
  refl _ := .of_models rfl
  hold _ _ := .of_models rfl
  release _ _ := .of_models rfl
  modifyBus _ _ _ := .of_models rfl

def Call.WritesNothing : Call κ → Prop
  | write .. => False
  | _ => True

theorem Call.unwritten_routine {c : Call κ} (hc : c.WritesNothing) :
    (c.routine : Routine κ σ _).Within Unwritten True := by
  have hview : ∀ v (p : Page κ σ) f, p.Unwritten (p.modifyView v f) := fun _ _ _ => .of_models rfl
  cases c with
  | openBus limit => exact .amendGet fun _ => .of_models rfl
  | subscribe bus event code => exact .amendGet fun p => .subscribe p bus event _
  | publish bus event value => exact .announce bus event value
  | observe bus name values => exact .amendGet fun _ => .of_push rfl
  | write m key value => cases hc
  | create tag => exact .amendGet fun _ => .of_models rfl
  | setMarkup e markup => exact .amend fun p => .setMarkup p e markup
  | dispatch e kind => exact .fire trivial e kind
  | bind bus m e => exact bindsWithin_unwritten.bindElement bus m e
  | stock entries => exact .amendGet fun _ => .of_models rfl
  | openView bus request => exact .amendGet fun p => .openView p bus request
  | load v shelf =>
    exact bindsWithin_unwritten.load (hview v) .setMarkup fun s _ p path => .request p s path
  | populate v markup => exact bindsWithin_unwritten.populate (hview v) .setMarkup markup
  | _ => exact .amend fun _ => .of_models rfl

theorem Call.unwritten_plan (c : Call κ) : (c.plan : Plan κ σ _).Within Unwritten := by
  by_cases hc : c.WritesNothing
  · cases c with
    | write m key value => cases hc
    | _ => exact (Call.unwritten_routine hc).plan
  · cases c with
    | write m key value => exact fun _ => trivial
    | _ => exact absurd trivial hc

theorem Program.unwritten_plan {α : Type} (program : Program κ σ α) : program.plan.Within Unwritten :=
  Program.within_plan (fun _ _ => .of_models rfl) Call.unwritten_plan program

theorem Callbacks.unwritten (callbacks : Callbacks κ σ) : callbacks.Within Unwritten where
  listener l value := by
    cases l with
    | callback code => exact Program.unwritten_plan _
    | _ => exact ⟨fun p => .receive p value _, trivial⟩
  handler h e := by
    cases h with
    | callback code => exact Program.unwritten_plan _
    | writeBack m property key control =>
      intro p
      dsimp only
      split
      · exact fun _ => trivial
      · trivial

/-! ## Writes and announcements -/

def Act.write? (m : ModelId) : Act → Option (String × Value)
  | stored n key value => if n = m then some (key, value) else none
  | published .. => none

def Act.announcement? (m : ModelId) : Act → Option (BusId × String × Value)
  | stored .. => none
  | published origin bus event value => if origin = some m then some (bus, event, value) else none

/-- The writes to a model, in the order in which they began. -/
def writesTo (m : ModelId) (acts : List Act) : List (String × Value) := acts.filterMap (Act.write? m)

/-- The events that a model publishes, in order. -/
def announcementsBy (m : ModelId) (acts : List Act) : List (BusId × String × Value) :=
  acts.filterMap (Act.announcement? m)

/-- What a model is about to publish. -/
def Moment.pending (m : ModelId) (S : Moment κ σ) : List (BusId × String × Value) :=
  match S.focus with
  | .announce n bus event value _ => if n = m then [(bus, event, value)] else []
  | _ => []

/-- The value that was written last under a key. -/
def lastWrite? (key : String) (writes : List (String × Value)) : Option Value :=
  ((writes.filter (·.1 = key)).getLast?).map Prod.snd

namespace Model

variable {d : Model} {writes : List (String × Value)}

def rewritten (d : Model) (writes : List (String × Value)) : Model :=
  { d with values := writes.foldl (fun r w => r.set w.1 w.2) d.values }

/-- What a model publishes for some writes. -/
def announcements (d : Model) (writes : List (String × Value)) : List (BusId × String × Value) :=
  (writes.filter (·.1 ∈ d.observed)).map fun w => (d.bus, d.event w.1, w.2)

theorem rewritten_append (ws vs : List (String × Value)) :
    d.rewritten (ws ++ vs) = (d.rewritten ws).rewritten vs := by
  unfold rewritten
  rw [List.foldl_append]

theorem announcements_append (ws vs : List (String × Value)) :
    d.announcements (ws ++ vs) = d.announcements ws ++ d.announcements vs := by
  unfold announcements
  rw [List.filter_append, List.map_append]

theorem announcements_rewritten (ws vs : List (String × Value)) :
    (d.rewritten ws).announcements vs = d.announcements vs := rfl

theorem get?_rewritten (d : Model) (writes : List (String × Value)) (key : String) :
    (d.rewritten writes).get? key = (lastWrite? key writes).or (d.get? key) := by
  induction writes generalizing d with
  | nil => rfl
  | cons w rest ih =>
    show (({ d with values := d.values.set w.1 w.2 } : Model).rewritten rest).get? key = _
    rw [ih]
    unfold lastWrite?
    by_cases hk : w.1 = key
    · subst hk
      rw [d.get?_written_self, List.filter_cons_of_pos (by simp), List.getLast?_cons]
      cases (rest.filter (·.1 = w.1)).getLast? with
      | none => rfl
      | some v => rfl
    · rw [d.get?_written_of_ne (Ne.symm hk), List.filter_cons_of_neg (by simpa using hk)]

theorem extends_rewritten (d : Model) (writes : List (String × Value)) :
    d.Extends (d.rewritten writes) := by
  induction writes generalizing d with
  | nil => exact .refl d
  | cons w rest ih => exact (Extends.store d w.1 w.2).trans (ih _)

end Model

/-! ## One step -/

section
variable {callbacks : Callbacks κ σ} {S : Moment κ σ} {m : ModelId} {d : Model}

theorem Act.write?_of_origin {a : Act} (h : a.origin? ≠ some m) : a.write? m = none := by
  cases a with
  | stored n key value => exact if_neg fun hn => h (congrArg some hn)
  | published origin bus event value => rfl

theorem Act.announcement?_of_origin {a : Act} (h : a.origin? ≠ some m) : a.announcement? m = none := by
  cases a with
  | stored n key value => rfl
  | published origin bus event value => exact if_neg h

theorem writesTo_eq_nil {acts : List Act} (h : ∀ a ∈ acts, a.origin? ≠ some m) : writesTo m acts = [] :=
  List.filterMap_eq_nil_iff.mpr fun a ha => Act.write?_of_origin (h a ha)

theorem announcementsBy_eq_nil {acts : List Act} (h : ∀ a ∈ acts, a.origin? ≠ some m) :
    announcementsBy m acts = [] :=
  List.filterMap_eq_nil_iff.mpr fun a ha => Act.announcement?_of_origin (h a ha)

theorem Moment.pending_eq_nil (h : ¬ S.focus.Announces) : S.pending m = [] := by
  unfold Moment.pending
  split
  · rename_i hf
    rw [hf] at h
    exact absurd trivial h
  · rfl

/-- After one step a model has seen the writes of that step, and it has published, or is about to,
what it was about to publish and what it announces for them. -/
theorem Moment.step_history (callbacks : Callbacks κ σ) (hS : S.Within Unwritten) (hd : S.page.model? m = some d) :
    (S.step callbacks).2.page.model? m = some (d.rewritten (writesTo m (S.step callbacks).1)) ∧
    S.pending m ++ d.announcements (writesTo m (S.step callbacks).1)
      = announcementsBy m (S.step callbacks).1 ++ (S.step callbacks).2.pending m := by
  rcases Moment.step_cases callbacks callsWithin_unwritten hS with
    ⟨n, key, value, next, e, hf, he, hstep⟩ | ⟨n, bus, event, value, next, hf, hstep⟩ |
    ⟨hbefore, hbehind, hacts, hpage⟩
  · -- a write, to this model or to another one
    rw [hstep, Moment.pending_eq_nil (hf ▸ id)]
    by_cases hn : n = m
    · subst hn
      obtain rfl : d = e := Option.some.inj (hd.symm.trans he)
      have hwrites : writesTo n [Act.stored n key value] = [(key, value)] := by
        simp [writesTo, Act.write?]
      rw [hwrites]
      unfold Moment.write
      by_cases hk : key ∈ d.observed
      · rw [if_pos hk]
        refine ⟨model?_store_self hd key value, ?_⟩
        simp [Model.announcements, announcementsBy, Act.announcement?, Moment.pending, hk]
      · rw [if_neg hk]
        refine ⟨model?_store_self hd key value, ?_⟩
        simp [Model.announcements, announcementsBy, Act.announcement?, Moment.pending, hk]
    · have horigin : ∀ a ∈ [Act.stored n key value], a.origin? ≠ some m := by
        intro a ha h
        rw [List.mem_singleton.mp ha] at h
        exact hn (Option.some.inj h)
      rw [writesTo_eq_nil horigin, announcementsBy_eq_nil horigin]
      unfold Moment.write
      split
      · refine ⟨(model?_store_of_ne hn key value).trans hd, ?_⟩
        simp [Model.announcements, Moment.pending, hn]
      · exact ⟨(model?_store_of_ne hn key value).trans hd, rfl⟩
  · -- the announcement that was pending
    obtain ⟨hpage, hfocus⟩ := callsWithin_unwritten.publish S.page bus event value next S.stack
    rw [hstep, Moment.pending_eq_nil hfocus]
    refine ⟨hpage m d hd, ?_⟩
    by_cases hn : n = m <;>
      simp [Moment.pending, hf, hn, Model.announcements, writesTo, Act.write?, announcementsBy,
        Act.announcement?]
  · have horigin : ∀ a ∈ (S.step callbacks).1, a.origin? ≠ some m := fun a ha h => by
      rw [hacts a ha] at h
      cases h
    rw [writesTo_eq_nil horigin, announcementsBy_eq_nil horigin, Moment.pending_eq_nil hbefore,
      Moment.pending_eq_nil hbehind]
    exact ⟨hpage m d hd, rfl⟩

/-! ## Whole runs -/

/-- So many steps later a model has seen the writes of these steps, and it has published, or is about
to, what it was about to publish and what it announces for them. -/
theorem Moment.history_after (callbacks : Callbacks κ σ) (hS : S.Within Unwritten) (hd : S.page.model? m = some d) (k : Nat) :
    (S.after callbacks k).page.model? m = some (d.rewritten (writesTo m (S.acts callbacks k))) ∧
    S.pending m ++ d.announcements (writesTo m (S.acts callbacks k))
      = announcementsBy m (S.acts callbacks k) ++ (S.after callbacks k).pending m := by
  induction k generalizing S d with
  | zero => exact ⟨hd, List.append_nil _⟩
  | succ k ih =>
    have hT := hS.step callbacks.unwritten (fun p h => callsWithin_unwritten.release p h)
    obtain ⟨hmodel, hpending⟩ := Moment.step_history callbacks hS hd
    obtain ⟨hlast, hrest⟩ := ih hT hmodel
    rw [Model.announcements_rewritten] at hrest
    show (after callbacks (S.step callbacks).2 k).page.model? m
        = some (d.rewritten (writesTo m (_ ++ _))) ∧
      S.pending m ++ d.announcements (writesTo m (_ ++ _))
        = announcementsBy m (_ ++ _) ++ (after callbacks (S.step callbacks).2 k).pending m
    unfold writesTo announcementsBy at *
    rw [List.filterMap_append, List.filterMap_append, Model.rewritten_append,
      Model.announcements_append]
    refine ⟨hlast, ?_⟩
    rw [← List.append_assoc, hpending, List.append_assoc, hrest, List.append_assoc]

/-- What a model is about to publish is the value that it has under a key that announces its writes. -/
structure Moment.Stored (S : Moment κ σ) : Prop where
  stored : ∀ {n bus event value next}, S.focus = .announce n bus event value next →
    ∃ d key, S.page.model? n = some d ∧ key ∈ d.observed ∧ bus = d.bus ∧ event = d.event key ∧
      d.get? key = some value

theorem Moment.Stored.of_not_announces (h : ¬ S.focus.Announces) : S.Stored where
  stored hf := by
    rw [hf] at h
    exact absurd trivial h

theorem Moment.Stored.step (hS : S.Within Unwritten) : (S.step callbacks).2.Stored := by
  rcases Moment.step_cases callbacks callsWithin_unwritten hS with
    ⟨n, key, value, next, d, hf, hd, hstep⟩ | ⟨n, bus, event, value, next, hf, hstep⟩ |
    ⟨-, hbehind, -, -⟩
  · rw [hstep]
    unfold Moment.write
    split
    · rename_i hk
      refine ⟨fun hfocus => ?_⟩
      cases hfocus
      exact ⟨_, key, model?_store_self hd key value, hk, rfl, rfl, d.get?_written_self key value⟩
    · exact .of_not_announces id
  · rw [hstep]
    exact .of_not_announces (callsWithin_unwritten.publish S.page bus event value next S.stack).2
  · exact .of_not_announces hbehind

theorem Moment.Stored.after (hS : S.Within Unwritten) (h : S.Stored) (k : Nat) :
    (S.after callbacks k).Stored := by
  induction k generalizing S with
  | zero => exact h
  | succ k ih =>
    exact ih (hS.step callbacks.unwritten fun p h => callsWithin_unwritten.release p h) (.step hS)

def Focus.IsTurn : Focus κ σ → Prop
  | .turns .. => True
  | _ => False

/-- Looking for the next listener changes nothing. -/
theorem Moment.page_step_of_isTurn (h : S.focus.IsTurn) : (S.step callbacks).2.page = S.page := by
  obtain ⟨p, focus, stack⟩ := S
  cases focus with
  | turns bus event generation value places =>
    cases places with
    | nil => rfl
    | cons i rest =>
      unfold Moment.step
      dsimp only
      split
      · rfl
      · rfl
      · rfl
  | _ => cases h

/-- No model changes before the first listener of an announcement has been called. -/
theorem Moment.unwritten_first_turn {n : ModelId} {bus : BusId} {event : String} {value : Value}
    {next : Outcome → Plan κ σ Outcome} (hf : S.focus = .announce n bus event value next) (j : Nat)
    (hj : ∀ i, 0 < i → i < j → (S.after callbacks i).focus.IsTurn) :
    S.page.Unwritten (S.after callbacks j).page := by
  induction j with
  | zero => exact .of_models rfl
  | succ j ih =>
    have hbefore := ih fun i h0 hi => hj i h0 (Nat.lt_succ_of_lt hi)
    rw [after_add j 1 S]
    show S.page.Unwritten ((S.after callbacks j).step callbacks).2.page
    cases j with
    | zero =>
      obtain ⟨p, focus, stack⟩ := S
      cases hf
      exact (callsWithin_unwritten.publish p bus event value next stack).1
    | succ j =>
      rw [page_step_of_isTurn (hj (j + 1) (Nat.succ_pos j) (Nat.lt_succ_self _))]
      exact hbefore

end

/-! ## From the installation on -/

theorem Page.model?_addModel (p : Page κ σ) (bus : BusId) (name : String) (values : Record) :
    (p.addModel bus name values).2.model? (p.addModel bus name values).1
      = some ⟨bus, name, values, values.keys⟩ :=
  Array.getElem?_push_size

theorem Moment.within_start (program : Program κ σ Outcome) (p : Page κ σ) :
    (start program p).Within Unwritten :=
  ⟨program.unwritten_plan, fun _ hf => nomatch hf⟩

theorem Moment.stored_start (program : Program κ σ Outcome) (p : Page κ σ) :
    (start program p : Moment κ σ).Stored := .of_not_announces id

/-- Every run is gone through moment by moment.  A model that is installed at one of the moments is at
every later moment told by the writes to it that have begun since, whatever code is called on the way:

* each key has the value that was written last under it, or the one it was installed with, and the
  whole record is the one that the writes leave, so no key is lost;
* the keys that announce their writes are the ones it was installed with;
* it has published one event for each write to such a key, in order and with the value written, apart
  from the last one if that is about to be published;
* an event about to be published has its value under its key already, and still when the first
  listener is called. -/
theorem model_follows_history (callbacks : Callbacks κ σ) (program : Program κ σ Outcome)
    (p : Page κ σ) :
    (∀ frames outcome q, program.run (Engine.ofFrames callbacks frames) p = some (outcome, q) →
      ∃ k, (Moment.start program p).after callbacks k = ⟨q, .plan (.done outcome), []⟩) ∧
    ∀ i q bus name values,
      let S := (Moment.start program p).after callbacks i
      let m := (Page.addModel bus name values q).1
      S.page = (q.addModel bus name values).2 → S.pending m = [] →
      ∀ k,
        let T := S.after callbacks k
        let writes := writesTo m (S.acts callbacks k)
        ∃ d, T.page.model? m = some d ∧ d.bus = bus ∧ d.name = name ∧
          d.values = writes.foldl (fun r w => r.set w.1 w.2) values ∧
          (∀ key, d.get? key = (lastWrite? key writes).or (values.get? key)) ∧
          (∀ j d', j ≤ k → (S.after callbacks j).page.model? m = some d' →
            ∀ key, d'.contains key = true → d.contains key = true) ∧
          d.observed = values.keys ∧
          announcementsBy m (S.acts callbacks k) ++ T.pending m
            = (writes.filter (·.1 ∈ values.keys)).map (fun w => (bus, changeEvent name w.1, w.2)) ∧
          ∀ event value, (bus, event, value) ∈ T.pending m →
            ∃ key ∈ values.keys, event = changeEvent name key ∧
              ∀ j, (∀ i, 0 < i → i < j → (T.after callbacks i).focus.IsTurn) →
                ∃ d', (T.after callbacks j).page.model? m = some d' ∧ d'.get? key = some value := by
  refine ⟨fun frames outcome q h => after_of_run h, fun i q bus name values => ?_⟩
  intro S m hinstall hrest k T writes
  have hS : S.Within Page.Unwritten := (Moment.within_start program p).after callbacks.unwritten
    (fun p h => Page.callsWithin_unwritten.release p h) i
  have hd : S.page.model? m = some ⟨bus, name, values, values.keys⟩ := by
    rw [hinstall]
    exact q.model?_addModel bus name values
  obtain ⟨hmodel, hpending⟩ := Moment.history_after callbacks hS hd k
  rw [hrest] at hpending
  refine ⟨_, hmodel, rfl, rfl, rfl, Model.get?_rewritten _ _, ?_, rfl, hpending.symm, ?_⟩
  · -- a key that was there at an earlier moment
    intro j d' hj hd' key hkey
    obtain ⟨l, rfl⟩ := Nat.exists_eq_add_of_le hj
    have hSj := hS.after callbacks.unwritten (fun p h => Page.callsWithin_unwritten.release p h) j
    obtain ⟨hlater, -⟩ := Moment.history_after callbacks hSj hd' l
    rw [← Moment.after_add, hmodel] at hlater
    rw [Option.some.inj hlater]
    exact (d'.extends_rewritten _).keys key hkey
  · intro event value hmem
    have hT : T.Stored := ((Moment.stored_start program p).after (Moment.within_start program p) i).after hS k
    unfold Moment.pending at hmem
    split at hmem
    · rename_i n b e v next hf
      split at hmem
      · rename_i hn
        subst hn
        cases List.mem_singleton.mp hmem
        obtain ⟨d, key, hdn, hk, -, he, hv⟩ := hT.stored hf
        obtain rfl : _ = d := Option.some.inj (hmodel.symm.trans hdn)
        refine ⟨key, hk, he, fun j hj => ⟨_, Moment.unwritten_first_turn hf j hj _ _ hdn, hv⟩⟩
      · cases hmem
    · cases hmem

/-- Listeners that write the value delivered to a key of the first model. -/
def relay : Callbacks String Unit where
  onPublish key value := .call (.write ⟨0⟩ key value) .done
  onEvent _ _ := .done (.ok ())

/-- A write to `a` is passed on to `b`, from there to `plain` and back to `a`. -/
def relayed : Program String Unit Outcome :=
  .call (.subscribe ⟨0⟩ "m.a:change" "b") fun _ =>
    .call (.subscribe ⟨0⟩ "m.b:change" "plain") fun _ =>
      .call (.subscribe ⟨0⟩ "m.b:change" "a") fun _ =>
        .call (.write ⟨0⟩ "a" (.int 1)) .done

def relayPage : Page String Unit := (Page.addBus 8 { host := () }).2

def relayStart : Moment String Unit :=
  .start relayed (relayPage.addModel ⟨0⟩ "m" [("a", .null), ("b", .null)]).2

/-- Four writes, each inside the one before, and three announcements, of which the last is refused. -/
theorem relayed_history :
    writesTo ⟨0⟩ (relayStart.acts relay 60)
      = [("a", .int 1), ("b", .int 1), ("plain", .int 1), ("a", .int 1)] ∧
    announcementsBy ⟨0⟩ (relayStart.acts relay 60)
      = [(⟨0⟩, "m.a:change", .int 1), (⟨0⟩, "m.b:change", .int 1), (⟨0⟩, "m.a:change", .int 1)] ∧
    ∃ d, (relayStart.after relay 60).page.model? ⟨0⟩ = some d ∧ d.observed = ["a", "b"] ∧
      d.get? "a" = some (.int 1) ∧ d.get? "plain" = some (.int 1) := by
  have hwrites : writesTo ⟨0⟩ (relayStart.acts relay 60)
      = [("a", .int 1), ("b", .int 1), ("plain", .int 1), ("a", .int 1)] := by rfl
  have hrest : (relayStart.after relay 60).pending ⟨0⟩ = [] := by rfl
  obtain ⟨d, hd, -, -, -, hget, -, hobserved, hannounced, -⟩ :=
    (model_follows_history relay relayed _).2 0 relayPage ⟨0⟩ "m" [("a", .null), ("b", .null)] rfl rfl 60
  change ∀ key, d.get? key = (lastWrite? key (writesTo ⟨0⟩ (relayStart.acts relay 60))).or _ at hget
  change announcementsBy ⟨0⟩ (relayStart.acts relay 60) ++ (relayStart.after relay 60).pending ⟨0⟩
    = List.map _ (List.filter _ (writesTo ⟨0⟩ (relayStart.acts relay 60))) at hannounced
  rw [hwrites, hrest, List.append_nil] at hannounced
  rw [hwrites] at hget
  exact ⟨hwrites, hannounced, d, hd, hobserved, hget "a", hget "plain"⟩

end Bindery
