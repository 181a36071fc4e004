import Bindery.Markup.Attributes

/-!
# Names of attributes that were set

An attribute list made by `set` has each name once, in lower case.

* `Attributes.Sound`               each name once, in lower case
* `Attributes.sound_ofList`        a list set one after the other
* `Attributes.find?_eq_some_iff`   looking up a name that stands there once
-/

namespace Bindery

namespace Attributes

/-- Each name once, in lower case. -/
structure Sound (a : Attributes) : Prop where
  nodup : a.names.Nodup
  lower : ∀ n ∈ a.names, Text.lower n = n

theorem mem_put {name value n : String} {l : List (String × String)}
    (h : n ∈ (put name value l).map Prod.fst) : n = name ∨ n ∈ l.map Prod.fst := by
  induction l with
  | nil => exact Or.inl (List.mem_singleton.mp h)
  | cons e r ih =>
    obtain ⟨m, v⟩ := e
    unfold put at h
    split at h
    · exact Or.inr h
    · rw [List.map_cons, List.mem_cons] at h
      rcases h with h | h
      · exact Or.inr (List.mem_cons.mpr (Or.inl h))
      · exact (ih h).imp_right (List.mem_cons_of_mem _)

theorem nodup_put (name value : String) {l : List (String × String)} (h : (l.map Prod.fst).Nodup) :
    ((put name value l).map Prod.fst).Nodup := by
  induction l with
  | nil => exact List.nodup_cons.mpr ⟨List.not_mem_nil, List.nodup_nil⟩
  | cons e r ih =>
    obtain ⟨m, v⟩ := e
    rw [List.map_cons, List.nodup_cons] at h
    unfold put
    by_cases hm : m = name
    · rw [if_pos hm]
      exact List.nodup_cons.mpr h
    · rw [if_neg hm, List.map_cons, List.nodup_cons]
      refine ⟨fun hin => ?_, ih h.2⟩
      rcases mem_put hin with he | hr
      · exact hm he
      · exact h.1 hr

theorem sound_set {a : Attributes} (h : a.Sound) (name value : String) : (a.set name value).Sound where
  nodup := nodup_put _ _ h.nodup
  lower n hn := by
    rcases mem_put hn with rfl | hn
    · exact Text.lower_lower name
    · exact h.lower n hn

theorem sound_ofList (pairs : List (String × String)) : (ofList pairs).Sound := by
  have hall : ∀ a : Attributes, a.Sound → (pairs.foldl (fun a e => a.set e.1 e.2) a).Sound := by
    induction pairs with
    | nil => exact fun _ h => h
    | cons e r ih => exact fun a h => ih _ (sound_set h e.1 e.2)
  exact hall empty ⟨List.nodup_nil, fun n h => absurd h List.not_mem_nil⟩

theorem find?_eq_some_iff {l : List (String × String)} (hn : (l.map Prod.fst).Nodup)
    {name value : String} : find? name l = some value ↔ (name, value) ∈ l := by
  induction l with
  | nil => exact ⟨nofun, nofun⟩
  | cons x r ih =>
    obtain ⟨n, v⟩ := x
    rw [List.map_cons, List.nodup_cons] at hn
    unfold find?
    by_cases hname : n = name
    · subst hname
      rw [if_pos rfl, Option.some.injEq, List.mem_cons, Prod.mk.injEq]
      refine ⟨fun h => Or.inl ⟨rfl, h.symm⟩, fun h => ?_⟩
      rcases h with h | h
      · exact h.2.symm
      · exact absurd (List.mem_map.mpr ⟨_, h, rfl⟩) hn.1
    · rw [if_neg hname, ih hn.2, List.mem_cons, Prod.mk.injEq]
      exact ⟨Or.inr, fun h => h.resolve_left fun he => hname he.1.symm⟩

/-- The names differ in more than their letter case. -/
theorem Sound.nodup_lower {a : Attributes} (h : a.Sound) :
    (a.entries.map fun x => Text.lower x.1).Nodup := by
  have he : (a.entries.map fun x => Text.lower x.1) = a.names := by
    unfold names
    rw [List.map_inj_left]
    intro x hx
    exact h.lower x.1 (List.mem_map.mpr ⟨x, hx, rfl⟩)
  rw [he]
  exact h.nodup

end Attributes

end Bindery
