import Pipework.Graph.Node
import Pipework.Proofs.Basics

/-!
# Reading settings

What is read under a key is what was put there last. The present values of a node, taken
together as settings, are read in the same way as one by one.
-/

namespace Pipework

namespace Settings

/-- An entry that is put in is found under its key, and the others under theirs. -/
theorem lookup_insertEntry (key other : String) (value : Value) (entries : List (String × Value)) :
    (insertEntry key value entries).lookup other =
      if other = key then some value else entries.lookup other := by
  induction entries with
  | nil => rw [insertEntry, lookup_cons_ite, List.lookup_nil]
  | cons entry rest ih =>
    rw [insertEntry]
    split
    · rw [lookup_cons_ite]
    · split
      next hgt =>
        have hne : key ≠ entry.1 := fun h => String.lt_irrefl _ (h ▸ hgt)
        rw [lookup_cons_ite, lookup_cons_ite, ih]
        by_cases h : other = key
        · rw [if_pos h, if_pos h, if_neg (h ▸ hne)]
        · rw [if_neg h, if_neg h]
      next hnlt hngt =>
        have heq : key = entry.1 := String.le_antisymm hngt hnlt
        rw [lookup_cons_ite, lookup_cons_ite, ← heq]
        by_cases h : other = key
        · rw [if_pos h, if_pos h]
        · rw [if_neg h, if_neg h, if_neg h]

/-- What was put in under a key is read there, and all else as before. -/
@[simp]
theorem get?_insert (s : Settings) (key other : String) (value : Value) :
    (s.insert key value).get? other = if other = key then some value else s.get? other :=
  lookup_insertEntry key other value s.entries

@[simp]
theorem get?_empty (key : String) : (∅ : Settings).get? key = none := rfl

/-- Putting in values that a function gives leaves under each key what the function gives there. -/
theorem get?_foldl_insert {f : String → Option Value} {entries : List (String × Value)}
    (h : ∀ entry ∈ entries, f entry.1 = some entry.2) (s : Settings) (key : String) :
    (entries.foldl (fun s entry => s.insert entry.1 entry.2) s).get? key =
      if key ∈ entries.map (·.1) then f key else s.get? key := by
  induction entries generalizing s with
  | nil => simp
  | cons entry rest ih =>
    rw [List.foldl_cons, ih fun e he => h e (List.mem_cons_of_mem _ he), get?_insert]
    simp only [List.map_cons, List.mem_cons]
    by_cases hrest : key ∈ rest.map (·.1)
    · rw [if_pos hrest, if_pos (.inr hrest)]
    · rw [if_neg hrest]
      by_cases hkey : key = entry.1
      · rw [if_pos hkey, if_pos (.inl hkey), hkey, h entry (by simp)]
      · rw [if_neg hkey, if_neg fun hor => hor.elim hkey hrest]

/-- What is read under a key is the entry there. -/
theorem get?_eq_some {s : Settings} {key : String} {value : Value} :
    s.get? key = some value ↔ (key, value) ∈ s.entries := by
  obtain ⟨entries, hsorted⟩ := s
  change entries.lookup key = some value ↔ (key, value) ∈ entries
  induction entries with
  | nil => simp
  | cons entry rest ih =>
    obtain ⟨hfirst, hrest⟩ := List.pairwise_cons.mp hsorted
    rw [lookup_cons_ite, List.mem_cons, Prod.ext_iff]
    by_cases h : key = entry.1
    · have hno : (key, value) ∉ rest := fun hm => String.lt_irrefl _ (h ▸ hfirst _ hm)
      rw [if_pos h, Option.some_inj, or_iff_left hno]
      exact ⟨fun hv => ⟨h, hv.symm⟩, fun hv => hv.2.symm⟩
    · rw [if_neg h, ih hrest, or_iff_right fun hv => h hv.1]

/-- What is laid over settings joins them or takes their place. -/
theorem mem_overlay {s other : Settings} {entry : String × Value}
    (h : entry ∈ (s.overlay other).entries) : entry ∈ other.entries ∨ entry ∈ s.entries := by
  rw [overlay] at h
  generalize other.entries = added at h ⊢
  induction added generalizing s with
  | nil => exact .inr h
  | cons first rest ih =>
    rcases ih h with hrest | hfirst
    · exact .inl (List.mem_cons_of_mem _ hrest)
    · rcases mem_insertEntry hfirst with rfl | hold
      · exact .inl List.mem_cons_self
      · exact .inr hold

end Settings

namespace Node

theorem mem_addKey {keys : List String} {key other : String} :
    other ∈ addKey keys key ↔ other ∈ keys ∨ other = key := by
  rw [addKey]
  split
  next h =>
    refine ⟨.inl, fun ho => ho.elim (fun hm => hm) fun heq => ?_⟩
    rwa [heq]
  next h => simp

/-- Keys that are added one by one are all there. -/
theorem mem_foldl_addKey {more keys : List String} {key : String} :
    key ∈ more.foldl addKey keys ↔ key ∈ keys ∨ key ∈ more := by
  induction more generalizing keys with
  | nil => simp
  | cons first more ih => rw [List.foldl_cons, ih, mem_addKey, List.mem_cons, or_assoc]

/-- What has a value is among the keys. -/
theorem mem_keys_of_configured? {node : Node} {key : String} {value : Value}
    (h : node.configured? key = some value) : key ∈ node.keys := by
  rw [keys, mem_foldl_addKey, List.mem_append]
  have hmem : ∀ {s : Settings} {v : Value}, s.get? key = some v → key ∈ s.keys := fun hs =>
    List.mem_map_of_mem (Settings.get?_eq_some.mp hs)
  rw [configured?] at h
  cases hown : node.overrides.get? key with
  | some own => exact .inr (.inr (hmem hown))
  | none =>
    rw [hown, Option.none_or, Job.declared?] at h
    cases hconf : node.spec.configuration.get? key with
    | some conf => exact .inr (.inl (hmem hconf))
    | none =>
      rw [hconf, Option.none_or] at h
      obtain ⟨parameter, hp, -⟩ := Option.bind_eq_some_iff.mp h
      have hname : parameter.name = key := by simpa using List.find?_some hp
      exact .inl (hname ▸ List.mem_map_of_mem (List.mem_of_find?_eq_some hp))

/-- The present values taken together are those taken one by one. -/
theorem get?_raw (node : Node) (key : String) : node.raw.get? key = node.configured? key := by
  rw [raw, Settings.ofList, Settings.get?_foldl_insert (fun entry he => ?_)]
  · rw [Settings.get?_empty]
    split
    · rfl
    next h =>
      symm
      refine Option.eq_none_iff_forall_ne_some.mpr fun value hvalue => h ?_
      refine List.mem_map.mpr ⟨(key, value), List.mem_filterMap.mpr ⟨key, ?_, ?_⟩, rfl⟩
      · exact mem_keys_of_configured? hvalue
      · rw [hvalue, Option.map_some]
  · obtain ⟨k, -, hk⟩ := List.mem_filterMap.mp he
    obtain ⟨value, hvalue, rfl⟩ := Option.map_eq_some_iff.mp hk
    exact hvalue

/-- A node that was given a value has it, and all others as before. -/
theorem configured?_set (node : Node) (key other : String) (value : Value) :
    (node.set key value).configured? other =
      if other = key then some value else node.configured? other := by
  rw [configured?, set, Settings.get?_insert]
  split
  · rfl
  · rfl

end Node

end Pipework
