import Pipework.Proofs.SubstitutedNodes

/-!
# Edges when a node is multiplied

A node may be multiplied into several new ones. What led to it then leads to some of them, and
all of them lead to what it led to. They may also wait for each other, each for the one before.
This makes no circle, and other nodes come before each other and before or behind the new ones
just as they did with the node that was multiplied.
-/

namespace Pipework.Graph

/-- How edges lead after a node was multiplied into fresh ones, which may wait for each other. -/
structure Multiplied (id : NodeId) (fresh : List NodeId) (serial : Bool)
    (edges edges' : List Edge) : Prop where
  /-- Other nodes are joined as before. -/
  stay : ∀ u ∉ fresh, ∀ v ∉ fresh, Leads edges' u v ↔ Leads edges u v ∧ u ≠ id ∧ v ≠ id
  /-- What led to the node leads to a fresh one. -/
  inward : ∀ u ∉ fresh, (∃ v ∈ fresh, Leads edges' u v) ↔ Leads edges u id
  /-- What the node led to all fresh ones lead to. -/
  outward : ∀ u ∈ fresh, ∀ v ∉ fresh, Leads edges' u v ↔ Leads edges id v
  /-- Fresh nodes lead at most to the next one. -/
  among : ∀ (i j : Nat) (u v : NodeId), fresh[i]? = some u → fresh[j]? = some v →
    (Leads edges' u v ↔ serial = true ∧ j = i + 1)

/-- The nodes are fresh ones that wait for each other, the second for the first. -/
def Waits (fresh : List NodeId) (serial : Bool) (a b : NodeId) : Prop :=
  serial = true ∧ ∃ i j : Nat, i < j ∧ fresh[i]? = some a ∧ fresh[j]? = some b

variable {id : NodeId} {fresh : List NodeId} {serial : Bool}

theorem Waits.origin_eq {a b : NodeId} (h : Waits fresh serial a b) :
    origin id fresh a = origin id fresh b := by
  obtain ⟨-, i, j, -, hi, hj⟩ := h
  rw [origin_of_mem (List.mem_of_getElem? hi), origin_of_mem (List.mem_of_getElem? hj)]

/-- A fresh node stands at one place only. -/
theorem place_unique (h : fresh.Nodup) {i j : Nat} {a : NodeId} (hi : fresh[i]? = some a)
    (hj : fresh[j]? = some a) : i = j :=
  (List.getElem?_inj (List.getElem?_eq_some_iff.mp hi).1 h).mp (hi.trans hj.symm)

theorem waits_iff (h : fresh.Nodup) {i j : Nat} {a b : NodeId} (hi : fresh[i]? = some a)
    (hj : fresh[j]? = some b) : Waits fresh serial a b ↔ serial = true ∧ i < j := by
  constructor
  · rintro ⟨hserial, k, l, hkl, hk, hl⟩
    exact ⟨hserial, place_unique h hi hk ▸ place_unique h hj hl ▸ hkl⟩
  · rintro ⟨hserial, hij⟩
    exact ⟨hserial, i, j, hij, hi, hj⟩

theorem Waits.trans (hn : fresh.Nodup) {a b c : NodeId} (h : Waits fresh serial a b)
    (h' : Waits fresh serial b c) : Waits fresh serial a c := by
  obtain ⟨hserial, i, j, hij, hi, hj⟩ := h
  obtain ⟨-, k, l, hkl, hk, hl⟩ := h'
  exact ⟨hserial, i, l, hij.trans (place_unique hn hj hk ▸ hkl), hi, hl⟩

theorem Waits.irrefl (hn : fresh.Nodup) (a : NodeId) : ¬ Waits fresh serial a a := by
  rintro ⟨-, i, j, hij, hi, hj⟩
  exact hij.ne (place_unique hn hi hj)

namespace Multiplied

variable {edges edges' : List Edge} (h : Multiplied id fresh serial edges edges')

section Forth

variable (ha : Acyclic edges) (hnew : ∀ u v, Leads edges u v → u ∉ fresh ∧ v ∉ fresh)

include h ha hnew

/-- Each node that stands for the start of an edge leads to one that stands for its end. -/
theorem exists_leads {u v a : NodeId} (hl : Leads edges u v) (hu : a ∈ heirs id fresh u) :
    ∃ b ∈ heirs id fresh v, Leads edges' a b := by
  obtain ⟨hunew, hvnew⟩ := hnew u v hl
  by_cases huid : u = id
  · subst huid
    have hv : v ≠ u := fun heq => ha u (.single (heq ▸ hl))
    rw [heirs_self] at hu
    rw [heirs_of_ne hv]
    exact ⟨v, by simp, (h.outward a hu v hvnew).mpr hl⟩
  · rw [heirs_of_ne huid, List.mem_singleton] at hu
    subst hu
    by_cases hvid : v = id
    · subst hvid
      rw [heirs_self]
      exact (h.inward a hunew).mpr hl
    · rw [heirs_of_ne hvid]
      exact ⟨v, by simp, (h.stay a hunew v hvnew).mpr ⟨hl, huid, hvid⟩⟩

/-- Each node that stands for the start of a path comes before one that stands for its end. -/
theorem exists_reaches {u v a : NodeId} (hr : Reaches edges u v) (hu : a ∈ heirs id fresh u) :
    ∃ b ∈ heirs id fresh v, Reaches edges' a b := by
  induction hr with
  | single hl =>
    obtain ⟨b, hb, hl'⟩ := h.exists_leads ha hnew hl hu
    exact ⟨b, hb, .single hl'⟩
  | tail _ hl ih =>
    obtain ⟨b, hb, hr'⟩ := ih
    obtain ⟨c, hc, hl'⟩ := h.exists_leads ha hnew hl hb
    exact ⟨c, hc, hr'.tail hl'⟩

end Forth

section Back

include h

/-- An edge comes from one between the origins of its ends, or from fresh nodes that wait for
each other. -/
theorem leads_origin {a b : NodeId} (hl : Leads edges' a b) :
    Leads edges (origin id fresh a) (origin id fresh b) ∨ Waits fresh serial a b := by
  by_cases ha : a ∈ fresh <;> by_cases hb : b ∈ fresh
  · obtain ⟨i, hi⟩ := List.mem_iff_getElem?.mp ha
    obtain ⟨j, hj⟩ := List.mem_iff_getElem?.mp hb
    obtain ⟨hserial, rfl⟩ := (h.among i j a b hi hj).mp hl
    exact .inr ⟨hserial, i, i + 1, Nat.lt_succ_self i, hi, hj⟩
  · rw [origin_of_mem ha, origin_of_not_mem hb]
    exact .inl ((h.outward a ha b hb).mp hl)
  · rw [origin_of_not_mem ha, origin_of_mem hb]
    exact .inl ((h.inward a ha).mp ⟨b, hb, hl⟩)
  · rw [origin_of_not_mem ha, origin_of_not_mem hb]
    exact .inl ((h.stay a ha b hb).mp hl).1

/-- A path comes from one between the origins of its ends, or from fresh nodes that wait for each
other. -/
theorem reaches_origin (hn : fresh.Nodup) {a b : NodeId} (hr : Reaches edges' a b) :
    Reaches edges (origin id fresh a) (origin id fresh b) ∨ Waits fresh serial a b := by
  induction hr with
  | single hl => exact (h.leads_origin hl).imp_left .single
  | @tail b c _ hl ih =>
    rcases h.leads_origin hl with hl | hbc <;> rcases ih with hr | hab
    · exact .inl (hr.tail hl)
    · exact .inl (.single (hab.origin_eq ▸ hl))
    · exact .inl (hbc.origin_eq ▸ hr)
    · exact .inr (hab.trans hn hbc)

/-- Multiplying a node makes no circle. -/
theorem acyclic (ha : Acyclic edges) (hn : fresh.Nodup) : Acyclic edges' := by
  intro v hr
  rcases h.reaches_origin hn hr with hr | hwaits
  · exact ha _ hr
  · exact Waits.irrefl hn v hwaits

/-- Fresh nodes come before each other in their order if they wait for each other, and not at all
otherwise. -/
theorem reaches_among (ha : Acyclic edges) (hn : fresh.Nodup) {i j : Nat} {a b : NodeId}
    (hi : fresh[i]? = some a) (hj : fresh[j]? = some b) :
    Reaches edges' a b ↔ serial = true ∧ i < j := by
  constructor
  · intro hr
    rcases h.reaches_origin hn hr with hr | hwaits
    · rw [origin_of_mem (List.mem_of_getElem? hi), origin_of_mem (List.mem_of_getElem? hj)] at hr
      exact absurd hr (ha id)
    · exact (waits_iff hn hi hj).mp hwaits
  · rintro ⟨hserial, hij⟩
    induction hij generalizing b with
    | refl => exact .single ((h.among i (i + 1) a b hi hj).mpr ⟨hserial, rfl⟩)
    | @step m _ ih =>
      have hlt : m < fresh.length :=
        (Nat.lt_succ_self m).trans (List.getElem?_eq_some_iff.mp hj).1
      have hmid : fresh[m]? = some fresh[m] := List.getElem?_eq_getElem hlt
      exact (ih hmid).tail ((h.among m (m + 1) _ b hmid hj).mpr ⟨hserial, rfl⟩)

end Back

variable (ha : Acyclic edges) (hnew : ∀ u v, Leads edges u v → u ∉ fresh ∧ v ∉ fresh)
  (hn : fresh.Nodup) (hsome : fresh ≠ [])

include h ha hnew hn hsome

/-- Of two different nodes one comes before the other just if a node that stands for it comes
before one that stands for the other. -/
theorem reaches_iff {u v : NodeId} (hu : u ∉ fresh) (hv : v ∉ fresh) (hne : u ≠ v) :
    Reaches edges u v ↔
      ∃ a ∈ heirs id fresh u, ∃ b ∈ heirs id fresh v, Reaches edges' a b := by
  constructor
  · intro hr
    obtain ⟨a, hheir⟩ := List.exists_mem_of_ne_nil _ (heirs_ne_nil hsome u)
    exact ⟨a, hheir, h.exists_reaches ha hnew hr hheir⟩
  · rintro ⟨a, hau, b, hbv, hr⟩
    have horigin := h.reaches_origin hn hr
    rw [origin_of_mem_heirs hu hau, origin_of_mem_heirs hv hbv] at horigin
    refine horigin.resolve_right fun hwaits => hne ?_
    rw [← origin_of_mem_heirs hu hau, ← origin_of_mem_heirs hv hbv]
    exact hwaits.origin_eq

/-- Nodes that were there before come before each other as they did, save the one that is gone. -/
theorem reaches_others {u v : NodeId} (hu : u ∉ fresh) (huid : u ≠ id) (hv : v ∉ fresh)
    (hvid : v ≠ id) : Reaches edges' u v ↔ Reaches edges u v := by
  by_cases hne : u = v
  · subst hne
    exact iff_of_false (h.acyclic ha hn u) (ha u)
  · rw [h.reaches_iff ha hnew hn hsome hu hv hne, heirs_of_ne huid, heirs_of_ne hvid]
    simp

end Multiplied

end Pipework.Graph
