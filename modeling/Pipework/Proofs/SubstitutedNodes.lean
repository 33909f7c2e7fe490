import Pipework.Proofs.Reachability

/-!
# Edges when a node gives way to others

A node may give way to several new ones with edges of their own between them. What led to it
then leads to those of them that nothing among them leads to, and in the same way at the other
end. This makes no circle. A path that goes through no node that is still to give way goes on
to be one, also when it starts or ends at the node in question.
-/

namespace Pipework.Graph

/-- How edges lead after a node has given way to fresh ones with the edges `between` them. -/
def Substituted (id : NodeId) (fresh : List NodeId) (between edges edges' : List Edge) : Prop :=
  ∀ u v, Leads edges' u v ↔
    (Leads edges u v ∧ u ≠ id ∧ v ≠ id) ∨ Leads between u v ∨
      (Leads edges u id ∧ u ≠ id ∧ v ∈ fresh ∧ ∀ w, ¬ Leads between w v) ∨
      (Leads edges id v ∧ v ≠ id ∧ u ∈ fresh ∧ ∀ w, ¬ Leads between u w)

section Standing

variable (id : NodeId) (fresh : List NodeId)

/-- The nodes that stand for a node after one has given way. -/
def heirs (v : NodeId) : List NodeId := if v = id then fresh else [v]

/-- The node that a node stands for after one has given way. -/
def origin (v : NodeId) : NodeId := if v ∈ fresh then id else v

end Standing

variable {id : NodeId} {fresh : List NodeId}

@[simp]
theorem heirs_self : heirs id fresh id = fresh := if_pos rfl

theorem heirs_of_ne {v : NodeId} (h : v ≠ id) : heirs id fresh v = [v] := if_neg h

/-- Each node has an heir if the node that gives way has one. -/
theorem heirs_ne_nil (h : fresh ≠ []) (v : NodeId) : heirs id fresh v ≠ [] := by
  rw [heirs]
  split
  · exact h
  · exact List.cons_ne_nil v []

/-- A new node comes from the one that gave way. -/
theorem origin_of_mem {v : NodeId} (h : v ∈ fresh) : origin id fresh v = id := if_pos h

/-- Any other node comes from itself. -/
theorem origin_of_not_mem {v : NodeId} (h : v ∉ fresh) : origin id fresh v = v := if_neg h

/-- What stands for a node has that one as its origin. -/
theorem origin_of_mem_heirs {u a : NodeId} (hu : u ∉ fresh) (ha : a ∈ heirs id fresh u) :
    origin id fresh a = u := by
  by_cases hid : u = id
  · subst hid
    exact origin_of_mem (by simpa using ha)
  · rw [heirs_of_ne hid, List.mem_singleton] at ha
    rw [ha, origin_of_not_mem hu]

variable {between edges edges' : List Edge}

namespace Substituted

variable (h : Substituted id fresh between edges edges') (ha : Acyclic edges)
  (hb : Acyclic between) (hc : Closed fresh between)
  (hnew : ∀ u v, Leads edges u v → u ∉ fresh ∧ v ∉ fresh)

section Back

include h hc hnew

/-- An edge comes from one between the origins of its ends, or is one between fresh nodes. -/
theorem leads_origin {u v : NodeId} (hl : Leads edges' u v) :
    Leads edges (origin id fresh u) (origin id fresh v) ∨
      (origin id fresh u = origin id fresh v ∧ Leads between u v) := by
  rcases (h u v).mp hl with ⟨hl, -, -⟩ | hl | ⟨hl, -, hv, -⟩ | ⟨hl, -, hu, -⟩
  · rw [origin_of_not_mem (hnew u v hl).1, origin_of_not_mem (hnew u v hl).2]
    exact .inl hl
  · obtain ⟨hu, hv⟩ := hl.mem_closed hc
    exact .inr ⟨(origin_of_mem hu).trans (origin_of_mem hv).symm, hl⟩
  · rw [origin_of_not_mem (hnew u id hl).1, origin_of_mem hv]
    exact .inl hl
  · rw [origin_of_mem hu, origin_of_not_mem (hnew id v hl).2]
    exact .inl hl

/-- A path comes from one between the origins of its ends, or is one between fresh nodes. -/
theorem reaches_origin {u v : NodeId} (hr : Reaches edges' u v) :
    Reaches edges (origin id fresh u) (origin id fresh v) ∨
      (origin id fresh u = origin id fresh v ∧ Reaches between u v) := by
  induction hr with
  | single hl =>
    exact (h.leads_origin hc hnew hl).imp .single (And.imp_right .single)
  | @tail v w _ hl ih =>
    rcases h.leads_origin hc hnew hl with hl | ⟨hvw, hl⟩ <;> rcases ih with hr | ⟨huv, hr⟩
    · exact .inl (hr.tail hl)
    · exact .inl (.single (huv ▸ hl))
    · exact .inl (hvw ▸ hr)
    · exact .inr ⟨huv.trans hvw, hr.tail hl⟩

include ha hb

/-- No circle comes about when a node gives way to new ones without a circle among them. -/
theorem acyclic : Acyclic edges' := by
  intro v hr
  rcases h.reaches_origin hc hnew hr with hr | ⟨-, hr⟩
  · exact ha _ hr
  · exact hb _ hr

end Back

end Substituted

/-- A path from one node to another, between which there is none of those that still wait to give
way. -/
inductive Passage (waiting : List NodeId) (edges : List Edge) : NodeId → NodeId → Prop
  | edge {u v : NodeId} (h : Leads edges u v) : Passage waiting edges u v
  | step {u w v : NodeId} (h : Leads edges u w) (hw : w ∉ waiting)
      (hp : Passage waiting edges w v) : Passage waiting edges u v

variable {waiting rest : List NodeId}

/-- A passage is a path. -/
theorem Passage.reaches {u v : NodeId} (h : Passage waiting edges u v) : Reaches edges u v := by
  induction h with
  | edge h => exact .single h
  | step h _ _ ih => exact .head h ih

/-- A passage may go on by one more edge. -/
theorem Passage.tail {u v w : NodeId} (h : Passage waiting edges u v) (hv : v ∉ waiting)
    (hl : Leads edges v w) : Passage waiting edges u w := by
  induction h with
  | edge h => exact .step h hv (.edge hl)
  | step h hw _ ih => exact .step h hw (ih hv hl)

/-- A passage goes on along a path of nodes none of which waits. -/
theorem Passage.append {u v w : NodeId} (h : Passage waiting edges u v)
    (hp : Relation.ReflTransGen (fun a b => Leads edges a b ∧ a ∉ waiting) v w) :
    Passage waiting edges u w := by
  induction hp with
  | refl => exact h
  | tail _ hl ih => exact ih.tail hl.2 hl.1

/-- A passage starts earlier along a path of nodes none of which waits. -/
theorem Passage.prepend {u v w : NodeId} (h : Passage waiting edges v w)
    (hp : Relation.ReflTransGen (fun a b => Leads edges a b ∧ b ∉ waiting) u v) :
    Passage waiting edges u w := by
  induction hp using Relation.ReflTransGen.head_induction_on with
  | refl => exact h
  | head hl _ ih => exact .step hl.1 hl.2 ih

section Giving

variable (hs : Substituted id fresh between edges edges') (hid : id ∈ waiting)
  (hrest : rest ⊆ waiting)

include hs hid hrest in
/-- A passage between two other nodes stays when a node gives way. -/
theorem Passage.substituted {u v : NodeId} (h : Passage waiting edges u v) (hu : u ≠ id)
    (hv : v ≠ id) : Passage rest edges' u v := by
  induction h with
  | @edge u v hl => exact .edge ((hs u v).mpr (.inl ⟨hl, hu, hv⟩))
  | @step u w v hl hw _ ih =>
    have hne : w ≠ id := fun heq => hw (heq ▸ hid)
    exact .step ((hs u w).mpr (.inl ⟨hl, hu, hne⟩)) (fun hm => hw (hrest hm)) (ih hne hv)

variable (hb : Acyclic between) (hc : Closed fresh between) (hnew : ∀ v ∈ fresh, v ∉ rest)

include hs hid hrest hb hc hnew in
/-- A passage to a node that gives way leads to each of those that take its place. -/
theorem Passage.into {u : NodeId} (h : Passage waiting edges u id) (hu : u ≠ id) {v : NodeId}
    (hv : v ∈ fresh) : Passage rest edges' u v := by
  obtain ⟨entry, hentry, hpath, hfirst⟩ := hb.exists_entry hc hv
  have hinside : Relation.ReflTransGen (fun a b => Leads edges' a b ∧ a ∉ rest) entry v := by
    refine Relation.ReflTransGen.mono (fun a b hl => ⟨(hs a b).mpr (.inr (.inl hl)), ?_⟩) _ _ hpath
    obtain ⟨edge, he, rfl, rfl⟩ := hl
    exact hnew _ (hc edge he).1
  generalize hw : id = w at h
  induction h with
  | @edge u w hl =>
    subst hw
    exact .append (.edge ((hs u entry).mpr (.inr (.inr (.inl ⟨hl, hu, hentry, hfirst⟩))))) hinside
  | @step u x w hl hx _ ih =>
    have hne : x ≠ id := fun heq => hx (heq ▸ hid)
    exact .step ((hs u x).mpr (.inl ⟨hl, hu, hne⟩)) (fun hm => hx (hrest hm)) (ih hne hw)

include hs hid hrest hb hc hnew in
/-- A passage from a node that gives way leads from each of those that take its place. -/
theorem Passage.outOf {v : NodeId} (h : Passage waiting edges id v) (hv : v ≠ id) {u : NodeId}
    (hu : u ∈ fresh) : Passage rest edges' u v := by
  obtain ⟨exit, hexit, hpath, hlast⟩ := hb.exists_exit hc hu
  have hinside : Relation.ReflTransGen (fun a b => Leads edges' a b ∧ b ∉ rest) u exit := by
    refine Relation.ReflTransGen.mono (fun a b hl => ⟨(hs a b).mpr (.inr (.inl hl)), ?_⟩) _ _ hpath
    obtain ⟨edge, he, rfl, rfl⟩ := hl
    exact hnew _ (hc edge he).2
  have hout : ∀ w, Leads edges id w → w ≠ id → Leads edges' exit w := fun w hl hw =>
    (hs exit w).mpr (.inr (.inr (.inr ⟨hl, hw, hexit, hlast⟩)))
  cases h with
  | edge hl => exact .prepend (.edge (hout v hl hv)) hinside
  | @step _ w _ hl hw hp =>
    have hne : w ≠ id := fun heq => hw (heq ▸ hid)
    refine .prepend (.step (hout w hl hne) (fun hm => hw (hrest hm)) ?_) hinside
    exact hp.substituted hs hid hrest hne hv

end Giving

end Pipework.Graph
