import Pipework.Proofs.NoListLeft
import Pipework.Proofs.Laying
import Pipework.Proofs.Suffix
import Pipework.Proofs.Twins

/-!
# Repetitions stand in line

A node that is repeated because the nodes that it is fed by were repeated takes from each of these
jobs one edge for each repetition, in their order. So the repetition at a place of one job hands on
its values to the repetition at the same place of another, and both jobs have as many repetitions.
This goes on along any way through the graph, as an output of a job with repetitions feeds a
parameter either from all of them, in their order, or not at all.
-/

namespace Pipework

open Step

/-- The node is the repetition of its job at this place. -/
def Node.IsRepetition (node : Node) (place : Nat) : Prop :=
  node.isReplica ∧ ∃ serial, Graph.isSerial node = .ok serial ∧
    node.name = node.spec.id ++ "_" ++ Graph.replicaSuffix serial place

instance (node : Node) (place : Nat) : Decidable (node.IsRepetition place) :=
  match hs : Graph.isSerial node with
  | .error _ => isFalse fun ⟨_, serial, hserial, _⟩ => by
    rw [hs] at hserial
    cases hserial
  | .ok serial => decidable_of_iff
      (node.isReplica ∧ node.name = node.spec.id ++ "_" ++ Graph.replicaSuffix serial place)
      ⟨fun h => ⟨h.1, serial, hs, h.2⟩, fun ⟨hreplica, other, hother, hname⟩ => by
        rw [hs] at hother
        obtain rfl := Except.ok.inj hother
        exact ⟨hreplica, hname⟩⟩

namespace Graph

/-- The repetitions of a job, in order. -/
def repetitionsOf (graph : Graph) (job : String) : List Node :=
  (graph.nodesOf job).filter (·.isReplica)

/-- Two nodes stand at the same place among those of their jobs, which are as many. -/
def Abreast (graph : Graph) (job job' : String) (source target : NodeId) : Prop :=
  ∃ place : Nat, (graph.idsOf job)[place]? = some source ∧
    (graph.idsOf job')[place]? = some target ∧
    (graph.idsOf job').length = (graph.idsOf job).length

/-! ### Handles of the nodes of a job -/

/-- The handles of a job do not depend on values. -/
theorem idsOf_outline (nodes : List Node) (job : String) :
    ((nodes.map Node.outline).filter (·.spec.id == job)).map (·.id) =
      (nodes.filter (·.spec.id == job)).map (·.id) := by
  rw [List.filter_map, List.map_map]
  rfl

/-- The handles of a job stay where nodes are kept. -/
theorem Retains.idsOf {g g' : Graph} (h : Retains g g') (job : String) :
    g'.idsOf job = g.idsOf job := by
  rw [Graph.idsOf, nodesOf, ← idsOf_outline, h.nodes, idsOf_outline, Graph.idsOf, nodesOf]

section Handles

variable {g g' : Graph} {node : Node} {drivers : Drivers} {serial : Bool} {added : List Node}
  {parts : List (List Edge)} (h : Replicated node drivers serial added parts g g')
  (hw : g.WellFormed) (hn : node ∈ g.nodes)

include h

/-- When a node is repeated, the handles of its job are those of the other nodes and those of the
repetitions. -/
theorem Replicated.idsOf (job : String) : g'.idsOf job =
    (g.idsOf job).filter (· ≠ node.id) ++ if node.spec.id = job then added.map (·.id) else [] := by
  have hadded : (added.filter (·.spec.id == job)).map (·.id) =
      if node.spec.id = job then added.map (·.id) else [] := by
    split
    next heq =>
      rw [List.filter_eq_self.mpr fun replica hreplica => by simp [h.specs replica hreplica, heq]]
    next hne =>
      rw [List.filter_eq_nil_iff.mpr fun replica hreplica => by simp [h.specs replica hreplica, hne],
        List.map_nil]
  rw [Graph.idsOf, nodesOf, ← idsOf_outline, h.nodes, idsOf_outline, List.filter_append,
    List.map_append, hadded, List.filter_comm, Graph.idsOf, nodesOf, List.filter_map]
  rfl

include hw hn

/-- When a node is repeated, the handles of other jobs stay. -/
theorem Replicated.idsOf_of_ne {job : String} (hne : node.spec.id ≠ job) :
    g'.idsOf job = g.idsOf job := by
  rw [h.idsOf, if_neg hne, List.append_nil]
  refine List.filter_eq_self.mpr fun id hid => decide_eq_true ?_
  rintro rfl
  exact hne ((mem_idsOf_iff hw hn).mp hid)

omit hw hn in
/-- When the only node of a job is repeated, the handles of the job are those of the repetitions. -/
theorem Replicated.idsOf_self (hone : g.idsOf node.spec.id = [node.id]) :
    g'.idsOf node.spec.id = added.map (·.id) := by
  rw [h.idsOf, hone, if_pos rfl, List.filter_cons_of_neg (by simp), List.filter_nil,
    List.nil_append]

end Handles

/-! ### The turns of nodes -/

/-- A graph while nodes are repeated: an output of a job feeds a parameter of a node whose turn is
still to come from all nodes of the job, in their order, or from none, and repetitions that feed
nodes that had their turns are abreast of them. -/
structure Aligned (waiting : List NodeId) (g : Graph) : Prop where
  /-- Handles fit together, and no edge leads back to where it starts. -/
  sturdy : g.Sturdy
  /-- These nodes stand in an order. -/
  queued : Queued waiting g
  /-- A node whose turn is still to come is the only one of its job. -/
  single : ∀ node ∈ g.nodes, node.id ∈ waiting → g.idsOf node.spec.id = [node.id]
  /-- It is fed by all nodes of a job, in order, or by none. -/
  strands : ∀ id ∈ waiting, ∀ property origin output,
    (g.strand id property origin output).map (·.source) = [] ∨
      (g.strand id property origin output).map (·.source) = g.idsOf origin
  /-- Where repetitions hand on values to nodes of another job that had their turns, the nodes stand at
  the same place. -/
  abreast : ∀ edge ∈ g.edges, edge.target ∉ waiting → edge.IsUndivided → ∀ job job', job ≠ job' →
    edge.source ∈ g.idsOf job → edge.target ∈ g.idsOf job' → 1 < (g.idsOf job).length →
      g.Abreast job job' edge.source edge.target

section Turn

variable {id : NodeId} {waiting : List NodeId} {g : Graph} (h : Aligned (id :: waiting) g)

include h

/-- What feeds a node whose turn it is along an undivided edge feeds it from all nodes of its job. -/
theorem Aligned.strand_of_edge {edge : Edge} (he : edge ∈ g.edges) (hs : edge.IsSingle)
    (htarget : edge.target = id) {job : String} (hsource : edge.source ∈ g.idsOf job) :
    ∃ property output, g.joins id property job output edge = true ∧
      (g.strand id property job output).map (·.source) = g.idsOf job := by
  obtain ⟨property, output, hjoins⟩ := exists_joins hs hsource
  rw [htarget] at hjoins
  refine ⟨property, output, hjoins, ?_⟩
  refine (h.strands id List.mem_cons_self property job output).resolve_left fun hnone => ?_
  have hmem : edge ∈ g.strand id property job output := List.mem_filter.mpr ⟨he, hjoins⟩
  rw [List.map_eq_nil_iff.mp hnone] at hmem
  cases hmem

/-- If nothing brings several values, the turn leaves what it is about. -/
theorem Aligned.of_retains {g' : Graph} (hr : Retains g g') (hinto : SameInto id g g')
    (hkept : UndividedKept g.edges g'.edges)
    (hshort : ∀ property origin output, (g.strand id property origin output).length ≤ 1) :
    Aligned waiting g' where
  sturdy := hr.enlarges.sturdy h.sturdy
  queued := h.queued.of_retains hr
  single node hn hid := by
    obtain ⟨old, hold, heq, hspec⟩ := hr.exists_node hn
    rw [hr.idsOf, ← hspec, ← heq]
    exact h.single old hold (List.mem_cons_of_mem _ (heq ▸ hid))
  strands other hother property origin output := by
    have hne : other ≠ id := fun heq => h.queued.ordered.1 (heq ▸ hother)
    have hsame : g'.strand other property origin output = g.strand other property origin output := by
      rw [strand_eq, strand_eq, hinto other hne property, hr.idsOf]
    rw [hsame, hr.idsOf]
    exact h.strands other (List.mem_cons_of_mem _ hother) property origin output
  abreast edge he hno hu job job' hne hsource htarget hlong := by
    have hold := hkept edge he hu
    rw [hr.idsOf] at hsource htarget hlong
    by_cases heq : edge.target = id
    · obtain ⟨property, output, -, hall⟩ := h.strand_of_edge hold hu.isSingle heq hsource
      have hlength := congrArg List.length hall
      rw [List.length_map] at hlength
      exact absurd (hshort property job output) (by omega)
    · have hwait : edge.target ∉ id :: waiting := fun hmem =>
        (List.mem_cons.mp hmem).elim heq hno
      have habreast := h.abreast edge hold hwait hu job job' hne hsource htarget hlong
      rwa [Abreast, hr.idsOf, hr.idsOf]

end Turn

section Renewing

variable {id : NodeId} {sources replicas ids : List NodeId}

/-- What is left of some handles when only one is kept is that one, as often as it was there. -/
theorem filter_contains_singleton :
    sources.filter [id].contains = List.replicate (sources.count id) id := by
  rw [← List.filter_beq]
  refine List.filter_congr fun other _ => ?_
  rw [List.contains_cons, List.contains_nil, Bool.or_false]

/-- Those that a handle was replaced with are as many for each as it occurred. -/
theorem filter_renewed_self (h : ∀ source ∈ sources, source ∉ replicas) :
    (sources.filter (· ≠ id) ++ replicas.flatMap (List.replicate (sources.count id))).filter
      replicas.contains = replicas.flatMap (List.replicate (sources.count id)) := by
  have hnone : (sources.filter (· ≠ id)).filter replicas.contains = [] :=
    List.filter_eq_nil_iff.mpr fun source hs hmem =>
      h source (List.mem_of_mem_filter hs) (List.contains_iff_mem.mp hmem)
  rw [List.filter_append, hnone, List.nil_append]
  refine List.filter_eq_self.mpr fun source hs => ?_
  obtain ⟨replica, hreplica, hs⟩ := List.mem_flatMap.mp hs
  rw [List.eq_of_mem_replicate hs]
  exact List.contains_iff_mem.mpr hreplica

/-- Other handles stay. -/
theorem filter_renewed_other (hid : id ∉ ids) (h : ∀ replica ∈ replicas, replica ∉ ids) :
    (sources.filter (· ≠ id) ++ replicas.flatMap (List.replicate (sources.count id))).filter
      ids.contains = sources.filter ids.contains := by
  have hnone : (replicas.flatMap (List.replicate (sources.count id))).filter ids.contains = [] := by
    refine List.filter_eq_nil_iff.mpr fun source hs hmem => ?_
    obtain ⟨replica, hreplica, hs⟩ := List.mem_flatMap.mp hs
    rw [List.eq_of_mem_replicate hs] at hmem
    exact h replica hreplica (List.contains_iff_mem.mp hmem)
  rw [List.filter_append, hnone, List.append_nil, List.filter_filter]
  refine List.filter_congr fun source _ => Bool.and_eq_left_iff_imp.mpr fun hmem => ?_
  exact decide_eq_true fun heq => hid (heq ▸ List.contains_iff_mem.mp hmem)

end Renewing

section Replacing

variable {waiting : List NodeId} {g t g' : Graph} {node : Node} {plan : Drivers}
  {replicas : List NodeId} (h : Aligned (node.id :: waiting) g)
  (hf : drivers node.id g = .ok plan t) (hrelaid : Relaid node plan replicas t g')
  (hfresh : ∀ replica ∈ replicas, g.nextId ≤ replica) (hself : g'.idsOf node.spec.id = replicas)
  (hothers : ∀ job, node.spec.id ≠ job → g'.idsOf job = g.idsOf job)

include h in
/-- A node that is still to have its turn is the only one of its job. -/
theorem Aligned.single_self (hn : node ∈ g.nodes) : g.idsOf node.spec.id = [node.id] :=
  h.single node hn List.mem_cons_self

include hfresh hself hothers

/-- A node that was there before belongs to another job, as it did. -/
theorem idsOf_of_old {id : NodeId} {job : String} (hlt : id < g.nextId) (hid : id ∈ g'.idsOf job) :
    node.spec.id ≠ job ∧ id ∈ g.idsOf job := by
  by_cases heq : node.spec.id = job
  · rw [← heq, hself] at hid
    exact absurd hlt (Nat.not_lt.mpr (hfresh id hid))
  · exact ⟨heq, hothers job heq ▸ hid⟩

include h hf

include hrelaid in
/-- A parameter of a node whose turn is still to come is fed by all repetitions if it was fed by the
node that they stand for, and by the other nodes as before. -/
theorem Aligned.strands_replaced (hn : node ∈ g.nodes) {other : NodeId} (hother : other ∈ waiting)
    (property origin output : String) :
    (g'.strand other property origin output).map (·.source) = [] ∨
      (g'.strand other property origin output).map (·.source) = g'.idsOf origin := by
  have hne : other ≠ node.id := fun heq => h.queued.ordered.1 (heq ▸ hother)
  have hlt := h.queued.below other (List.mem_cons_of_mem _ hother)
  have hnew : other ∉ replicas := fun hmem => absurd hlt (Nat.not_lt.mpr (hfresh other hmem))
  have hbefore := h.strands other (List.mem_cons_of_mem _ hother) property origin output
  have hsame : t.feeders other property output = g.feeders other property output := by
    rw [feeders, sameInto_drivers hf other hne property, feeders]
  have hold : ∀ id ∈ g.feeders other property output, id < g.nextId := by
    intro id hid
    obtain ⟨edge, he, rfl⟩ := List.mem_map.mp hid
    exact (h.sturdy.wellFormed.lt_nextId
      (List.mem_of_mem_filter (List.mem_of_mem_filter he))).1
  rw [sources_strand] at hbefore ⊢
  rw [hrelaid.feeders other hne hnew property output, hsame]
  by_cases heq : node.spec.id = origin
  · rw [← heq, h.single_self hn, filter_contains_singleton] at hbefore
    rw [← heq, hself, filter_renewed_self fun id hid hmem =>
      absurd (hold id hid) (Nat.not_lt.mpr (hfresh id hmem))]
    rcases hbefore with hnone | hone
    · rw [List.replicate_eq_nil_iff _ |>.mp hnone]
      exact .inl (List.flatMap_eq_nil_iff.mpr fun _ _ => rfl)
    · have hlength := congrArg List.length hone
      rw [List.length_replicate, List.length_singleton] at hlength
      rw [hlength]
      exact .inr (List.flatMap_singleton' replicas)
  · have hfree : node.id ∉ g.idsOf origin := fun hmem =>
      heq ((mem_idsOf_iff h.sturdy.wellFormed hn).mp hmem)
    rw [hothers origin heq, filter_renewed_other hfree fun replica hreplica hmem => ?_]
    · exact hbefore
    obtain ⟨old, hin, -, rfl⟩ := mem_idsOf.mp hmem
    exact absurd (h.sturdy.wellFormed.below _ (List.mem_map_of_mem hin))
      (Nat.not_lt.mpr (hfresh _ hreplica))

/-- An edge to a repetition comes from the repetition of another job that stands at the same place. -/
theorem Aligned.abreast_of_inward (hw : g'.WellFormed)
    (hcount : ∀ entry ∈ plan.sizes, entry.2 = replicas.length) {place : Nat} {replica : NodeId}
    (hreplica : replicas[place]? = some replica) {inward outward : List Edge}
    (hl : Laid t.edges plan (t.incoming node.id) (t.outgoing node.id) place
      (previousOf none replicas place) replica inward outward)
    {edge : Edge} (he : edge ∈ inward) (hu : edge.IsUndivided) {job : String}
    (hne : job ≠ node.spec.id) (hsource : edge.source ∈ g'.idsOf job)
    (hlong : 1 < (g'.idsOf job).length) :
    g'.Abreast job node.spec.id edge.source edge.target := by
  obtain ⟨-, hsingles, hstrands, hseveral⟩ := strands_of_drivers h.sturdy.wellFormed hf
  rw [hl.ends edge he]
  -- What an edge was before it was moved to the repetition.
  have hmoved : ∀ {old : Edge} {other : Nat}, t.edges[other]? = some old →
      edge = { old with target := replica } → g.edges[other]? = some old ∧ old.IsSingle ∧
        edge.source = old.source ∧ old.source ∈ g.idsOf job := by
    rintro old other hold rfl
    have hs : old.IsSingle := hu.isSingle
    have hat := (hsingles other old hs).mp hold
    have hlt := (h.sturdy.wellFormed.lt_nextId (List.mem_of_getElem? hat)).1
    exact ⟨hat, hs, rfl, (idsOf_of_old hfresh hself hothers hlt hsource).2⟩
  rw [hothers job hne.symm] at hlong
  rcases hl.origins edge he hu with ⟨strand, hstrand, other, old, hother, hold, heq⟩ |
    ⟨other, hother, hfree, old, hold, heq⟩ | hprevious
  · obtain ⟨hat, -, hsame, hin⟩ := hmoved hold heq
    have hlength := hcount _ (mem_sizes_of_strand hstrand)
    rw [hstrands strand hstrand] at hother hlength
    rw [getElem?_placesWhere hother] at hat
    obtain ⟨-, horigin, -⟩ := joins_iff.mp (List.mem_filter.mp (List.mem_of_getElem? hat)).2
    obtain rfl := idsOf_eq_of_mem h.sturdy.wellFormed hin horigin
    have hall := (h.strands node.id List.mem_cons_self strand.property strand.origin
      strand.sourceProperty).resolve_left fun hnone => by
        rw [← Graph.strand, List.map_eq_nil_iff.mp hnone] at hat
        cases hat
    refine ⟨place, ?_, hself ▸ hreplica, ?_⟩
    · rw [hothers _ hne.symm, ← hall, List.getElem?_map, Graph.strand, hat, hsame]
      rfl
    · rw [hself, hothers _ hne.symm, ← hall, List.length_map, ← hlength, length_placesWhere]
      rfl
  · obtain ⟨hat, hs, -, hin⟩ := hmoved hold heq
    obtain ⟨found, hfound, htarget⟩ := mem_placesWhere.mp hother
    obtain rfl := Option.some.inj (hold.symm.trans hfound)
    obtain ⟨property, output, hjoins, hall⟩ :=
      h.strand_of_edge (List.mem_of_getElem? hat) hs (beq_iff_eq.mp htarget) hin
    have hlength := congrArg List.length hall
    rw [List.length_map] at hlength
    obtain ⟨strand, hstrand, rfl, rfl, rfl⟩ := hseveral property job output (hlength ▸ hlong)
    have hconsumes : plan.consumes other = true := by
      refine Drivers.consumes_iff.mpr (.inr ⟨strand, hstrand, ?_⟩)
      rw [hstrands strand hstrand]
      exact mem_placesWhere.mpr ⟨old, hat, hjoins⟩
    rw [hconsumes] at hfree
    cases hfree
  · have hmem : edge.source ∈ replicas := by
      cases place with
      | zero => cases hprevious
      | succ place => exact List.mem_of_getElem? hprevious
    exact absurd (idsOf_eq_of_mem hw hsource (hself ▸ hmem)) hne

include hrelaid in
/-- Nodes that had their turns are abreast of the repetitions that feed them. -/
theorem Aligned.abreast_replaced (hw : g'.WellFormed)
    (hcount : ∀ entry ∈ plan.sizes, entry.2 = replicas.length) :
    ∀ edge ∈ g'.edges, edge.target ∉ waiting → edge.IsUndivided → ∀ job job', job ≠ job' →
      edge.source ∈ g'.idsOf job → edge.target ∈ g'.idsOf job' → 1 < (g'.idsOf job).length →
        g'.Abreast job job' edge.source edge.target := by
  intro edge he hno hu job job' hne hsource htarget hlong
  obtain ⟨-, hsingles, -, -⟩ := strands_of_drivers h.sturdy.wellFormed hf
  rcases hrelaid.edges edge he with
    ⟨he, -, hfree⟩ | ⟨place, replica, inward, outward, hreplica, hl, he⟩
  · have hold := hsingles.mem hu.isSingle he
    obtain ⟨hlt, hlt'⟩ := h.sturdy.wellFormed.lt_nextId hold
    obtain ⟨hjob, hsource⟩ := idsOf_of_old hfresh hself hothers hlt hsource
    obtain ⟨hjob', htarget⟩ := idsOf_of_old hfresh hself hothers hlt' htarget
    rw [hothers job hjob] at hlong
    rw [Abreast, hothers job hjob, hothers job' hjob']
    exact h.abreast edge hold (fun hmem => (List.mem_cons.mp hmem).elim hfree hno) hu job job' hne
      hsource htarget hlong
  rcases List.mem_append.mp he with he | he
  · have hmem : edge.target ∈ g'.idsOf node.spec.id := by
      rw [hl.ends edge he, hself]
      exact List.mem_of_getElem? hreplica
    obtain rfl := idsOf_eq_of_mem hw htarget hmem
    exact h.abreast_of_inward hf hfresh hself hothers hw hcount hreplica hl he hu hne hsource
      hlong
  · -- What the node led to has its turn still to come.
    obtain ⟨other, hother, old, hold, hrestarts⟩ := exists_of_mem_right hl.outward he
    obtain ⟨found, hfound, hstart⟩ := mem_placesWhere.mp hother
    obtain rfl := Option.some.inj (hold.symm.trans hfound)
    obtain ⟨before, hbefore, hs, ht, -⟩ :=
      ((moves_drivers _).of_ok hf).retains.edges.exists_edge (List.mem_of_getElem? hold)
    refine absurd (h.queued.ordered.2.1 _ ⟨before, hbefore, ?_, ?_⟩) hno
    · exact hs.symm.trans (beq_iff_eq.mp hstart)
    · exact ht.symm.trans hrestarts.target.symm

end Replacing

/-- The turn of a node leaves the graph aligned. -/
theorem Aligned.splitNode {id : NodeId} {waiting : List NodeId} {g g' : Graph} {u : Unit}
    (h : Aligned (id :: waiting) g) (hstep : splitNode id g = .ok u g') : Aligned waiting g' := by
  have hw := h.sturdy.wellFormed
  cases turned_of_splitNode hstep with
  | absent hn =>
    refine h.of_retains (refl_of Retains g) (refl_of (SameInto id) g) (refl_of UndividedKept _) ?_
    intro property origin output
    have hnone : g.strand id property origin output = [] := by
      refine List.filter_eq_nil_iff.mpr fun edge he hjoins => ?_
      obtain ⟨node, hnode, hid⟩ := List.mem_map.mp (hw.closed edge he).2
      exact List.find?_eq_none.mp hn node hnode (beq_iff_eq.mpr (hid.trans (joins_iff.mp hjoins).1))
    rw [hnone]
    exact Nat.zero_le 1
  | idle _ hf hs =>
    refine h.of_retains ((moves_drivers id).of_ok hf).retains (sameInto_drivers hf)
      (undividedKept_of_sameSingles (strands_of_drivers hw hf).2.1) (short_of_drivers hw hf ?_)
    rw [sizes_of_size? hs]
    exact nofun
  | collapsed _ hf hs hc =>
    have hretains := ((moves_drivers id).of_ok hf).retains
    refine h.of_retains (trans_of Retains hretains ((moves_collapse _ _).of_ok hc))
      (trans_of (SameInto id) (sameInto_drivers hf)
        (sameInto_collapse (traced_of_drivers hf) hretains hc))
      (trans_of UndividedKept (undividedKept_of_sameSingles (strands_of_drivers hw hf).2.1)
        (undividedKept_of_collapse hc))
      (short_of_drivers hw hf fun entry hentry => (length_of_size? hs entry hentry).le)
  | @replaced node plan t _ count hn hf hs hne hr =>
    obtain ⟨hin, rfl⟩ := id_of_node? hn
    have hretains := ((moves_drivers _).of_ok hf).retains
    have hsturdy := h.sturdy.splitNode hstep
    have hqueued := h.queued.splitNode hstep
    obtain ⟨serial, added, parts, -, hadded, hreplicated⟩ := replicated_of_replicate
      (hw.below _ (List.mem_map_of_mem hin)) (traced_of_drivers hf) hretains hr
    obtain rfl : count = added.length := by simpa using hadded.length_eq
    have hrelaid := relaid_of_replicate hr
    rw [hretains.nextId, ← hreplicated.ids] at hrelaid
    have hfresh : ∀ replica ∈ added.map (·.id), g.nextId ≤ replica := fun _ => hreplicated.fresh
    have hself := hreplicated.idsOf_self (h.single_self hin)
    have hothers : ∀ job, node.spec.id ≠ job → g'.idsOf job = g.idsOf job := fun _ =>
      hreplicated.idsOf_of_ne hw hin
    refine ⟨hsturdy, hqueued, fun other ho hwait => ?_, fun other hother => ?_, ?_⟩
    · have hlt := h.queued.below _ (List.mem_cons_of_mem _ hwait)
      have hmem := (mem_idsOf_iff hsturdy.wellFormed ho).mpr rfl
      obtain ⟨hjob, hold⟩ := idsOf_of_old hfresh hself hothers hlt hmem
      obtain ⟨old, hold, hspec, hid⟩ := mem_idsOf.mp hold
      rw [hothers _ hjob, ← hspec, ← hid]
      exact h.single old hold (List.mem_cons_of_mem _ (hid ▸ hwait))
    · exact h.strands_replaced hf hrelaid hfresh hself hothers hin hother
    · refine h.abreast_replaced hf hrelaid hfresh hself hothers hsturdy.wellFormed ?_
      intro entry hentry
      rw [length_of_size? hs entry hentry, List.length_map]

/-- When all nodes have had their turns, repetitions stand in line. -/
theorem aligned_of_turns {nodes : List Node} {g g' : Graph} {u : Unit}
    (h : Aligned (nodes.map (·.id)) g) (hturns : nodes.forM (Graph.splitNode ·.id) g = .ok u g') :
    Aligned [] g' := by
  induction nodes generalizing g with
  | nil =>
    obtain ⟨-, rfl⟩ := pure_eq_ok.mp hturns
    exact h
  | cons node nodes ih =>
    obtain ⟨_, t, hstep, hturns⟩ := bind_eq_ok.mp hturns
    exact ih (h.splitNode hstep) hturns

/-- A graph as it is built, with a single node for each job, is aligned. -/
theorem aligned_of_build {pipeline : Pipeline} {built : Graph} {order : List Node}
    (hparameters : ∀ job ∈ pipeline.jobs, ((job.parameters.filter job.asks).map (·.name)).Nodup)
    (hbuild : build pipeline = .ok built) (horder : built.topologicalOrder = .ok order) :
    Aligned (order.map (·.id)) built := by
  obtain ⟨hall, hw, -, hjobs⟩ := build_spec hbuild
  have hnames : (built.nodes.map (·.spec.id)).Nodup := by
    rw [← (specs_of_ofJob hall).1, List.map_map] at hjobs
    exact hjobs
  have hsingle : ∀ node ∈ built.nodes, built.idsOf node.spec.id = [node.id] := fun node hn => by
    rw [idsOf, nodesOf, filter_eq_singleton_of_nodup hnames hn, List.map_singleton]
  have hapart := apart_of_build hbuild fun node hn => hparameters _ (nodes_of_build hbuild node hn).1
  obtain ⟨hordered, hids, -⟩ := ordered_of_topologicalOrder hw.closed horder
  refine ⟨sturdy_of_topologicalOrder hw horder, ⟨hordered, fun id hid => hw.below id ((hids id).mp hid)⟩,
    fun node hn _ => hsingle node hn, fun id _ property origin output => ?_, ?_⟩
  · -- Two edges into one parameter from one output of a single node would be made for the same.
    cases hstrand : built.strand id property origin output with
    | nil => exact .inl rfl
    | cons edge others =>
      have hjoins : ∀ edge' ∈ edge :: others, edge'.target = id ∧ edge'.source ∈ built.idsOf origin ∧
          ∃ link, edge'.kind = .data link ∧ link.cardinality = .oneToOne ∧
            link.targetProperty = property ∧ link.sourceProperty = output := by
        intro edge' he
        rw [← hstrand] at he
        exact joins_iff.mp (List.mem_filter.mp he).2
      obtain ⟨ht, hs, link, hk, -, hproperty, houtput⟩ := hjoins edge List.mem_cons_self
      obtain ⟨node, hn, rfl, hid⟩ := mem_idsOf.mp hs
      simp only [hsingle node hn, List.mem_singleton] at hjoins hs ⊢
      have hpairwise := hapart.sublist
        (List.filter_sublist (p := built.joins id property node.spec.id output))
      rw [← strand, hstrand] at hpairwise
      obtain rfl : others = [] := List.eq_nil_iff_forall_not_mem.mpr fun edge' he => by
        obtain ⟨ht', hs', link', hk', -, hproperty', houtput'⟩ :=
          hjoins edge' (List.mem_cons_of_mem _ he)
        exact (List.pairwise_cons.mp hpairwise).1 edge' he ⟨hs.trans hs'.symm, ht.trans ht'.symm, link,
          link', hk, hk', houtput.trans houtput'.symm, hproperty.trans hproperty'.symm⟩
      exact .inr (by rw [List.map_singleton, hs])
  · intro edge _ _ _ job job' _ hsource _ hlong
    obtain ⟨node, hn, rfl, -⟩ := mem_idsOf.mp hsource
    rw [hsingle node hn] at hlong
    exact absurd hlong (by simp)

/-! ### Repetitions -/

/-- A repetition stands at one place only. -/
theorem place_of_isRepetition {node : Node} {i j : Nat} (hi : node.IsRepetition i)
    (hj : node.IsRepetition j) : i = j := by
  obtain ⟨-, serial, hserial, hname⟩ := hi
  obtain ⟨-, serial', hserial', hname'⟩ := hj
  obtain rfl := Except.ok.inj (hserial.symm.trans hserial')
  exact replicaSuffix_inj ((String.append_right_inj _).mp (hname.symm.trans hname'))

/-- Whether nodes are repeated serially is the same for nodes of one job. -/
theorem isSerial_of_spec {node other : Node} {serial : Bool} (h : isSerial node = .ok serial)
    (hspec : other.spec = node.spec) : isSerial other = .ok serial := by
  rw [isSerial] at h ⊢
  rw [hspec]
  split at h
  · cases h
  next hmodes => exact (if_neg hmodes).trans h

/-- The repetitions of a job are its nodes, if each of these is the repetition at its place. -/
theorem repetitionsOf_eq {g : Graph} {job : String} (h : ∀ (place : Nat) node,
    (g.nodesOf job)[place]? = some node → node.IsRepetition place) :
    g.repetitionsOf job = g.nodesOf job := by
  refine List.filter_eq_self.mpr fun node hn => ?_
  obtain ⟨place, hplace⟩ := List.mem_iff_getElem?.mp hn
  exact (h place node hplace).1

/-- When nodes were repeated a job has its one node that was built, or it has several, which are its
repetitions at the places where they stand. -/
theorem single_or_repetitions {pipeline : Pipeline} {built repeated : Graph} {u : Unit}
    (hbuild : build pipeline = .ok built) (hsplit : split built = .ok u repeated) {node : Node}
    (hn : node ∈ repeated.nodes) :
    ((repeated.nodesOf node.spec.id).length = 1 ∧ ¬ node.isReplica) ∨
      1 < (repeated.nodesOf node.spec.id).length ∧ ∀ (place : Nat) other,
        (repeated.nodesOf node.spec.id)[place]? = some other → other.IsRepetition place := by
  obtain ⟨hall, -, -, hjobs⟩ := build_spec hbuild
  have hspecs := (orderly_of_split hbuild hsplit).specs
  obtain ⟨origin, horigin, heq⟩ := exists_of_mem_left hall (hspecs node hn)
  have hspec : origin.spec = node.spec := by rw [heq]; rfl
  have hcopies : repeated.copiesOf origin = (repeated.nodesOf node.spec.id).map Node.outline := by
    rw [copiesOf, hspec, nodesOf]
  cases (preceding_of_split hbuild hsplit).becomes origin horigin with
  | kept hkept =>
    have hmem : node.outline ∈ repeated.copiesOf origin := by
      rw [hcopies]
      exact List.mem_map_of_mem (List.mem_filter.mpr ⟨hn, beq_self_eq_true _⟩)
    rw [hkept, List.mem_singleton] at hmem
    have hlength := congrArg List.length (hcopies.symm.trans hkept)
    rw [List.length_map, List.length_singleton] at hlength
    rw [isReplica_of_outline hmem]
    exact .inl ⟨hlength, (nodes_of_build hbuild origin horigin).2.2.2⟩
  | repeated hserial hseveral hmade _ =>
    rw [hcopies, List.length_map] at hseveral
    refine .inr ⟨hseveral, fun place other hother => ?_⟩
    have hcopy : (repeated.copiesOf origin)[place]? = some other.outline := by
      rw [hcopies, List.getElem?_map, hother, Option.map_some]
    obtain ⟨hname, hreplica⟩ := hmade place _ hcopy
    obtain ⟨hin, hid⟩ := List.mem_filter.mp (List.mem_of_getElem? hother)
    have hsame : other.spec = origin.spec :=
      List.inj_on_of_nodup_map hjobs (hspecs other hin) (hspec ▸ hspecs node hn)
        (hspec ▸ beq_iff_eq.mp hid)
    refine ⟨hreplica, _, isSerial_of_spec hserial hsame, ?_⟩
    rw [hsame, ← (nodes_of_build hbuild origin horigin).2.1]
    exact hname

/-- **Repetitions stand in line.** If an edge hands on a single value that is no element of a list, and
leads from the repetition of a job at some place to a node of another job, then that node is the
repetition of its job at the same place, and the other job has as many repetitions. -/
theorem in_line_of_split {pipeline : Pipeline} {built repeated : Graph} {u : Unit}
    (hparameters : ∀ job ∈ pipeline.jobs, (job.parameters.map (·.name)).Nodup)
    (hbuild : build pipeline = .ok built) (hsplit : split built = .ok u repeated) :
    ∀ edge ∈ repeated.edges, edge.IsUndivided →
      ∀ source ∈ repeated.nodes, edge.source = source.id →
      ∀ target ∈ repeated.nodes, edge.target = target.id → source.spec.id ≠ target.spec.id →
      ∀ place, source.IsRepetition place → target.IsRepetition place ∧
        (repeated.repetitionsOf target.spec.id).length =
          (repeated.repetitionsOf source.spec.id).length := by
  intro edge he hu source hs hsource target ht htarget hne place hplace
  obtain ⟨order, horder, hturns⟩ := split_eq_ok hsplit
  have haligned := aligned_of_turns
    (aligned_of_build (fun job hj => Job.nodup_asks (hparameters job hj)) hbuild horder) hturns
  have hw := haligned.sturdy.wellFormed
  obtain ⟨hseveral, hplaces⟩ :=
    (single_or_repetitions hbuild hsplit hs).resolve_left fun hone => hone.2 hplace.1
  obtain ⟨spot, hfrom, hto, hlength⟩ := haligned.abreast edge he List.not_mem_nil hu source.spec.id
    target.spec.id hne (hsource ▸ (mem_idsOf_iff hw hs).mpr rfl)
    (htarget ▸ (mem_idsOf_iff hw ht).mpr rfl) (by rwa [idsOf, List.length_map])
  rw [idsOf, List.length_map, idsOf, List.length_map] at hlength
  obtain ⟨-, hplaces'⟩ := (single_or_repetitions hbuild hsplit ht).resolve_left fun hone => by omega
  have hat : ∀ node ∈ repeated.nodes, ∀ id, id = node.id →
      (repeated.idsOf node.spec.id)[spot]? = some id →
        (repeated.nodesOf node.spec.id)[spot]? = some node := by
    rintro node hn _ rfl hspot
    rw [idsOf, List.getElem?_map] at hspot
    obtain ⟨other, hother, hid⟩ := Option.map_eq_some_iff.mp hspot
    have hin := List.mem_of_mem_filter (List.mem_of_getElem? hother)
    rw [hother, List.inj_on_of_nodup_map hw.nodup hin hn hid]
  obtain rfl := place_of_isRepetition (hplaces spot source (hat source hs _ hsource hfrom)) hplace
  refine ⟨hplaces' spot target (hat target ht _ htarget hto), ?_⟩
  rw [repetitionsOf_eq hplaces, repetitionsOf_eq hplaces', hlength]

/-- Two loaves are sliced, and each is toasted and weighed before both results of it are served. -/
def brunch : Pipeline where
  jobs := [
    { id := "slice"
      parameters := [{ name := "loaf" }, { name := "slices", isOutput := true }]
      configuration := .ofList [("loaf", .list [.str "rye", .str "wheat"]),
        ("slices", .str "$\x7bloaf\x7d slices")] },
    { id := "toast"
      parameters := [{ name := "bread" }, { name := "toasts", isOutput := true }]
      configuration := .ofList [("bread", .str "$\x7bslice.slices\x7d"), ("toasts", .str "toasts")] },
    { id := "weigh"
      parameters := [{ name := "load" }, { name := "weight", isOutput := true }]
      configuration := .ofList [("load", .str "$\x7bslice.slices\x7d"), ("weight", .str "weight")] },
    { id := "serve"
      parameters := [{ name := "plate" }, { name := "label" }]
      configuration := .ofList [("plate", .str "$\x7btoast.toasts\x7d"),
        ("label", .str "$\x7bweigh.weight\x7d of $\x7btoast.toasts\x7d")] }]

/-- The second toast and the second weight are served together, as two are there of each. -/
theorem brunch_in_line :
    (∀ job ∈ brunch.jobs, (job.parameters.map (·.name)).Nodup) ∧
    ∃ built repeated, build brunch = .ok built ∧ split built = .ok () repeated ∧
      ∃ edge ∈ repeated.edges, edge.IsUndivided ∧ ∃ source ∈ repeated.nodes,
        edge.source = source.id ∧ source.name = "weigh_split_1" ∧ ∃ target ∈ repeated.nodes,
          edge.target = target.id ∧ target.spec.id = "serve" ∧ target.IsRepetition 1 ∧
            (repeated.repetitionsOf "serve").length = (repeated.repetitionsOf "weigh").length := by
  have hparameters : ∀ job ∈ brunch.jobs, (job.parameters.map (·.name)).Nodup := by decide
  obtain ⟨built, repeated, hbuild, hsplit, edge, he, hu, source, hs, hsource, hname, hjob, hplace, target,
    ht, htarget, hjob'⟩ := exists_split brunch
      (fun _ repeated => ∃ edge ∈ repeated.edges, edge.IsUndivided ∧ ∃ source ∈ repeated.nodes,
        edge.source = source.id ∧ source.name = "weigh_split_1" ∧ source.spec.id = "weigh" ∧
          source.IsRepetition 1 ∧ ∃ target ∈ repeated.nodes, edge.target = target.id ∧
            target.spec.id = "serve") (by decide +kernel)
  have hne : source.spec.id ≠ target.spec.id := by
    rw [hjob, hjob']
    decide
  obtain ⟨hat, hlength⟩ := in_line_of_split hparameters hbuild hsplit edge he hu source hs hsource target
    ht htarget hne 1 hplace
  exact ⟨hparameters, built, repeated, hbuild, hsplit, edge, he, hu, source, hs, hsource, hname, target,
    ht, htarget, hjob', hat, hjob' ▸ hjob ▸ hlength⟩

end Graph

end Pipework
