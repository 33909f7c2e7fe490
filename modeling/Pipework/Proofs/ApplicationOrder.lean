import Mathlib.Data.List.Nodup
import Mathlib.Data.Prod.Lex
import Pipework.Graph.Configure
import Pipework.Proofs.KeptEdges
import Pipework.Proofs.TopologicalOrder

/-!
# The order in which edges are applied

Edges are applied node by node, those to a node in the order in which they stand in the graph. That is
how the places of all edges are sorted by the places of the nodes that they end at, when those of the
same rank are left in their order. Along edges the ranks of the nodes rise, so an edge comes behind all
that end where it starts, and behind all from which a path leads there.
-/

namespace Pipework

/-! ### Lists along which a rank rises -/

section Rank

variable {α β : Type} [Preorder β] {rank : α → β} {l before behind : List α} {a b : α}

theorem nodup_of_pairwise_lt (h : l.Pairwise fun a b => rank a < rank b) : l.Nodup :=
  h.imp fun hlt heq => absurd (heq ▸ hlt) (lt_irrefl _)

/-- What has a lesser rank comes earlier. -/
theorem mem_before_of_lt (h : (before ++ b :: behind).Pairwise fun a b => rank a < rank b)
    (ha : a ∈ before ++ b :: behind) (hlt : rank a < rank b) : a ∈ before := by
  obtain ⟨-, hrest, -⟩ := List.pairwise_append.mp h
  rcases List.mem_append.mp ha with ha | ha
  · exact ha
  · rcases List.mem_cons.mp ha with rfl | ha
    · exact absurd hlt (lt_irrefl _)
    · exact absurd hlt ((List.pairwise_cons.mp hrest).1 a ha).asymm

/-- In a list that rises, what ranks lower stands further ahead. -/
theorem pair_sublist_of_lt (h : l.Pairwise fun a b => rank a < rank b) (ha : a ∈ l) (hb : b ∈ l)
    (hlt : rank a < rank b) : [a, b].Sublist l := by
  obtain ⟨before, behind, rfl⟩ := List.append_of_mem hb
  have hbefore := mem_before_of_lt h ha hlt
  exact (List.singleton_sublist.mpr hbefore).append ((List.nil_sublist behind).cons_cons b)

end Rank

/-- Sorting the first numbers by a rank leaves those of the same rank in their order. -/
theorem pairwise_mergeSort_range (rank : Nat → Nat) (count : Nat) :
    ((List.range count).mergeSort fun i j => decide (rank i ≤ rank j)).Pairwise fun i j =>
      toLex (rank i, i) < toLex (rank j, j) := by
  have htrans : ∀ i j k, decide (rank i ≤ rank j) = true → decide (rank j ≤ rank k) = true →
      decide (rank i ≤ rank k) = true := fun i j k hij hjk =>
    decide_eq_true ((of_decide_eq_true hij).trans (of_decide_eq_true hjk))
  have htotal : ∀ i j, (decide (rank i ≤ rank j) || decide (rank j ≤ rank i)) = true :=
    fun i j => by simpa using Nat.le_total (rank i) (rank j)
  have hperm := List.mergeSort_perm (List.range count) fun i j => decide (rank i ≤ rank j)
  have hnodup := hperm.nodup_iff.mpr List.nodup_range
  refine List.pairwise_iff_forall_sublist.mpr fun {i j} hij => ?_
  have hle : rank i ≤ rank j :=
    of_decide_eq_true ((List.pairwise_mergeSort htrans htotal _).forall_sublist hij)
  rw [Prod.Lex.toLex_lt_toLex]
  refine hle.lt_or_eq.imp_right fun heq => ⟨heq, ?_⟩
  -- Had they changed places, both ways round would be found in the sorted list.
  have hne : i ≠ j := List.Pairwise.forall_sublist hnodup hij
  by_contra hnot
  have hrange : (List.range count).Pairwise fun a b => id a < id b := List.pairwise_lt_range
  have hswapped : [j, i].Sublist (List.range count) :=
    pair_sublist_of_lt hrange (hperm.mem_iff.mp (hij.subset (by simp)))
      (hperm.mem_iff.mp (hij.subset (by simp))) (lt_of_le_of_ne (Nat.le_of_not_lt hnot) hne.symm)
  have hji := List.pair_sublist_mergeSort htrans htotal (decide_eq_true heq.ge) hswapped
  exact hne (List.cons.inj ((hnodup.perm_iff_eq_of_sublist hij hji).mp (.swap j i []))).1

/-- The elements of a list without repetitions stand in the order of their places. -/
theorem pairwise_idxOf {α : Type} [DecidableEq α] {l : List α} (h : l.Nodup) :
    l.Pairwise fun a b => l.idxOf a < l.idxOf b := by
  rw [List.pairwise_iff_getElem]
  intro i j hi hj hlt
  rwa [h.idxOf_getElem, h.idxOf_getElem]

namespace Graph

/-! ### Places of edges -/

/-- The places of the edges to a node are those where such edges stand. -/
theorem mem_incoming {g : Graph} {id : NodeId} {place : Nat} :
    place ∈ g.incoming id ↔ ∃ edge, g.edges[place]? = some edge ∧ edge.target = id := by
  rw [incoming, mem_placesWhere]
  simp only [beq_iff_eq]

/-- The places of edges are listed in their order. -/
theorem pairwise_placesWhere (g : Graph) (test : Edge → Bool) :
    (g.placesWhere test).Pairwise (· < ·) := by
  have hrising : g.edges.zipIdx.Pairwise fun a b => a.2 < b.2 := by
    rw [← List.pairwise_map (f := Prod.snd) (R := (· < ·)), List.zipIdx_map_snd]
    exact List.pairwise_lt_range'
  refine List.pairwise_filterMap.mpr (hrising.imp fun {a b} hlt place hplace other hother => ?_)
  rw [Option.ite_none_right_eq_some] at hplace hother
  rw [← Option.some.inj hplace.2, ← Option.some.inj hother.2]
  exact hlt

/-- The places of edges are listed once. -/
theorem nodup_placesWhere (g : Graph) (test : Edge → Bool) : (g.placesWhere test).Nodup :=
  (pairwise_placesWhere g test).imp Nat.ne_of_lt

/-! ### Places in the order in which edges are applied -/

/-- Where in an order of nodes the one comes that the edge at a place ends at. -/
def rankOf (g : Graph) (order : List Node) (place : Nat) : Nat :=
  (g.edges[place]?.map fun edge => (order.map (·.id)).idxOf edge.target).getD order.length

variable {g : Graph} {order : List Node}

/-- An edge ranks as the node that it leads to. -/
theorem rankOf_eq {place : Nat} {edge : Edge} (h : g.edges[place]? = some edge) :
    g.rankOf order place = (order.map (·.id)).idxOf edge.target := by
  rw [rankOf, h]
  rfl

/-- The edges to a node rank as the node. -/
theorem rankOf_of_mem_incoming {node : Node} {place : Nat} (h : place ∈ g.incoming node.id) :
    g.rankOf order place = (order.map (·.id)).idxOf node.id := by
  obtain ⟨edge, hedge, htarget⟩ := mem_incoming.mp h
  rw [rankOf_eq hedge, htarget]

/-- Edges are applied by the ranks of the nodes that they end at, and those to the same node as they
stand in the graph. -/
theorem pairwise_applicationOrder (g : Graph) (hnodup : (order.map (·.id)).Nodup) :
    (g.applicationOrder order).Pairwise fun i j =>
      toLex (g.rankOf order i, i) < toLex (g.rankOf order j, j) := by
  simp only [Prod.Lex.toLex_lt_toLex]
  refine List.pairwise_flatMap.mpr ⟨fun node _ => ?_, ?_⟩
  · refine (pairwise_placesWhere g _).imp_of_mem fun {i j} hi hj hlt => .inr ⟨?_, hlt⟩
    rw [rankOf_of_mem_incoming hi, rankOf_of_mem_incoming hj]
  · refine (List.pairwise_map.mp (pairwise_idxOf hnodup)).imp fun {a b} hlt i hi j hj => .inl ?_
    rwa [rankOf_of_mem_incoming hi, rankOf_of_mem_incoming hj]

section Ordered

variable (hc : Closed (g.nodes.map (·.id)) g.edges) (h : g.topologicalOrder = .ok order)

include hc h

/-- All edges have their turns. -/
theorem mem_applicationOrder {place : Nat} :
    place ∈ g.applicationOrder order ↔ place < g.edges.length := by
  obtain ⟨-, hids, -⟩ := ordered_of_topologicalOrder hc h
  rw [applicationOrder, List.mem_flatMap]
  constructor
  · rintro ⟨node, -, hplace⟩
    obtain ⟨edge, hedge, -⟩ := mem_incoming.mp hplace
    exact (List.getElem?_eq_some_iff.mp hedge).1
  · intro hlt
    have hin := (hids g.edges[place].target).mpr (hc _ (List.getElem_mem hlt)).2
    obtain ⟨node, hn, hid⟩ := List.mem_map.mp hin
    exact ⟨node, hn, mem_incoming.mpr ⟨_, List.getElem?_eq_getElem hlt, hid.symm⟩⟩

/-- All edges are applied, each once. -/
theorem applicationOrder_perm : (g.applicationOrder order).Perm (List.range g.edges.length) := by
  obtain ⟨hordered, -, -⟩ := ordered_of_topologicalOrder hc h
  have hnodup := nodup_of_pairwise_lt (pairwise_applicationOrder g hordered.nodup)
  refine (List.perm_ext_iff_of_nodup hnodup List.nodup_range).mpr fun place => ?_
  rw [mem_applicationOrder hc h, List.mem_range]

/-- Edges are applied in the order that comes of sorting their places by rank. -/
theorem applicationOrder_eq_mergeSort : g.applicationOrder order =
    (List.range g.edges.length).mergeSort fun i j => decide (g.rankOf order i ≤ g.rankOf order j) := by
  obtain ⟨hordered, -, -⟩ := ordered_of_topologicalOrder hc h
  refine List.Perm.eq_of_pairwise (fun _ _ _ _ hlt hgt => absurd hlt hgt.asymm)
    (pairwise_applicationOrder g hordered.nodup) (pairwise_mergeSort_range _ _) ?_
  exact (applicationOrder_perm hc h).trans (List.mergeSort_perm _ _).symm

/-- An edge is applied before all that lead on from where it ends, be it by a path. -/
theorem rankOf_lt {i j : Nat} {first second : Edge} (hi : g.edges[i]? = some first)
    (hj : g.edges[j]? = some second)
    (hpath : Relation.ReflTransGen (Leads g.edges) first.target second.source) :
    g.rankOf order i < g.rankOf order j := by
  have hlast : Leads g.edges second.source second.target := leads_of_mem (List.mem_of_getElem? hj)
  rw [rankOf_eq hi, rankOf_eq hj]
  exact (rising_of_topologicalOrder hc h).lt_of_reaches (.tail' hpath hlast)

end Ordered

end Graph

end Pipework
