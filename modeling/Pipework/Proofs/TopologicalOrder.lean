import Mathlib.Data.Nat.SuccPred
import Pipework.Graph.Order
import Pipework.Proofs.Reachability

/-!
# Which graphs can be put in order

The order of the nodes exists exactly when no node comes before itself, and then every edge
leads forward in it. Both directions follow the placing of nodes one by one: what is still
to be placed stays closed under the edges that still count. Counting edges off, as it is done,
comes to the same as dropping them, because a count always tells how many of them are left.
-/

namespace Pipework.Graph

/-! ### Counting edges off is the same as dropping them -/

/-- Places up to so many of the remaining nodes, each the first one that no remaining edge ends
at, and tells which nodes are left. The edges of a placed node no longer count. -/
def placeNodes : Nat → List Node → List Edge → List Node × List Node
  | 0, remaining, _ => ([], remaining)
  | count + 1, remaining, edges =>
    match remaining.find? fun node => edges.all (·.target != node.id) with
    | none => ([], remaining)
    | some node =>
      let (placed, left) := placeNodes count (remaining.filter (·.id != node.id))
        (edges.filter (·.source != node.id))
      (node :: placed, left)

/-- A node with the number of these edges that end at it. -/
def awaiting (edges : List Edge) (node : Node) : Waiting :=
  ⟨node, edges.countP (·.target == node.id)⟩

@[simp]
theorem node_awaiting (edges : List Edge) (node : Node) : (awaiting edges node).node = node := rfl

/-- A count is changed once for each edge that ends at the node. -/
theorem adjustTargets_eq_map (change : Nat → Nat) (edges : List Edge) (waiting : List Waiting) :
    adjustTargets change edges waiting = waiting.map fun entry =>
      ⟨entry.node, change^[edges.countP (·.target == entry.node.id)] entry.count⟩ := by
  induction edges generalizing waiting with
  | nil => simp [adjustTargets]
  | cons edge edges ih =>
    rw [adjustTargets, List.foldl_cons]
    refine (ih _).trans ?_
    rw [List.map_map]
    refine List.map_congr_left fun entry _ => ?_
    by_cases h : entry.node.id = edge.target
    · simp [Waiting.adjust, h, Function.iterate_succ_apply]
    · simp [Waiting.adjust, h, Ne.symm h]

/-- In the beginning all edges count. -/
theorem adjustTargets_succ (edges : List Edge) (nodes : List Node) :
    adjustTargets Nat.succ edges (nodes.map fun node => ⟨node, 0⟩) =
      nodes.map (awaiting edges) := by
  rw [adjustTargets_eq_map, List.map_map]
  refine List.map_congr_left fun node _ => ?_
  simp [awaiting, Nat.succ_iterate]

/-- Where the edges that still count include all that start at the node, counting those off leaves
as many as there are when they are dropped. -/
theorem release_awaiting {edges counting : List Edge} {id : NodeId}
    (hown : counting.filter (·.source == id) = edges.filter (·.source == id))
    (remaining : List Node) :
    release edges id (remaining.map (awaiting counting)) =
      (remaining.filter (·.id != id)).map (awaiting (counting.filter (·.source != id))) := by
  rw [release, adjustTargets_eq_map, ← hown, List.filter_map, List.map_map]
  refine List.map_congr_left fun node _ => ?_
  have hparts := List.countP_eq_countP_filter_add counting (·.target == node.id) (·.source == id)
  simp only [awaiting, Function.comp_apply, Waiting.mk.injEq, true_and]
  rw [hparts, Nat.pred_iterate, Nat.add_sub_cancel_left]
  rfl

/-- Nothing is left to be counted off just if no edge that counts ends at the node. -/
theorem count_awaiting_eq_zero (edges : List Edge) (node : Node) :
    ((awaiting edges node).count == 0) = edges.all (·.target != node.id) := by
  rw [Bool.eq_iff_iff]
  simp [awaiting, List.countP_eq_zero]

/-- The counts tell at any time how many edges from nodes without a place end at each node. So nodes
get the places that they get when the edges of placed nodes are dropped. -/
theorem placeReady_awaiting {edges counting : List Edge} {remaining : List Node}
    (hown : ∀ node ∈ remaining,
      counting.filter (·.source == node.id) = edges.filter (·.source == node.id)) (count : Nat) :
    (placeReady edges count (remaining.map (awaiting counting))).map id (List.map (·.node)) =
      placeNodes count remaining counting := by
  induction count generalizing remaining counting with
  | zero => simp [placeReady, placeNodes, Function.comp_def]
  | succ count ih =>
    have hfind : (remaining.map (awaiting counting)).find? (·.count == 0) =
        (remaining.find? fun node => counting.all (·.target != node.id)).map
          (awaiting counting) := by
      rw [List.find?_map]
      simp only [Function.comp_def, count_awaiting_eq_zero]
    rw [placeReady, placeNodes, hfind]
    cases hready : remaining.find? fun node => counting.all (·.target != node.id) with
    | none => simp [Function.comp_def]
    | some node =>
      have hmem := List.mem_of_find?_eq_some hready
      -- The edges of the nodes that stay are those that counted before.
      have hrest : ∀ other ∈ remaining.filter (·.id != node.id),
          (counting.filter (·.source != node.id)).filter (·.source == other.id) =
            edges.filter (·.source == other.id) := by
        intro other hother
        obtain ⟨hin, hne⟩ := List.mem_filter.mp hother
        rw [← hown other hin, List.filter_filter]
        refine List.filter_congr fun edge _ => ?_
        by_cases heq : edge.source = other.id
        · simpa [heq] using hne
        · simp [heq]
      have hstep : release edges (awaiting counting node).node.id
          (remaining.map (awaiting counting)) = _ := release_awaiting (hown node hmem) remaining
      simp only [Option.map_some, hstep, ← ih hrest]
      rfl

/-- The order of the nodes, and whom it leaves out, with edges that are dropped one by one. -/
theorem topologicalOrder_eq (graph : Graph) : graph.topologicalOrder =
    match placeNodes graph.nodes.length graph.nodes graph.edges with
    | (placed, []) => .ok placed
    | (_, left) => .error (.cycle ((left.map (·.name)).mergeSort fun a b => decide (a ≤ b))) := by
  rw [topologicalOrder]
  simp only [adjustTargets_succ, ← placeReady_awaiting fun node _ => rfl]
  generalize placeReady graph.edges graph.nodes.length _ = result
  obtain ⟨placed, left⟩ := result
  cases left with
  | nil => rfl
  | cons first left => simp [Function.comp_def]

/-! ### The order -/

/-- No node comes up twice, and every edge from one of the nodes leads to a later one. -/
def Ordered (edges : List Edge) : List NodeId → Prop
  | [] => True
  | id :: later => id ∉ later ∧ (∀ next, Leads edges id next → next ∈ later) ∧ Ordered edges later

theorem Ordered.nodup {edges : List Edge} {order : List NodeId} (h : Ordered edges order) :
    order.Nodup := by
  induction order with
  | nil => exact .nil
  | cons id later ih => exact List.nodup_cons.mpr ⟨h.1, ih h.2.2⟩

/-- Only the edges that start at the listed nodes matter. -/
theorem Ordered.of_leads {edges other : List Edge} {order : List NodeId}
    (h : Ordered edges order)
    (hl : ∀ id ∈ order, ∀ next, Leads other id next → Leads edges id next) :
    Ordered other order := by
  induction order with
  | nil => trivial
  | cons id later ih =>
    refine ⟨h.1, fun next hn => h.2.1 next (hl id (by simp) next hn), ih h.2.2 ?_⟩
    exact fun i hi => hl i (List.mem_cons_of_mem _ hi)

/-- The places in the order are ranks that rise along the edges. -/
theorem Ordered.idxOf_lt {edges : List Edge} {order : List NodeId} (h : Ordered edges order)
    {u v : NodeId} (hu : u ∈ order) (hl : Leads edges u v) :
    v ∈ order ∧ order.idxOf u < order.idxOf v := by
  induction order with
  | nil => simp at hu
  | cons id later ih =>
    obtain ⟨hid, hnext, hlater⟩ := h
    by_cases he : u = id
    · subst he
      have hv := hnext v hl
      have hne : v ≠ u := fun h => hid (h ▸ hv)
      exact ⟨List.mem_cons_of_mem _ hv, by simp [List.idxOf_cons_ne _ hne.symm]⟩
    · obtain ⟨hv, hlt⟩ := ih hlater ((List.mem_cons.mp hu).resolve_left he)
      have hne : v ≠ id := fun h => hid (h ▸ hv)
      refine ⟨List.mem_cons_of_mem _ hv, ?_⟩
      rw [List.idxOf_cons_ne _ (Ne.symm he), List.idxOf_cons_ne _ hne.symm]
      omega

theorem Ordered.rising {edges : List Edge} {order : List NodeId} (h : Ordered edges order)
    (hc : Closed order edges) : Rising order.idxOf edges :=
  fun _ he => (h.idxOf_lt (hc _ he).1 (leads_of_mem he)).2

/-- Without the edges that start at a placed node, the other nodes are closed under the edges,
because none of these ended at it. -/
theorem Closed.without {remaining : List Node} {edges : List Edge} {id : NodeId}
    (hc : Closed (remaining.map (·.id)) edges) (hin : ∀ edge ∈ edges, edge.target ≠ id) :
    Closed ((remaining.filter (·.id != id)).map (·.id)) (edges.filter (·.source != id)) := by
  intro edge he
  obtain ⟨hmem, hs⟩ := List.mem_filter.mp he
  have hends := hc edge hmem
  have keep : ∀ i ∈ remaining.map (·.id), i ≠ id →
      i ∈ (remaining.filter (·.id != id)).map (·.id) := by
    intro i hi hne
    obtain ⟨node, hn, rfl⟩ := List.mem_map.mp hi
    exact List.mem_map.mpr ⟨node, List.mem_filter.mpr ⟨hn, by simpa using hne⟩, rfl⟩
  exact ⟨keep _ hends.1 (by simpa using hs), keep _ hends.2 (hin edge hmem)⟩

/-- Either no node can be placed any more, or one gets its place and then others do. -/
theorem placeNodes_succ {count : Nat} {remaining placed left : List Node} {edges : List Edge}
    (h : placeNodes (count + 1) remaining edges = (placed, left)) :
    ((∀ node ∈ remaining, ¬ edges.all (·.target != node.id) = true) ∧ placed = [] ∧
      left = remaining) ∨
    ∃ first later, (remaining.find? fun node => edges.all (·.target != node.id)) = some first ∧
      placed = first :: later ∧ placeNodes count (remaining.filter (·.id != first.id))
        (edges.filter (·.source != first.id)) = (later, left) := by
  rw [placeNodes] at h
  cases hf : remaining.find? fun node => edges.all (·.target != node.id) with
  | none =>
    have hnone := List.find?_eq_none.mp hf
    exact .inl ⟨hnone, by simpa [hf, eq_comm] using h⟩
  | some first =>
    cases hp : placeNodes count (remaining.filter (·.id != first.id))
        (edges.filter (·.source != first.id)) with
    | mk later rest =>
      obtain ⟨rfl, rfl⟩ : placed = first :: later ∧ left = rest := by
        simpa [hf, hp, eq_comm] using h
      exact .inr ⟨first, later, rfl, rfl, hp⟩

/-- Only nodes that are waiting for a place get one. -/
theorem subset_of_placeNodes {count : Nat} {remaining placed left : List Node} {edges : List Edge}
    (h : placeNodes count remaining edges = (placed, left)) : placed ⊆ remaining := by
  induction count generalizing remaining placed edges with
  | zero =>
    obtain ⟨rfl, -⟩ : placed = [] ∧ left = remaining := by simpa [placeNodes, eq_comm] using h
    exact List.nil_subset _
  | succ count ih =>
    rcases placeNodes_succ h with ⟨-, rfl, -⟩ | ⟨node, later, hf, rfl, hp⟩
    · exact List.nil_subset _
    · exact List.cons_subset.mpr ⟨List.mem_of_find?_eq_some hf,
        fun _ hn => (List.mem_filter.mp (ih hp hn)).1⟩

/-- When no node is left over, the placed nodes are all of them, in an order that no edge
leads backward in. -/
theorem ordered_of_placeNodes {count : Nat} {remaining placed : List Node} {edges : List Edge}
    (hc : Closed (remaining.map (·.id)) edges)
    (h : placeNodes count remaining edges = (placed, [])) :
    Ordered edges (placed.map (·.id)) ∧
      ∀ id, id ∈ placed.map (·.id) ↔ id ∈ remaining.map (·.id) := by
  induction count generalizing remaining placed edges with
  | zero =>
    obtain ⟨rfl, rfl⟩ : placed = [] ∧ remaining = [] := by simpa [placeNodes, eq_comm] using h
    exact ⟨trivial, by simp⟩
  | succ count ih =>
    rcases placeNodes_succ h with ⟨-, rfl, rfl⟩ | ⟨node, later, hf, rfl, hp⟩
    · exact ⟨trivial, by simp⟩
    · have hmem := List.mem_of_find?_eq_some hf
      have hin : ∀ edge ∈ edges, edge.target ≠ node.id := by
        simpa using List.find?_some hf
      obtain ⟨hord, hids⟩ := ih (hc.without hin) hp
      have hnot : node.id ∉ later.map (·.id) := by
        rw [hids]
        simp
      have hall : ∀ id, id ∈ (node :: later).map (·.id) ↔ id ∈ remaining.map (·.id) := by
        intro id
        rw [List.map_cons, List.mem_cons, hids]
        by_cases he : id = node.id
        · simpa [he] using ⟨node, hmem, rfl⟩
        · simp [List.mem_filter, he]
          grind
      refine ⟨⟨hnot, fun next hl => ?_, hord.of_leads fun id hid next hl => ?_⟩, hall⟩
      · obtain ⟨edge, he, -, rfl⟩ := hl
        have hm := (hall edge.target).mpr (hc edge he).2
        exact (List.mem_cons.mp hm).resolve_left (hin edge he)
      · obtain ⟨edge, he, rfl, rfl⟩ := hl
        have hne : edge.source ≠ node.id := fun h => hnot (h ▸ hid)
        exact leads_of_mem (List.mem_filter.mpr ⟨he, by simpa using hne⟩)

/-- Without a circle every node gets a place. -/
theorem placeNodes_snd_eq_nil {count : Nat} {remaining : List Node} {edges : List Edge}
    (ha : Acyclic edges) (hc : Closed (remaining.map (·.id)) edges)
    (hcount : remaining.length ≤ count) : (placeNodes count remaining edges).2 = [] := by
  induction count generalizing remaining edges with
  | zero => simpa [placeNodes] using hcount
  | succ count ih =>
    cases hf : remaining.find? fun node => edges.all (·.target != node.id) with
    | none =>
      -- A first node among the remaining ones would have been found.
      by_contra hne
      have hrem : remaining.map (·.id) ≠ [] := by
        rw [placeNodes, hf] at hne
        simpa using hne
      obtain ⟨v, hv, hfirst⟩ := ha.exists_first hrem
      obtain ⟨node, hn, rfl⟩ := List.mem_map.mp hv
      have hsome := List.find?_eq_none.mp hf node hn
      simp only [List.all_eq_true, bne_iff_ne, ne_eq, not_forall, not_not] at hsome
      obtain ⟨edge, he, ht⟩ := hsome
      exact hfirst edge.source (hc edge he).1 ⟨edge, he, rfl, ht⟩
    | some node =>
      have hmem := List.mem_of_find?_eq_some hf
      have hin : ∀ edge ∈ edges, edge.target ≠ node.id := by
        simpa using List.find?_some hf
      have hlt : (remaining.filter (·.id != node.id)).length < remaining.length :=
        List.length_filter_lt_length_iff_exists.mpr ⟨node, hmem, by simp⟩
      have hleft := ih (ha.mono (List.filter_subset_self _)) (hc.without hin) (by omega)
      rw [placeNodes, hf]
      exact hleft

/-- An order comes of placing all nodes. -/
theorem placeNodes_of_topologicalOrder {graph : Graph} {order : List Node}
    (h : graph.topologicalOrder = .ok order) :
    placeNodes graph.nodes.length graph.nodes graph.edges = (order, []) := by
  rw [topologicalOrder_eq] at h
  cases hp : placeNodes graph.nodes.length graph.nodes graph.edges with
  | mk placed left =>
    cases left with
    | cons => simp [hp] at h
    | nil =>
      obtain rfl : placed = order := by simpa [hp] using h
      rfl

theorem subset_of_topologicalOrder {graph : Graph} {order : List Node}
    (h : graph.topologicalOrder = .ok order) : order ⊆ graph.nodes :=
  subset_of_placeNodes (placeNodes_of_topologicalOrder h)

/-- The order holds exactly the nodes of the graph, and no edge leads backward in it. -/
theorem ordered_of_topologicalOrder {graph : Graph} {order : List Node}
    (hc : Closed (graph.nodes.map (·.id)) graph.edges)
    (h : graph.topologicalOrder = .ok order) :
    Ordered graph.edges (order.map (·.id)) ∧
      (∀ id, id ∈ order.map (·.id) ↔ id ∈ graph.nodes.map (·.id)) ∧ order ⊆ graph.nodes := by
  obtain ⟨hordered, hids⟩ := ordered_of_placeNodes hc (placeNodes_of_topologicalOrder h)
  exact ⟨hordered, hids, subset_of_topologicalOrder h⟩

/-- A graph that can be put in order has ranks that rise along its edges. -/
theorem rising_of_topologicalOrder {graph : Graph} {order : List Node}
    (hc : Closed (graph.nodes.map (·.id)) graph.edges)
    (h : graph.topologicalOrder = .ok order) :
    Rising (order.map (·.id)).idxOf graph.edges := by
  obtain ⟨hord, hids, -⟩ := ordered_of_topologicalOrder hc h
  exact hord.rising fun edge he => by simpa only [hids] using hc edge he

/-- Graphs without a circle can be put in order. -/
theorem exists_topologicalOrder {graph : Graph} (ha : Acyclic graph.edges)
    (hc : Closed (graph.nodes.map (·.id)) graph.edges) :
    ∃ order, graph.topologicalOrder = .ok order := by
  have hleft := placeNodes_snd_eq_nil ha hc le_rfl
  rw [topologicalOrder_eq]
  cases hp : placeNodes graph.nodes.length graph.nodes graph.edges with
  | mk placed left =>
    obtain rfl : left = [] := by simpa [hp] using hleft
    exact ⟨placed, rfl⟩

/-- Nodes that cannot be put in order are told. -/
theorem cycle_of_topologicalOrder {graph : Graph} {e : GraphError}
    (h : graph.topologicalOrder = .error e) : ∃ names, e = .cycle names := by
  rw [topologicalOrder_eq] at h
  split at h
  · cases h
  · cases h
    exact ⟨_, rfl⟩

/-- In a graph with a circle some nodes are left over, and they are told. -/
theorem topologicalOrder_eq_cycle {graph : Graph} (ha : ¬ Acyclic graph.edges)
    (hc : Closed (graph.nodes.map (·.id)) graph.edges) :
    ∃ names, graph.topologicalOrder = .error (.cycle names) := by
  cases h : graph.topologicalOrder with
  | ok order => exact absurd (rising_of_topologicalOrder hc h).acyclic ha
  | error e =>
    obtain ⟨names, rfl⟩ := cycle_of_topologicalOrder h
    exact ⟨names, rfl⟩

end Pipework.Graph
