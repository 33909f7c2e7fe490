import Pipework.Proofs.Outline
import Pipework.Proofs.Reachability

/-!
# Graphs whose handles fit together

Handles of nodes are different and below the next one, and edges join nodes of the graph.
This does not depend on values. Nodes are added one by one, each under the next handle, so
that whatever adds several of them adds them under neighbouring handles.
-/

namespace Pipework.Graph

open Step

/-- Handles of nodes are different and have been given out, and edges join nodes. -/
structure WellFormed (graph : Graph) : Prop where
  /-- Handles of nodes have been given out. -/
  below : ∀ id ∈ graph.nodes.map (·.id), id < graph.nextId
  /-- Different nodes have different handles. -/
  nodup : (graph.nodes.map (·.id)).Nodup
  /-- Edges join nodes of the graph. -/
  closed : Closed (graph.nodes.map (·.id)) graph.edges

/-- Whether handles fit together depends on the outline only. -/
theorem SameOutline.wellFormed {g g' : Graph} (h : SameOutline g g') (hw : g.WellFormed) :
    g'.WellFormed := by
  refine ⟨?_, ?_, ?_⟩
  · simpa only [h.ids, h.nextId] using hw.below
  · simpa only [h.ids] using hw.nodup
  · simpa only [h.ids, h.edges] using hw.closed

/-- An edge of a well-formed graph touches no handle that is still to be given out. -/
theorem WellFormed.lt_nextId {graph : Graph} (h : graph.WellFormed) {edge : Edge}
    (he : edge ∈ graph.edges) : edge.source < graph.nextId ∧ edge.target < graph.nextId :=
  ⟨h.below _ (h.closed edge he).1, h.below _ (h.closed edge he).2⟩

/-- The node with this handle is the only one. -/
theorem WellFormed.node?_eq_some {graph : Graph} (h : graph.WellFormed) {node : Node} :
    graph.node? node.id = some node ↔ node ∈ graph.nodes :=
  ⟨List.mem_of_find?_eq_some, find?_eq_some_of_nodup h.nodup⟩

/-- After the step there is one node more, under the next handle. Otherwise only the scope tree
differs. -/
def Adds (node : Node) (g g' : Graph) : Prop :=
  node.id = g.nextId ∧
    ∃ scope, g' = { g with nodes := g.nodes ++ [node], nextId := g.nextId + 1, scope }

/-- A node is added under the next handle, and nothing else changes. -/
theorem adds_of_addNode {node : Node} {id : NodeId} {g g' : Graph}
    (h : addNode node g = .ok id g') : id = g.nextId ∧ Adds { node with id } g g' := by
  obtain ⟨scope, g₁, hscope, h⟩ := bind_eq_ok.mp h
  obtain ⟨_, g₂, hputs, h⟩ := bind_eq_ok.mp h
  obtain ⟨_, _, hget, h⟩ := bind_eq_ok.mp h
  obtain ⟨rfl, rfl⟩ := get_eq_ok.mp hget
  obtain ⟨_, _, hmodify, h⟩ := bind_eq_ok.mp h
  obtain rfl := modify_eq_ok.mp hmodify
  obtain ⟨rfl, rfl⟩ := pure_eq_ok.mp h
  have hfirst : SameButScope g g₁ := (moves_onScope _).of_ok hscope
  have hsecond : SameButScope g₁ g₂ :=
    (Moves.forM fun _ _ => (moves_onScope _).bind fun _ => .pure _).of_ok hputs
  obtain ⟨tree, rfl⟩ : SameButScope g g₂ := trans_of SameButScope hfirst hsecond
  exact ⟨rfl, rfl, tree, rfl⟩

/-- The graph with nodes added under the handles that are still to be given out. -/
def Extends (added : List Node) (g g' : Graph) : Prop :=
  added.map (·.id) = List.range' g.nextId added.length ∧ ∃ scope, g' = { g with
    nodes := g.nodes ++ added, nextId := g.nextId + added.length, scope }

/-- Steps that each add a node add them in order and give back their handles. -/
theorem extends_of_mapM {α β : Type} {l : List α} {f : α → GraphM β} {Made : α → Node → Prop}
    (handle : β → NodeId)
    (hf : ∀ a ∈ l, ∀ t b t', f a t = .ok b t' →
      ∃ node, Made a node ∧ node.id = handle b ∧ Adds node t t')
    {g g' : Graph} {bs : List β} (h : l.mapM f g = .ok bs g') :
    ∃ added, Extends added g g' ∧ List.Forall₂ Made l added ∧
      bs.map handle = added.map (·.id) := by
  induction l generalizing g bs with
  | nil =>
    obtain ⟨rfl, rfl⟩ := pure_eq_ok.mp h
    exact ⟨[], ⟨rfl, g.scope, by simp⟩, .nil, rfl⟩
  | cons a l ih =>
    rw [List.mapM_cons] at h
    obtain ⟨b, t, hb, h⟩ := bind_eq_ok.mp h
    obtain ⟨cs, t', hcs, h⟩ := bind_eq_ok.mp h
    obtain ⟨rfl, rfl⟩ := pure_eq_ok.mp h
    obtain ⟨node, hmade, hhandle, hid, scope, rfl⟩ := hf a (by simp) g b t hb
    obtain ⟨added, ⟨hids, tree, rfl⟩, hall, hhandles⟩ :=
      ih (fun c hc => hf c (List.mem_cons_of_mem a hc)) hcs
    refine ⟨node :: added, ⟨?_, tree, ?_⟩, .cons hmade hall, ?_⟩
    · rw [List.map_cons, hids, hid, List.length_cons, List.range'_succ]
    · simp [Nat.add_comm, Nat.add_left_comm]
    · rw [List.map_cons, List.map_cons, hhandle, hhandles]

/-- Handles fit together when nodes are added. -/
theorem Extends.wellFormed {added : List Node} {g g' : Graph} (h : Extends added g g')
    (hw : g.WellFormed) : g'.WellFormed := by
  obtain ⟨hids, scope, rfl⟩ := h
  refine ⟨?_, ?_, fun edge he => ?_⟩
  · simp only [List.map_append, List.mem_append, hids, List.mem_range'_1]
    rintro id (hid | hid)
    · exact (hw.below id hid).trans_le (Nat.le_add_right _ _)
    · exact hid.2
  · rw [List.map_append, hids]
    refine hw.nodup.append List.nodup_range' fun id hid hnew => ?_
    exact absurd (List.mem_range'_1.mp hnew).1 (Nat.not_le.mpr (hw.below id hid))
  · rw [List.map_append]
    obtain ⟨hs, ht⟩ := hw.closed edge he
    exact ⟨List.mem_append_left _ hs, List.mem_append_left _ ht⟩

/-- A node may be taken out and edges be added that join others. -/
theorem WellFormed.replaceEdges {graph : Graph} (h : graph.WellFormed) {id : NodeId}
    {edges : List Edge} (hnew : ∀ edge ∈ edges,
      (edge.source ∈ graph.nodes.map (·.id) ∧ edge.source ≠ id) ∧
        edge.target ∈ graph.nodes.map (·.id) ∧ edge.target ≠ id) :
    ((graph.removeNode id).addEdges edges).WellFormed := by
  have hids : ∀ other, other ∈ (graph.removeNode id).nodes.map (·.id) ↔
      other ∈ graph.nodes.map (·.id) ∧ other ≠ id := by
    intro other
    simp only [removeNode, List.mem_map, List.mem_filter, decide_eq_true_eq]
    constructor
    · rintro ⟨node, ⟨hn, hne⟩, rfl⟩
      exact ⟨⟨node, hn, rfl⟩, hne⟩
    · rintro ⟨⟨node, hn, rfl⟩, hne⟩
      exact ⟨node, ⟨hn, hne⟩, rfl⟩
  refine ⟨fun other ho => h.below other ((hids other).mp ho).1, ?_, fun edge he => ?_⟩
  · exact (List.filter_sublist.map _).nodup h.nodup
  · change edge.source ∈ (graph.removeNode id).nodes.map (·.id) ∧
      edge.target ∈ (graph.removeNode id).nodes.map (·.id)
    rw [hids, hids]
    rcases List.mem_append.mp he with he | he
    · obtain ⟨hin, hfree⟩ := List.mem_filter.mp he
      obtain ⟨hs, ht⟩ := h.closed edge hin
      have hfree : edge.source ≠ id ∧ edge.target ≠ id := by simpa [Edge.touches] using hfree
      exact ⟨⟨hs, hfree.1⟩, ht, hfree.2⟩
    · exact hnew edge he

end Pipework.Graph
