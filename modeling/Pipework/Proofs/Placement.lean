import Mathlib.Order.Bounds.Defs
import Pipework.Proofs.Calls

/-!
# The places of nodes

Nodes get their places one after another, and each place goes to the oldest node of which all
predecessors have places already. Without a circle of edges all nodes get places in this way. With
one, the nodes without places are those on circles and all that come behind them, since a node that
comes behind no circle has a first one that waits for nothing among those that it waits for.
-/

namespace Pipework.Graph

open Step Relation

/-- The node can have the place behind the others: it is none of them, and all that lead to it are
among them. -/
def Ready (ids : List NodeId) (edges : List Edge) (before : List NodeId) (id : NodeId) : Prop :=
  id ∈ ids ∧ id ∉ before ∧ ∀ edge ∈ edges, edge.target = id → edge.source ∈ before

/-- The node is on a circle, or comes behind one. -/
def BehindCircle (edges : List Edge) (id : NodeId) : Prop :=
  ∃ start, Reaches edges start start ∧ ReflTransGen (Leads edges) start id

theorem BehindCircle.of_leads {edges : List Edge} {u v : NodeId} (h : BehindCircle edges u)
    (hl : Leads edges u v) : BehindCircle edges v := by
  obtain ⟨start, hcircle, hpath⟩ := h
  exact ⟨start, hcircle, hpath.tail hl⟩

/-! ### One place after another -/

/-- Behind a node that has its place, the others can have the places that they could have if it had
never been there. -/
theorem ready_cons {remaining : List Node} {edges : List Edge} {before : List NodeId}
    {first id : NodeId} : Ready (remaining.map (·.id)) edges (first :: before) id ↔
      Ready ((remaining.filter (·.id != first)).map (·.id)) (edges.filter (·.source != first))
        before id := by
  have hids : id ∈ (remaining.filter (·.id != first)).map (·.id) ↔
      id ∈ remaining.map (·.id) ∧ id ≠ first := by
    simp only [List.mem_map, List.mem_filter, bne_iff_ne]
    grind
  have hedges : (∀ edge ∈ edges, edge.target = id → edge.source ∈ first :: before) ↔
      ∀ edge ∈ edges.filter (·.source != first), edge.target = id → edge.source ∈ before := by
    simp only [List.mem_filter, List.mem_cons, bne_iff_ne]
    grind
  rw [Ready, Ready, hids, hedges, List.mem_cons, not_or, and_assoc, and_assoc]

/-- The first place goes to the first node that no edge ends at. -/
theorem ready_nil {remaining : List Node} {edges : List Edge} {id : NodeId} :
    Ready (remaining.map (·.id)) edges [] id ↔
      ∃ node ∈ remaining, node.id = id ∧ edges.all (·.target != node.id) = true := by
  simp only [Ready, List.mem_map, List.not_mem_nil, not_false_eq_true, true_and,
    List.all_eq_true, bne_iff_ne]
  grind

section Placing

variable {count : Nat} {remaining placed left : List Node} {edges : List Edge}

/-- Each place goes to the oldest node that can have it. -/
theorem isLeast_of_placeNodes (hrise : remaining.Pairwise (·.id < ·.id))
    (h : placeNodes count remaining edges = (placed, left)) {place : Nat} {node : Node}
    (hat : placed[place]? = some node) : IsLeast
      {id | Ready (remaining.map (·.id)) edges ((placed.take place).map (·.id)) id} node.id := by
  induction count generalizing remaining edges placed place with
  | zero =>
    obtain ⟨rfl, -⟩ : placed = [] ∧ left = remaining := by simpa [placeNodes, eq_comm] using h
    simp at hat
  | succ count ih =>
    rcases placeNodes_succ h with ⟨-, rfl, -⟩ | ⟨first, later, hf, rfl, hp⟩
    · simp at hat
    · cases place with
      | zero =>
        obtain rfl : first = node := by simpa using hat
        obtain ⟨hready, skipped, others, rfl, hskipped⟩ := List.find?_eq_some_iff_append.mp hf
        refine ⟨ready_nil.mpr ⟨first, by simp, rfl, hready⟩, fun id hid => ?_⟩
        obtain ⟨other, hother, rfl, hfree⟩ := ready_nil.mp hid
        rcases List.mem_append.mp hother with hin | hin
        · exact absurd hfree (by simpa using hskipped other hin)
        · rcases List.mem_cons.mp hin with rfl | hin
          · exact le_rfl
          · exact (List.rel_of_pairwise_cons (List.pairwise_append.mp hrise).2.1 hin).le
      | succ place =>
        have hat : later[place]? = some node := by simpa using hat
        have hleast := ih (hrise.filter _) hp hat
        simpa only [List.take_succ_cons, List.map_cons, ready_cons] using hleast

/-- No node that is left without a place can have the next one. -/
theorem not_ready_of_placeNodes (hcount : remaining.length ≤ count)
    (h : placeNodes count remaining edges = (placed, left)) (id : NodeId) :
    ¬ Ready (remaining.map (·.id)) edges (placed.map (·.id)) id := by
  induction count generalizing remaining edges placed with
  | zero =>
    obtain rfl : remaining = [] := by simpa using hcount
    simp [Ready]
  | succ count ih =>
    rcases placeNodes_succ h with ⟨hnone, rfl, -⟩ | ⟨first, later, hf, rfl, hp⟩
    · rw [List.map_nil, ready_nil]
      rintro ⟨node, hn, -, hfree⟩
      exact hnone node hn hfree
    · have hlt : (remaining.filter (·.id != first.id)).length < remaining.length :=
        List.length_filter_lt_length_iff_exists.mpr
          ⟨first, List.mem_of_find?_eq_some hf, by simp⟩
      rw [List.map_cons, ready_cons]
      exact ih (by omega) hp

/-- Every node either has a place or is left, and those that are left stand as they did. -/
theorem perm_of_placeNodes (hrise : remaining.Pairwise (·.id < ·.id))
    (h : placeNodes count remaining edges = (placed, left)) :
    (placed ++ left).Perm remaining ∧ left.Sublist remaining := by
  induction count generalizing remaining edges placed with
  | zero =>
    obtain ⟨rfl, rfl⟩ : placed = [] ∧ left = remaining := by simpa [placeNodes, eq_comm] using h
    exact ⟨.refl _, .refl _⟩
  | succ count ih =>
    rcases placeNodes_succ h with ⟨-, rfl, rfl⟩ | ⟨first, later, hf, rfl, hp⟩
    · exact ⟨.refl _, .refl _⟩
    · obtain ⟨hperm, hsub⟩ := ih (hrise.filter _) hp
      have hnodup : (remaining.map (·.id)).Nodup :=
        List.pairwise_map.mpr (hrise.imp fun hlt => hlt.ne)
      have hsplit := List.filter_append_perm (·.id == first.id) remaining
      rw [filter_eq_singleton_of_nodup hnodup (List.mem_of_find?_eq_some hf)] at hsplit
      exact ⟨(hperm.cons first).trans hsplit, hsub.trans List.filter_sublist⟩

end Placing

/-! ### Who is left -/

section Leaving

variable {nodes placed left : List Node} {edges : List Edge}
  (hrise : nodes.Pairwise (·.id < ·.id))
  (h : placeNodes nodes.length nodes edges = (placed, left))

include hrise h

/-- Whatever leads to a node with a place has an earlier place. -/
theorem earlier_of_reaches {place : Nat} {u v : NodeId}
    (hat : (placed.map (·.id))[place]? = some v) (hr : Reaches edges u v) :
    ∃ earlier < place, (placed.map (·.id))[earlier]? = some u := by
  have hstep : ∀ {place : Nat} {u v : NodeId}, (placed.map (·.id))[place]? = some v →
      Leads edges u v → ∃ earlier < place, (placed.map (·.id))[earlier]? = some u := by
    rintro place _ v hat ⟨edge, he, rfl, rfl⟩
    rw [List.getElem?_map, Option.map_eq_some_iff] at hat
    obtain ⟨node, hnode, hid⟩ := hat
    have hsource := (isLeast_of_placeNodes hrise h hnode).1.2.2 edge he hid.symm
    rw [List.map_take] at hsource
    obtain ⟨earlier, hlt, hsource⟩ := List.mem_take_iff_getElem.mp hsource
    exact ⟨earlier, by omega, List.getElem?_eq_some_iff.mpr ⟨by omega, hsource⟩⟩
  induction hr using TransGen.head_induction_on generalizing place with
  | single hl => exact hstep hat hl
  | head hl _ ih =>
    obtain ⟨middle, hlt, hmiddle⟩ := ih hat
    obtain ⟨earlier, hlt', hearlier⟩ := hstep hmiddle hl
    exact ⟨earlier, hlt'.trans hlt, hearlier⟩

/-- The nodes with places come behind no circle. -/
theorem not_behindCircle_of_placed {node : Node} (hn : node ∈ placed) :
    ¬ BehindCircle edges node.id := by
  rintro ⟨start, hcircle, hpath⟩
  obtain ⟨place, hat⟩ := List.mem_iff_getElem?.mp (List.mem_map_of_mem (f := (·.id)) hn)
  have hstart : ∃ place : Nat, (placed.map (·.id))[place]? = some start := by
    rcases reflTransGen_iff_eq_or_transGen.mp hpath with heq | hr
    · exact ⟨place, heq ▸ hat⟩
    · obtain ⟨earlier, -, hearlier⟩ := earlier_of_reaches hrise h hat hr
      exact ⟨earlier, hearlier⟩
  obtain ⟨first, hfirst⟩ := hstart
  obtain ⟨earlier, hlt, hearlier⟩ := earlier_of_reaches hrise h hfirst hcircle
  have hnodup : (placed.map (·.id)).Nodup := by
    have hall : (nodes.map (·.id)).Nodup := List.pairwise_map.mpr (hrise.imp fun hlt => hlt.ne)
    have hperm := ((perm_of_placeNodes hrise h).1.map (·.id)).nodup_iff.mpr hall
    rw [List.map_append] at hperm
    exact (List.nodup_append.mp hperm).1
  exact hlt.ne (place_unique hnodup hearlier hfirst)

/-- The nodes without places come behind circles. Otherwise the edges that lead to nodes behind no
circle would make no circle, and some node among those without places would wait for none of them,
so that it could have the next place. -/
theorem behindCircle_of_left (hc : Closed (nodes.map (·.id)) edges) {node : Node}
    (hn : node ∈ left) : BehindCircle edges node.id := by
  classical
  obtain ⟨hperm, hsub⟩ := perm_of_placeNodes hrise h
  by_contra hno
  let tame := edges.filter fun edge => ¬ BehindCircle edges edge.target
  let stuck := (left.map (·.id)).filter fun id => ¬ BehindCircle edges id
  have hacyclic : Acyclic tame := by
    intro v hr
    obtain ⟨w, -, edge, he, -, rfl⟩ := TransGen.tail'_iff.mp hr
    obtain ⟨-, hfree⟩ := List.mem_filter.mp he
    exact of_decide_eq_true hfree ⟨_, Reaches.mono (List.filter_subset_self _) hr, .refl⟩
  have hne : stuck ≠ [] := List.ne_nil_of_mem
    (List.mem_filter.mpr ⟨List.mem_map_of_mem hn, decide_eq_true hno⟩)
  obtain ⟨first, hfirst, hnone⟩ := hacyclic.exists_first hne
  obtain ⟨hleft, hfree⟩ := List.mem_filter.mp hfirst
  have hfree : ¬ BehindCircle edges first := of_decide_eq_true hfree
  obtain ⟨other, hother, rfl⟩ := List.mem_map.mp hleft
  have hids : (nodes.map (·.id)).Nodup := List.pairwise_map.mpr (hrise.imp fun hlt => hlt.ne)
  have hperm := hperm.map (·.id)
  rw [List.map_append] at hperm
  refine not_ready_of_placeNodes le_rfl h other.id
    ⟨List.mem_map_of_mem (hsub.subset hother), fun hin => ?_, fun edge he ht => ?_⟩
  · exact (List.nodup_append.mp (hperm.nodup_iff.mpr hids)).2.2 _ hin _ hleft rfl
  · rcases List.mem_append.mp (hperm.mem_iff.mpr (hc edge he).1) with hin | hin
    · exact hin
    · have hwild : edge.source ∈ stuck := List.mem_filter.mpr ⟨hin, decide_eq_true
        fun hbehind => hfree (BehindCircle.of_leads hbehind ⟨edge, he, rfl, ht⟩)⟩
      have htame : edge ∈ tame := List.mem_filter.mpr ⟨he, decide_eq_true (ht ▸ hfree)⟩
      exact absurd ⟨edge, htame, rfl, ht⟩ (hnone edge.source hwild)

end Leaving

/-! ### Main result -/

/-- **The order of the nodes is exact.** In a graph whose nodes stand in the order of their handles and
whose edges join them, either there is no circle, and the order has each node once, every edge leads
forward in it, and each place has the least handle of those nodes that have no place before and all of
whose predecessors have one; or there is a circle, and just the nodes on circles and behind them are
named, sorted. -/
theorem topologicalOrder_exact (graph : Graph) (hrise : graph.nodes.Pairwise (·.id < ·.id))
    (hc : Closed (graph.nodes.map (·.id)) graph.edges) :
    (Acyclic graph.edges ∧ ∃ order, graph.topologicalOrder = .ok order ∧
      order.Perm graph.nodes ∧
      (∀ edge ∈ graph.edges, ∃ i j : Nat, i < j ∧ (order.map (·.id))[i]? = some edge.source ∧
        (order.map (·.id))[j]? = some edge.target) ∧
      ∀ (place : Nat) (node : Node), order[place]? = some node → IsLeast
        {id | Ready (graph.nodes.map (·.id)) graph.edges ((order.take place).map (·.id)) id}
        node.id) ∨
    (¬ Acyclic graph.edges ∧ ∃ (stuck : List Node) (names : List String),
      graph.topologicalOrder = .error (.cycle names) ∧
      stuck.Sublist graph.nodes ∧
      (∀ node ∈ graph.nodes, node ∈ stuck ↔ BehindCircle graph.edges node.id) ∧
      names.Perm (stuck.map (·.name)) ∧ names.Pairwise (· ≤ ·)) := by
  cases hp : placeNodes graph.nodes.length graph.nodes graph.edges with
  | mk placed left =>
    obtain ⟨hperm, hsub⟩ := perm_of_placeNodes hrise hp
    by_cases ha : Acyclic graph.edges
    · obtain rfl : left = [] := by
        have hnil := placeNodes_snd_eq_nil ha hc le_rfl
        rwa [hp] at hnil
      rw [List.append_nil] at hperm
      refine .inl ⟨ha, placed, by rw [topologicalOrder_eq, hp], hperm, fun edge he => ?_,
        fun place node hat => isLeast_of_placeNodes hrise hp hat⟩
      have htarget := (hperm.map (·.id)).mem_iff.mpr (hc edge he).2
      obtain ⟨place, hat⟩ := List.mem_iff_getElem?.mp htarget
      obtain ⟨earlier, hlt, hearlier⟩ :=
        earlier_of_reaches hrise hp hat (.single (leads_of_mem he))
      exact ⟨earlier, place, hlt, hearlier, hat⟩
    · have hne : left ≠ [] := by
        rintro rfl
        obtain ⟨names, hcycle⟩ := topologicalOrder_eq_cycle ha hc
        rw [topologicalOrder_eq, hp] at hcycle
        cases hcycle
      refine .inr ⟨ha, left, (left.map (·.name)).mergeSort fun a b => decide (a ≤ b), ?_, hsub,
        fun node hn => ⟨fun hin => ?_, fun hbehind => ?_⟩, List.mergeSort_perm _ _, ?_⟩
      · rw [topologicalOrder_eq, hp]
        cases left with
        | nil => exact absurd rfl hne
        | cons => rfl
      · exact behindCircle_of_left hrise hp hc hin
      · exact (List.mem_append.mp (hperm.mem_iff.mpr hn)).resolve_left fun hplaced =>
          not_behindCircle_of_placed hrise hp hplaced hbehind
      · have hsorted := @List.pairwise_mergeSort _ (fun a b : String => decide (a ≤ b))
          (fun a b c hab hbc => decide_eq_true
            (String.le_trans (of_decide_eq_true hab) (of_decide_eq_true hbc)))
          (fun a b => by
            simpa using String.le_total a b)
          (left.map (·.name))
        exact hsorted.imp of_decide_eq_true

/-- Tea is poured when the water boils and the leaves are in, and the water is asked for twice. -/
def teatime : Graph where
  pipeline := {}
  nodes := [.ofJob 0 { id := "pour" }, .ofJob 1 { id := "boil" }, .ofJob 2 { id := "fill" }]
  edges := [.after 1 0, .after 2 0, .after 1 0]
  scope := .initial
  nextId := 3

/-- Two who wait for each other, one who waits for one of them, and one who does not wait. -/
def standoff : Graph where
  pipeline := {}
  nodes := [.ofJob 0 { id := "you" }, .ofJob 1 { id := "after" }, .ofJob 3 { id := "guest" },
    .ofJob 4 { id := "host" }]
  edges := [.after 0 1, .after 1 0, .after 1 3, .after 4 3]
  scope := .initial
  nextId := 5

/-- The tea is made in order, and the host is the only one who is not stuck. -/
theorem host_is_not_stuck :
    (teatime.nodes.Pairwise (·.id < ·.id) ∧
      Closed (teatime.nodes.map (·.id)) teatime.edges ∧
      ∃ order, teatime.topologicalOrder = .ok order ∧ order.Perm teatime.nodes) ∧
    (standoff.nodes.Pairwise (·.id < ·.id) ∧
      Closed (standoff.nodes.map (·.id)) standoff.edges ∧
      ∃ (stuck : List Node) (names : List String),
        standoff.topologicalOrder = .error (.cycle names) ∧ names.Perm (stuck.map (·.name)) ∧
        ∀ node ∈ standoff.nodes, node ∈ stuck ↔ BehindCircle standoff.edges node.id) := by
  have hrise : teatime.nodes.Pairwise (·.id < ·.id) := by decide
  have hc : Closed (teatime.nodes.map (·.id)) teatime.edges := by
    unfold Closed
    decide
  have hrise' : standoff.nodes.Pairwise (·.id < ·.id) := by decide
  have hc' : Closed (standoff.nodes.map (·.id)) standoff.edges := by
    unfold Closed
    decide
  have hrank : Rising (3 - ·) teatime.edges := by
    unfold Rising
    decide
  have hcircle : ¬ Acyclic standoff.edges := fun ha =>
    ha 0 (.tail (.single ⟨.after 0 1, by decide, rfl, rfl⟩) ⟨.after 1 0, by decide, rfl, rfl⟩)
  refine ⟨⟨hrise, hc, ?_⟩, hrise', hc', ?_⟩
  · rcases topologicalOrder_exact teatime hrise hc with ⟨-, order, horder, hperm, -⟩ | ⟨hno, -⟩
    · exact ⟨order, horder, hperm⟩
    · exact absurd hrank.acyclic hno
  · rcases topologicalOrder_exact standoff hrise' hc' with ⟨ha, -⟩ |
      ⟨-, stuck, names, hcycle, -, hstuck, hperm, -⟩
    · exact absurd ha hcircle
    · exact ⟨stuck, names, hcycle, hperm, hstuck⟩

end Pipework.Graph
