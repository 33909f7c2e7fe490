import Pipework.Graph.Reduce
import Pipework.Proofs.Step
import Pipework.Proofs.TopologicalOrder

/-!
# What dropping implied edges leaves

The edges that stay are the transitive reduction: the first edge of each pair of nodes that no
longer path joins. What can be reached stays the same, by induction on how far the ranks of
two nodes are apart, because both parts of a detour are shorter than the edge it replaces.
-/

namespace Pipework.Graph

/-- No edge before this place joins the same two nodes. -/
def IsFirst (edges : List Edge) (place : Nat) (edge : Edge) : Prop :=
  ∀ earlier ∈ edges.take place, ¬ (earlier.source = edge.source ∧ earlier.target = edge.target)

instance (edges : List Edge) (place : Nat) (edge : Edge) : Decidable (IsFirst edges place edge) :=
  inferInstanceAs (Decidable (∀ earlier ∈ edges.take place, _))

/-- The edge is the first one between its nodes, and no longer path joins them. -/
def IsDirect (edges : List Edge) (place : Nat) (edge : Edge) : Prop :=
  IsFirst edges place edge ∧ ¬ Detour edges edge.source edge.target

open Classical in
/-- The edges that are direct at their place, in their order. -/
noncomputable def transitiveReduction (edges : List Edge) : List Edge :=
  (edges.zipIdx.filter fun entry => IsDirect edges entry.2 entry.1).map (·.1)

theorem mem_successors {edges : List Edge} {u v : NodeId} :
    v ∈ successors edges u ↔ Leads edges u v := by
  simp [successors, Leads, and_assoc]

/-- The table holds for each node exactly the nodes that come behind it. -/
theorem mem_reachTable {edges : List Edge} {order : List NodeId} (ho : Ordered edges order)
    {u : NodeId} (hu : u ∈ order) (v : NodeId) :
    v ∈ ((reachTable edges order).lookup u).getD [] ↔ Reaches edges u v := by
  induction order generalizing u v with
  | nil => simp at hu
  | cons id later ih =>
    obtain ⟨hid, hnext, hlater⟩ := ho
    by_cases he : u = id
    · subst he
      have hhead : Reaches edges u v ↔
          ∃ next, Leads edges u next ∧ (v = next ∨ Reaches edges next v) :=
        Relation.TransGen.head'_iff.trans (by simp only [Relation.reflTransGen_iff_eq_or_transGen])
      rw [hhead]
      simp only [reachTable, List.lookup_cons, beq_self_eq_true, Option.getD_some,
        List.mem_eraseDups, List.mem_flatMap, List.mem_cons, mem_successors]
      constructor
      · rintro ⟨next, hl, hv⟩
        exact ⟨next, hl, hv.imp_right (ih hlater (hnext next hl) v).mp⟩
      · rintro ⟨next, hl, hv⟩
        exact ⟨next, hl, hv.imp_right (ih hlater (hnext next hl) v).mpr⟩
    · have hne : (u == id) = false := by simpa using he
      simp only [reachTable, List.lookup_cons, hne]
      exact ih hlater ((List.mem_cons.mp hu).resolve_left he) v

/-- An edge is implied exactly when a longer path joins its ends. Without a circle that path
never comes by the target early. -/
theorem isImplied_iff_detour {edges : List Edge} {order : List NodeId}
    (ho : Ordered edges order) (hc : Closed order edges) (edge : Edge) :
    isImplied edges (reachTable edges order) edge = true ↔
      Detour edges edge.source edge.target := by
  have ha := (ho.rising hc).acyclic
  have hmem : ∀ next, Leads edges edge.source next → next ∈ order := by
    rintro next ⟨e, he, -, rfl⟩
    exact (hc e he).2
  simp only [isImplied, List.any_eq_true, mem_successors, Bool.and_eq_true, bne_iff_ne,
    List.contains_iff_mem, Detour]
  constructor
  · rintro ⟨next, hl, -, hr⟩
    exact ⟨next, hl, (mem_reachTable ho (hmem next hl) _).mp hr⟩
  · rintro ⟨next, hl, hr⟩
    refine ⟨next, hl, fun heq => ?_, (mem_reachTable ho (hmem next hl) _).mpr hr⟩
    exact ha edge.target (heq ▸ hr)

/-- With `before` done already, the edges that are kept are those that pass the test and have no
edge between the same nodes before them. The test must not tell such edges apart. -/
theorem keepFirst_eq_filter {test : Edge → Bool}
    (htest : ∀ e f : Edge, e.source = f.source → e.target = f.target → test e = test f)
    {before edges : List Edge} {seen : List (NodeId × NodeId)}
    (hseen : ∀ e, test e = true → ((e.source, e.target) ∈ seen ↔
      ∃ earlier ∈ before, earlier.source = e.source ∧ earlier.target = e.target)) :
    keepFirst test seen edges = ((edges.zipIdx before.length).filter fun entry =>
      test entry.1 && decide (IsFirst (before ++ edges) entry.2 entry.1)).map (·.1) := by
  induction edges generalizing before seen with
  | nil => simp [keepFirst]
  | cons edge rest ih =>
    have hsplit : before ++ edge :: rest = (before ++ [edge]) ++ rest := by simp
    have htake : (before ++ edge :: rest).take before.length = before := by simp
    have hkeep : (test edge && !seen.contains (edge.source, edge.target)) =
        (test edge && decide (IsFirst (before ++ edge :: rest) before.length edge)) := by
      cases ht : test edge with
      | false => rfl
      | true =>
        have h := hseen edge ht
        rw [Bool.true_and, Bool.true_and, Bool.eq_iff_iff]
        simp only [Bool.not_eq_true', ← Bool.not_eq_true, List.contains_iff_mem, h, IsFirst,
          htake, decide_eq_true_eq, not_exists, not_and]
    have hlength : before.length + 1 = (before ++ [edge]).length := by simp
    rw [List.zipIdx_cons, List.filter_cons, hlength, keepFirst, hkeep]
    split
    next hkept =>
      rw [List.map_cons, hsplit]
      congr 1
      refine ih fun e he => ?_
      rw [List.mem_cons, hseen e he]
      simp only [List.mem_append, List.mem_singleton, Prod.mk.injEq]
      constructor
      · rintro (⟨hs, ht⟩ | ⟨earlier, hm, hends⟩)
        · exact ⟨edge, .inr rfl, hs.symm, ht.symm⟩
        · exact ⟨earlier, .inl hm, hends⟩
      · rintro ⟨earlier, hm | rfl, hends⟩
        · exact .inr ⟨earlier, hm, hends⟩
        · exact .inl ⟨hends.1.symm, hends.2.symm⟩
    next hdropped =>
      rw [hsplit]
      refine ih fun e he => ?_
      rw [hseen e he]
      simp only [List.mem_append, List.mem_singleton]
      constructor
      · rintro ⟨earlier, hm, hends⟩
        exact ⟨earlier, .inl hm, hends⟩
      rintro ⟨earlier, hm | rfl, hends⟩
      · exact ⟨earlier, hm, hends⟩
      -- An edge between the same nodes passes the test, so it was dropped for an earlier one.
      · rw [htest earlier e hends.1 hends.2, he, Bool.true_and, decide_eq_true_eq, IsFirst,
          htake] at hdropped
        push Not at hdropped
        obtain ⟨first, hm, hs, ht⟩ := hdropped
        exact ⟨first, hm, hs.trans hends.1, ht.trans hends.2⟩

/-- What is computed from an order of the nodes is the transitive reduction. -/
theorem directEdges_eq_transitiveReduction {edges : List Edge} {order : List NodeId}
    (ho : Ordered edges order) (hc : Closed order edges) :
    directEdges edges order = transitiveReduction edges := by
  have htest : ∀ e f : Edge, e.source = f.source → e.target = f.target →
      (!isImplied edges (reachTable edges order) e) =
        !isImplied edges (reachTable edges order) f := by
    intro e f hs ht
    rw [isImplied, isImplied, hs, ht]
  have hfilter := @keepFirst_eq_filter _ htest [] edges [] (by simp)
  rw [directEdges, hfilter, transitiveReduction]
  congr 1
  refine List.filter_congr fun entry _ => ?_
  rw [Bool.eq_iff_iff]
  simp only [List.nil_append, Bool.and_eq_true, Bool.not_eq_true', decide_eq_true_eq, IsDirect,
    ← isImplied_iff_detour ho hc, Bool.not_eq_true]
  exact and_comm

theorem mem_transitiveReduction {edges : List Edge} {edge : Edge} :
    edge ∈ transitiveReduction edges ↔
      ∃ place, edges[place]? = some edge ∧ IsDirect edges place edge := by
  simp [transitiveReduction, List.mem_zipIdx_iff_getElem?]

theorem transitiveReduction_sublist (edges : List Edge) :
    (transitiveReduction edges).Sublist edges := by
  conv_rhs => rw [← List.zipIdx_map_fst 0 edges]
  exact List.filter_sublist.map _

theorem transitiveReduction_subset (edges : List Edge) : transitiveReduction edges ⊆ edges :=
  (transitiveReduction_sublist edges).subset

/-- Any two nodes are joined by one edge at most. -/
theorem pairwise_transitiveReduction (edges : List Edge) :
    (transitiveReduction edges).Pairwise fun e f =>
      ¬ (e.source = f.source ∧ e.target = f.target) := by
  have hplaces : edges.zipIdx.Pairwise fun a b => a.1 ∈ edges.take b.2 := by
    refine List.pairwise_iff_getElem.mpr fun i j hi hj hij => ?_
    rw [List.length_zipIdx] at hi hj
    simp only [List.getElem_zipIdx, Nat.zero_add]
    exact List.mem_take_iff_getElem.mpr ⟨i, by omega, rfl⟩
  rw [transitiveReduction, List.pairwise_map]
  refine (hplaces.filter _).imp_of_mem fun {a b} _ hb hab hends => ?_
  have hdirect : IsDirect edges b.2 b.1 := by simpa using (List.mem_filter.mp hb).2
  exact hdirect.1 a.1 hab hends

/-- Where no longer path joins two nodes, the first of the edges between them stays. -/
theorem leads_transitiveReduction {edges : List Edge} {u v : NodeId} (hl : Leads edges u v)
    (hd : ¬ Detour edges u v) : Leads (transitiveReduction edges) u v := by
  classical
  have hex : ∃ place : Nat, ∃ edge : Edge,
      edges[place]? = some edge ∧ edge.source = u ∧ edge.target = v := by
    obtain ⟨edge, he, hends⟩ := hl
    obtain ⟨place, hp⟩ := List.getElem?_of_mem he
    exact ⟨place, edge, hp, hends⟩
  obtain ⟨edge, hp, rfl, rfl⟩ := Nat.find_spec hex
  refine leads_of_mem (mem_transitiveReduction.mpr ⟨Nat.find hex, hp, ?_, hd⟩)
  intro earlier hm hends
  obtain ⟨i, hi, rfl⟩ := List.mem_take_iff_getElem.mp hm
  exact Nat.find_min hex (m := i) (by omega) ⟨edges[i], by simp, hends⟩

/-- Induction on how far the ranks are apart: an edge with a detour gives way to the two parts
of the detour, between ranks that are closer. -/
theorem reaches_transitiveReduction {edges : List Edge} {rank : NodeId → Nat}
    (hrank : Rising rank edges) {u v : NodeId} (h : Reaches edges u v) :
    Reaches (transitiveReduction edges) u v := by
  induction hd : rank v - rank u using Nat.strong_induction_on generalizing u v with
  | h d ih =>
    by_cases hdetour : Detour edges u v
    · obtain ⟨w, hl, hr⟩ := hdetour
      have huw := hrank.lt_of_reaches (.single hl)
      have hwv := hrank.lt_of_reaches hr
      have hfirst := ih (rank w - rank u) (by omega) (.single hl) rfl
      exact hfirst.trans (ih (rank v - rank w) (by omega) hr rfl)
    · have hl := (reaches_iff_leads_or_detour.mp h).resolve_right hdetour
      exact .single (leads_transitiveReduction hl hdetour)

/-- Without any one of the edges that stay, its ends are no longer joined. -/
theorem not_reaches_eraseIdx {edges : List Edge} {place : Nat}
    (hp : place < (transitiveReduction edges).length) :
    ¬ Reaches ((transitiveReduction edges).eraseIdx place)
      (transitiveReduction edges)[place].source (transitiveReduction edges)[place].target := by
  intro h
  obtain ⟨_, _, hdirect⟩ := mem_transitiveReduction.mp (List.getElem_mem hp)
  rcases reaches_iff_leads_or_detour.mp h with ⟨edge, he, hends⟩ | hd
  · obtain ⟨i, hi, hne, rfl⟩ := List.mem_eraseIdx_iff_getElem.mp he
    have hpair := List.pairwise_iff_getElem.mp (pairwise_transitiveReduction edges)
    rcases Nat.lt_or_gt_of_ne hne with hlt | hgt
    · exact hpair i place hi hp hlt hends
    · exact hpair place i hp hi hgt ⟨hends.1.symm, hends.2.symm⟩
  · have hsub := ((List.eraseIdx_sublist _ place).trans (transitiveReduction_sublist edges)).subset
    exact hdirect.2 (hd.mono hsub)

theorem transitiveReduction_transitiveReduction (edges : List Edge) :
    transitiveReduction (transitiveReduction edges) = transitiveReduction edges := by
  conv_rhs => rw [← List.zipIdx_map_fst 0 (transitiveReduction edges)]
  rw [transitiveReduction]
  congr 1
  refine List.filter_eq_self.mpr fun entry hm => ?_
  have hp := List.mem_zipIdx_iff_getElem?.mp hm
  obtain ⟨_, _, hdirect⟩ := mem_transitiveReduction.mp (List.mem_of_getElem? hp)
  have hpair := List.pairwise_iff_getElem.mp (pairwise_transitiveReduction edges)
  obtain ⟨hlt, he⟩ := List.getElem?_eq_some_iff.mp hp
  simp only [decide_eq_true_eq]
  refine ⟨fun earlier hearlier hends => ?_, fun hd => ?_⟩
  · obtain ⟨i, hi, rfl⟩ := List.mem_take_iff_getElem.mp hearlier
    exact hpair i entry.2 (by omega) hlt (by omega) (he ▸ hends)
  · exact hdirect.2 (hd.mono (transitiveReduction_subset edges))

/-- The reduction of a graph that can be put in order. -/
theorem reduce_of_acyclic {graph : Graph} (ha : Acyclic graph.edges)
    (hc : Closed (graph.nodes.map (·.id)) graph.edges) :
    reduce graph = .ok (graph.edges.length - (transitiveReduction graph.edges).length)
      { graph with edges := transitiveReduction graph.edges } := by
  obtain ⟨order, horder⟩ := exists_topologicalOrder ha hc
  obtain ⟨hord, hids, -⟩ := ordered_of_topologicalOrder hc horder
  have hkept := directEdges_eq_transitiveReduction hord fun edge he => by
    simpa only [hids] using hc edge he
  rw [reduce, ← hkept]
  change (ofExcept graph.topologicalOrder >>= _) graph = _
  rw [horder]
  rfl

/-- A graph that cannot be put in order is left alone. -/
theorem reduce_of_error {graph : Graph} {e : GraphError}
    (h : graph.topologicalOrder = .error e) : reduce graph = .error e graph := by
  rw [reduce]
  change (ofExcept graph.topologicalOrder >>= _) graph = _
  rw [h]
  rfl

/-- Without a circle the transitive reduction stays: the same nodes come before others, no edge
can be spared any more, the dropped edges are counted, and doing it again drops none. With a
circle nothing changes. -/
theorem reduce_exact (graph : Graph) (hc : Closed (graph.nodes.map (·.id)) graph.edges) :
    (Acyclic graph.edges → ∃ removed kept,
      reduce graph = .ok removed { graph with edges := kept } ∧
      kept = transitiveReduction graph.edges ∧
      (∀ u v, Reaches kept u v ↔ Reaches graph.edges u v) ∧
      (∀ place < kept.length, ∃ u v, Reaches kept u v ∧ ¬ Reaches (kept.eraseIdx place) u v) ∧
      removed + kept.length = graph.edges.length ∧
      reduce { graph with edges := kept } = .ok 0 { graph with edges := kept }) ∧
    (¬ Acyclic graph.edges → ∃ names, reduce graph = .error (.cycle names) graph) := by
  constructor
  · intro ha
    obtain ⟨order, horder⟩ := exists_topologicalOrder ha hc
    have hrank := rising_of_topologicalOrder hc horder
    have hsub := transitiveReduction_subset graph.edges
    have hlength := (transitiveReduction_sublist graph.edges).length_le
    have hagain := @reduce_of_acyclic { graph with edges := transitiveReduction graph.edges }
      (ha.mono hsub) (hc.mono hsub)
    simp only [transitiveReduction_transitiveReduction, Nat.sub_self] at hagain
    refine ⟨_, _, reduce_of_acyclic ha hc, rfl, fun u v => ?_, fun place hp => ?_, by omega, hagain⟩
    · exact ⟨Reaches.mono hsub, reaches_transitiveReduction hrank⟩
    · exact ⟨_, _, .single (leads_of_mem (List.getElem_mem hp)), not_reaches_eraseIdx hp⟩
  · intro ha
    obtain ⟨names, hcycle⟩ := topologicalOrder_eq_cycle ha hc
    exact ⟨names, reduce_of_error hcycle⟩

/-- A chain of three nodes with an edge past the middle one and a second edge beside the first. -/
def shortcuts : Graph where
  pipeline := {}
  nodes := [.ofJob 0 { id := "fetch" }, .ofJob 1 { id := "align" }, .ofJob 2 { id := "report" }]
  edges := [.after 0 1, .after 1 2, .after 0 2, .after 0 1]
  scope := .initial
  nextId := 3

theorem reduce_shortcuts :
    Acyclic shortcuts.edges ∧ Closed (shortcuts.nodes.map (·.id)) shortcuts.edges ∧
      ∃ removed kept, reduce shortcuts = .ok removed { shortcuts with edges := kept } ∧
        removed + kept.length = 4 := by
  have hc : Closed (shortcuts.nodes.map (·.id)) shortcuts.edges := by
    unfold Closed
    decide
  have hrank : Rising id shortcuts.edges := by
    unfold Rising
    decide
  obtain ⟨removed, kept, hreduce, -, -, -, hcount, -⟩ :=
    (reduce_exact shortcuts hc).1 hrank.acyclic
  exact ⟨hrank.acyclic, hc, removed, kept, hreduce, hcount⟩

end Pipework.Graph
