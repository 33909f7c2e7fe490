import Pipework.Proofs.Calls

/-!
# Handing on values in order

What a node hands on is settled by the edges to it, so these have to be applied before all that start
there. A graph without circles has all its edges applied, each once and each when all edges have been
that end where it starts, or that a path leads from to there; and as values are all that changes
meanwhile, the places that were put in order at the beginning go on being those of the same edges. A
graph with a circle is not touched.
-/

namespace Pipework.Graph

open Step

/-- Values may be handed on in the graph: it is one that calls have left, or its nodes were repeated
after that. -/
inductive Fillable (pipeline : Pipeline) : Graph → Prop
  | reached {g : Graph} (h : Reachable pipeline g) : Fillable pipeline g
  | repeated {g : Graph} (h : Reachable pipeline g) : Fillable pipeline (left (split g))

theorem Fillable.wellFormed {pipeline : Pipeline} {g : Graph} (h : Fillable pipeline g) :
    g.WellFormed := by
  cases h with
  | reached h => exact h.wellFormed
  | repeated h => exact keeps_split _ h.wellFormed

section Run

variable {g last : Graph} {u : Unit}

/-- If nodes can be put in order, handing on values is applying the edges in the order that comes of
it. -/
theorem configure_of_ok {order : List Node} (h : g.topologicalOrder = .ok order) :
    configure g = (g.applicationOrder order).forM applyEdge g := by
  have hat : ofExcept g.topologicalOrder g = .ok order g := by rw [h]; rfl
  exact (bind_of_ok (get_eq_ok.mpr ⟨rfl, rfl⟩)).trans (bind_of_ok hat)

/-- If they cannot, nothing is applied. -/
theorem configure_of_error {e : GraphError} (h : g.topologicalOrder = .error e) :
    configure g = .error e g := by
  have hat : ofExcept g.topologicalOrder g = .error e g := by rw [h]; rfl
  exact (bind_of_ok (get_eq_ok.mpr ⟨rfl, rfl⟩)).trans (bind_eq_error.mpr (.inl hat))

/-- Applying edges leaves each edge at its place. -/
theorem edges_of_forM {places : List Nat} (h : places.forM applyEdge g = .ok u last) :
    last.edges = g.edges := by
  have hmoves : Moves SameOutline (places.forM applyEdge) := .forM fun place _ =>
    moves_applyEdge (fun _ _ hsame => hsame.sameOutline) moves_setNodeValue place
  exact (hmoves.of_ok h).edges

/-- Where edges are applied one after another, each finds the edges at their places when its turn
comes. -/
theorem exists_turn_of_forM {before behind : List Nat} {place : Nat}
    (h : (before ++ place :: behind).forM applyEdge g = .ok u last) :
    ∃ edge t t', g.edges[place]? = some edge ∧ before.forM applyEdge g = .ok () t ∧
      t.edges = g.edges ∧ applyEdge place t = .ok () t' ∧ behind.forM applyEdge t' = .ok u last := by
  obtain ⟨t, hbefore, hrest⟩ := forM_append_eq_ok.mp h
  obtain ⟨_, t', hturn, hbehind⟩ := bind_eq_ok.mp hrest
  obtain ⟨edge, hedge, -⟩ := handed_of_applyEdge hturn
  have hsame := edges_of_forM hbefore
  exact ⟨edge, t, t', hsame ▸ hedge, hbefore, hsame, hturn, hbehind⟩

end Run

/-- **Handing on values in order.** If no node comes before itself, the nodes can be put in order, and to
hand on values is to apply the edges as they come when their places are sorted by the places of the nodes
that they end at. Each edge has one turn. It comes before the turns of all edges that start where it ends
or where a path leads from there, and before those of the edges that end at the same node and stand
behind it. If all goes well, each turn finds the edges at the places where they were at the beginning. If
some node comes before itself, it is found out before any edge is applied. -/
theorem applied_in_order {pipeline : Pipeline} {g : Graph} (hg : Fillable pipeline g) :
    (Acyclic g.edges → ∃ order places, g.topologicalOrder = .ok order ∧
      places = (List.range g.edges.length).mergeSort
        (fun i j => decide (g.rankOf order i ≤ g.rankOf order j)) ∧
      configure g = places.forM applyEdge g ∧
      places.Perm (List.range g.edges.length) ∧
      (∀ (i j : Nat) (first second : Edge), g.edges[i]? = some first → g.edges[j]? = some second →
        Relation.ReflTransGen (Leads g.edges) first.target second.source ∨
          first.target = second.target ∧ i < j → [i, j].Sublist places) ∧
      ∀ last, configure g = .ok () last → ∀ before place behind, places = before ++ place :: behind →
        ∃ edge t t', g.edges[place]? = some edge ∧ before.forM applyEdge g = .ok () t ∧
          t.edges = g.edges ∧ applyEdge place t = .ok () t' ∧
          behind.forM applyEdge t' = .ok () last) ∧
    (¬ Acyclic g.edges → ∃ names, configure g = .error (.cycle names) g) := by
  have hc := hg.wellFormed.closed
  refine ⟨fun ha => ?_, fun hcircle => ?_⟩
  · obtain ⟨order, horder⟩ := exists_topologicalOrder ha hc
    obtain ⟨hordered, -, -⟩ := ordered_of_topologicalOrder hc horder
    have hrun := configure_of_ok horder
    refine ⟨order, g.applicationOrder order, horder, applicationOrder_eq_mergeSort hc horder, hrun,
      applicationOrder_perm hc horder, fun i j first second hi hj hbefore => ?_,
      fun last hlast before place behind heq => ?_⟩
    · have hmem : ∀ {place : Nat} {edge : Edge}, g.edges[place]? = some edge →
          place ∈ g.applicationOrder order := fun hat =>
        (mem_applicationOrder hc horder).mpr (List.getElem?_eq_some_iff.mp hat).1
      refine pair_sublist_of_lt (pairwise_applicationOrder g hordered.nodup) (hmem hi) (hmem hj) ?_
      rw [Prod.Lex.toLex_lt_toLex]
      refine hbefore.imp (rankOf_lt hc horder hi hj) fun ⟨htarget, hlt⟩ => ⟨?_, hlt⟩
      rw [rankOf_eq hi, rankOf_eq hj, htarget]
    · rw [hrun, heq] at hlast
      exact exists_turn_of_forM hlast
  · obtain ⟨names, hcycle⟩ := topologicalOrder_eq_cycle hcircle hc
    exact ⟨names, configure_of_error hcycle⟩

/-- A table is served with what two dishes become, cooked of what was bought. -/
def feast : Pipeline where
  jobs := [
    { id := "serve"
      parameters := [{ name := "plates", isList := true }, { name := "salt" }]
      configuration := .ofList [("plates", .list [.str "bread", .str "$\x7bcook.dish\x7d"]),
        ("salt", .str "$\x7bbuy.salt\x7d")] },
    { id := "cook"
      parameters := [{ name := "food" }, { name := "dish", isOutput := true }]
      configuration := .ofList [("food", .str "$\x7bbuy.food\x7d"),
        ("dish", .str "hot $\x7bfood\x7d")] },
    { id := "buy"
      parameters := [{ name := "food", isOutput := true, isList := true },
        { name := "salt", isOutput := true }]
      configuration := .ofList [("food", .list [.str "rice", .str "beans"]),
        ("salt", .str "salt")] }]

/-- Two who wait for each other. -/
def quarrel : Pipeline where
  jobs := [{ id := "you", after := ["me"] }, { id := "me", after := ["you"] }]

/-- A dish gets its food before it is served, although the table stands first in the graph, and the salt
comes before the dishes. The two who wait for each other get nothing. -/
theorem food_comes_before_dishes :
    (∃ repeated last places, Fillable feast repeated ∧ Acyclic repeated.edges ∧
      repeated.edges.map (fun edge => (edge.source, edge.target)) =
        [(2, 0), (2, 3), (3, 0), (2, 4), (4, 0)] ∧
      configure repeated = .ok () last ∧ places.forM applyEdge repeated = .ok () last ∧
      places.Perm [0, 1, 2, 3, 4] ∧ [1, 2].Sublist places ∧ [0, 2].Sublist places) ∧
    ∃ built names, Fillable quarrel built ∧ ¬ Acyclic built.edges ∧
      configure built = .error (.cycle names) built := by
  constructor
  · obtain ⟨built, repeated, -, hbuild, hsplit, -, hedges, hfilled⟩ := exists_prepared {} feast
      (fun _ repeated _ => repeated.edges.map (fun edge => (edge.source, edge.target)) =
          [(2, 0), (2, 3), (3, 0), (2, 4), (4, 0)] ∧ (outcome (configure repeated)).isOk = true)
      (by decide +kernel)
    have hfillable : Fillable feast repeated := by
      have hleft := Fillable.repeated (.built hbuild)
      rwa [hsplit] at hleft
    obtain ⟨last, hconfigure⟩ : ∃ last, configure repeated = .ok () last := by
      cases hrun : configure repeated with
      | ok u last => exact ⟨last, rfl⟩
      | error e last =>
        rw [hrun] at hfilled
        cases hfilled
    have ha : Acyclic repeated.edges :=
      (moves_configure.of_ok hconfigure).edges ▸ acyclic_of_configure hfillable.wellFormed hconfigure
    obtain ⟨order, places, -, -, hrun, hperm, hbefore, -⟩ := (applied_in_order hfillable).1 ha
    have hat : ∀ (place : Nat) (ends : NodeId × NodeId),
        [(2, 0), (2, 3), (3, 0), (2, 4), (4, 0)][place]? = some ends →
        ∃ edge : Edge, repeated.edges[place]? = some edge ∧ (edge.source, edge.target) = ends := by
      intro place ends h
      rw [← hedges, List.getElem?_map] at h
      exact Option.map_eq_some_iff.mp h
    have hlength : repeated.edges.length = 5 := by
      rw [← List.length_map, hedges]
      rfl
    obtain ⟨salt, hsalt, hsaltEnds⟩ := hat 0 _ rfl
    obtain ⟨food, hfood, hfoodEnds⟩ := hat 1 _ rfl
    obtain ⟨dish, hdish, hdishEnds⟩ := hat 2 _ rfl
    obtain ⟨-, hsaltTarget⟩ := Prod.mk.inj hsaltEnds
    obtain ⟨-, hfoodTarget⟩ := Prod.mk.inj hfoodEnds
    obtain ⟨hdishSource, hdishTarget⟩ := Prod.mk.inj hdishEnds
    refine ⟨repeated, last, places, hfillable, ha, hedges, hconfigure, hrun ▸ hconfigure, ?_,
      hbefore 1 2 food dish hfood hdish (.inl ?_),
      hbefore 0 2 salt dish hsalt hdish (.inr ⟨?_, by decide⟩)⟩
    · rwa [hlength] at hperm
    · rw [hfoodTarget, hdishSource]
    · rw [hsaltTarget, hdishTarget]
  · have hedges : (build quarrel).toOption.map (·.edges) = some [.after 1 0, .after 0 1] := by
      decide +kernel
    cases hbuild : build quarrel with
    | error e =>
      rw [hbuild] at hedges
      cases hedges
    | ok built =>
      have hpair : built.edges = [.after 1 0, .after 0 1] := by
        rw [hbuild] at hedges
        exact Option.some.inj hedges
      have hcircle : ¬ Acyclic built.edges := fun ha => by
        rw [hpair] at ha
        exact ha 0 (.tail (.single ⟨.after 0 1, by decide, rfl, rfl⟩) ⟨.after 1 0, by decide, rfl, rfl⟩)
      obtain ⟨names, hcycle⟩ := (applied_in_order (.reached (.built hbuild))).2 hcircle
      exact ⟨built, names, .reached (.built hbuild), hcircle, hcycle⟩

end Pipework.Graph
