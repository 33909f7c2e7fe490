import Pipework.Graph.Summary
import Pipework.Proofs.Failure
import Pipework.Proofs.Precedence
import Pipework.Proofs.Reading

/-!
# Where circles come from

Preparing a graph brings about no circle of jobs. If one is found on the way, then it lies in the
graph as it was built, or in one that was built on the way for the pipeline inside some job. So
the prepared graph can be put in order and shown.
-/

namespace Pipework

open Step

namespace Graph

/-- The pipeline inside a node as it is built when the node is to be replaced: the values of the
node are laid over what is configured in it. -/
def innerPipeline (id : NodeId) : GraphM (Option Pipeline) := do
  let node ← nodeAt id
  match node.spec.nested? with
  | none => return none
  | some nested => do
    let settings ← configuration node.name
    return some { nested with configuration := nested.configuration.overlay settings }

/-- The graphs that are built while nodes, given by their handles, are replaced one after another:
for each one the graph of the pipeline inside it, and the graphs `inside` that are built while this
one is prepared. -/
def builtFor (prepare : GraphM Unit) (inside : Graph → List Graph) :
    List NodeId → Graph → List Graph
  | [], _ => []
  | id :: ids, graph =>
    (match innerPipeline id graph with
      | .ok (some pipeline) _ => match build pipeline with
        | .ok inner => inner :: inside inner
        | .error _ => []
      | _ => []) ++
    match expandNode prepare id graph with
    | .ok _ graph' => builtFor prepare inside ids graph'
    | .error _ _ => []

/-- The graphs that are built for pipelines inside jobs while a graph is prepared. -/
def builtInside (prepare : GraphM Unit) (inside : Graph → List Graph) (graph : Graph) :
    List Graph :=
  match spread graph with
  | .ok _ filled => builtFor prepare inside filled.nestedIds filled
  | .error _ _ => []

/-- The graphs that are built for pipelines inside jobs, and for those inside their jobs and so on,
while the graph of a pipeline inside a job is prepared, when pipelines lie in each other at most so
deep. -/
def builtWithin : Nat → Graph → List Graph
  | 0 => fun _ => []
  | depth + 1 => builtInside (prepareNested depth) (builtWithin depth)

/-- The graphs that are built for pipelines inside jobs, at any depth, while a graph is prepared. -/
def innerGraphs (graph : Graph) : List Graph :=
  builtInside (prepareNested graph.depth) (builtWithin graph.depth) graph

/-- Nodes that cannot be put in order wait for each other. -/
theorem not_acyclic_of_topologicalOrder {graph : Graph} (hw : graph.WellFormed) {e : GraphError}
    (h : graph.topologicalOrder = .error e) : ¬ Acyclic graph.edges := by
  intro ha
  obtain ⟨order, horder⟩ := exists_topologicalOrder ha hw.closed
  rw [horder] at h
  cases h

theorem not_acyclic_of_split {g g' : Graph} (hw : g.WellFormed) {e : GraphError}
    (h : split g = .error e g') (he : e.IsCircle) : ¬ Acyclic g.edges := by
  rcases bind_eq_error.mp h with h | ⟨_, _, hget, h⟩
  · cases h
  obtain ⟨rfl, rfl⟩ := get_eq_ok.mp hget
  cases horder : g.topologicalOrder with
  | error cause => exact not_acyclic_of_topologicalOrder hw horder
  | ok order =>
    have hturns : FailsOrdinarily (order.forM (splitNode ·.id)) :=
      .forM fun node _ => ordinary_splitNode node.id
    rw [horder] at h
    exact absurd he (hturns g e g' h).isPlain.not_isCircle

theorem not_acyclic_of_configure {g g' : Graph} (hw : g.WellFormed) {e : GraphError}
    (h : configure g = .error e g') (he : e.IsCircle) : ¬ Acyclic g.edges := by
  rcases bind_eq_error.mp h with h | ⟨_, _, hget, h⟩
  · cases h
  obtain ⟨rfl, rfl⟩ := get_eq_ok.mp hget
  cases horder : g.topologicalOrder with
  | error cause => exact not_acyclic_of_topologicalOrder hw horder
  | ok order =>
    have hedges : FailsFor (¬ GraphError.IsCircle ·) ((g.applicationOrder order).forM applyEdge) :=
      .forM fun place _ _ _ _ h => not_isCircle_of_applyEdge h
    rw [horder] at h
    exact absurd he (hedges g e g' h)

/-- Repeating nodes brings about no circle. -/
theorem acyclic_of_split {pipeline : Pipeline} {built repeated : Graph} {u : Unit}
    (hbuild : build pipeline = .ok built) (h : split built = .ok u repeated) :
    repeated.WellFormed ∧ Acyclic repeated.edges := by
  obtain ⟨hall, hw, -, hjobs⟩ := build_spec hbuild
  have hplain : ∀ node ∈ built.nodes, ¬ node.isReplica := fun node hn =>
    (nodes_of_build hbuild node hn).2.2.2
  have hnames : (built.nodes.map (·.spec.id)).Nodup := by
    rw [← (specs_of_ofJob hall).1, List.map_map] at hjobs
    exact hjobs
  obtain ⟨order, horder, h⟩ := split_eq_ok h
  obtain ⟨-, -, hsubset⟩ := ordered_of_topologicalOrder hw.closed horder
  have hstart := (rising_of_topologicalOrder hw.closed horder).acyclic
  have hend : Preceding built repeated := forM_keeps (fun node hn _ _ _ ht hstep =>
    ht.splitNode hplain hnames (hw.below _ (List.mem_map_of_mem (hsubset hn))) hstep)
    (preceding_of_build hbuild hnames hstart) h
  exact ⟨hend.wellFormed, hend.acyclic⟩

theorem not_acyclic_of_spread {pipeline : Pipeline} {built left : Graph}
    (hbuild : build pipeline = .ok built) {e : GraphError} (h : spread built = .error e left)
    (he : e.IsCircle) : ¬ Acyclic built.edges := by
  rcases bind_eq_error.mp h with h | ⟨_, repeated, hsplit, h⟩
  · exact not_acyclic_of_split (build_spec hbuild).2.1 h he
  · obtain ⟨hw, ha⟩ := acyclic_of_split hbuild hsplit
    exact absurd ha (not_acyclic_of_configure hw h he)

/-- Circles that are found by preparing a graph in this way lie in that graph or in one of those
`inside` it. -/
def Blames (prepare : GraphM Unit) (inside : Graph → List Graph) : Prop :=
  ∀ (pipeline : Pipeline) (built left : Graph) (e : GraphError), build pipeline = .ok built →
    prepare built = .error e left → e.IsCircle →
      ∃ graph ∈ built :: inside built, ¬ Acyclic graph.edges

/-- A circle that keeps a node from being replaced lies in the graph of the pipeline inside it, or in
one inside that. -/
theorem Blames.expandNode {prepare : GraphM Unit} {inside : Graph → List Graph}
    (hprepare : Blames prepare inside) {id : NodeId} {g g' : Graph} {e : GraphError}
    (h : expandNode prepare id g = .error e g') (he : e.IsCircle) :
    ∃ pipeline t built, innerPipeline id g = .ok (some pipeline) t ∧ build pipeline = .ok built ∧
      ∃ graph ∈ built :: inside built, ¬ Acyclic graph.edges := by
  rcases failure_of_expandNode h with
    hordinary | ⟨node, nested, settings, t, hnode, hnested, hsettings, h⟩
  · exact absurd he hordinary.isPlain.not_isCircle
  have hpipeline : innerPipeline id g =
      .ok (some { nested with configuration := nested.configuration.overlay settings }) t := by
    refine bind_eq_ok.mpr ⟨node, g, nodeAt_eq_ok.mpr ⟨hnode, rfl⟩, ?_⟩
    simp only [hnested]
    exact bind_eq_ok.mpr ⟨settings, t, hsettings, rfl⟩
  obtain ⟨-, hbuild | ⟨built, left, hbuild, hrun⟩⟩ := prepareInner_eq_error.mp h
  · exact absurd he (isPlain_of_build hbuild).not_isCircle
  · exact ⟨_, t, built, hpipeline, hbuild, hprepare _ built left e hbuild hrun he⟩

/-- So does one that keeps several from being replaced one after another. -/
theorem Blames.forM {prepare : GraphM Unit} {inside : Graph → List Graph}
    (hprepare : Blames prepare inside) {ids : List NodeId} {g g' : Graph} {e : GraphError}
    (h : ids.forM (Graph.expandNode prepare) g = .error e g') (he : e.IsCircle) :
    ∃ graph ∈ builtFor prepare inside ids g, ¬ Acyclic graph.edges := by
  induction ids generalizing g with
  | nil => cases h
  | cons id ids ih =>
    rcases bind_eq_error.mp h with h | ⟨u, t, hstep, h⟩
    · obtain ⟨pipeline, t, built, hpipeline, hbuild, graph, hgraph, hcircle⟩ :=
        hprepare.expandNode h he
      refine ⟨graph, ?_, hcircle⟩
      simp only [builtFor, hpipeline, hbuild]
      exact List.mem_append_left _ hgraph
    · obtain ⟨graph, hgraph, hcircle⟩ := ih h
      refine ⟨graph, ?_, hcircle⟩
      simp only [builtFor, hstep]
      exact List.mem_append_right _ hgraph

/-- A circle found while a graph is prepared lies in the graph itself or, if pipelines inside jobs
are put in their place, in a graph that was built for one of them. -/
theorem Blames.prepareStages {prepare : GraphM Unit} {inside : Graph → List Graph}
    (hprepare : Blames prepare inside) {options : CompileOptions} {pipeline : Pipeline}
    {built left : Graph} {e : GraphError} (hbuild : build pipeline = .ok built)
    (h : prepareStages options prepare built = .error e left) (he : e.IsCircle) :
    ¬ Acyclic built.edges ∨ options.expandNested ∧
      ∃ graph ∈ builtInside prepare inside built, ¬ Acyclic graph.edges := by
  rcases failure_of_prepareStages h with h | hordinary | ⟨t, hspread, hon, h⟩
  · exact .inl (not_acyclic_of_spread hbuild h he)
  · exact absurd he hordinary.isPlain.not_isCircle
  · simp only [builtInside, hspread]
    exact .inr ⟨hon, hprepare.forM h he⟩

/-- At any depth, circles are found only where they were built. -/
theorem blames_prepareNested (depth : Nat) : Blames (prepareNested depth) (builtWithin depth) := by
  induction depth with
  | zero =>
    rintro pipeline built left e - h ⟨jobs, rfl⟩
    cases h
  | succ depth ih =>
    intro pipeline built left e hbuild h he
    rw [prepareNested_succ] at h
    rcases ih.prepareStages hbuild h he with hcircle | ⟨-, graph, hgraph, hcircle⟩
    · exact ⟨built, by simp, hcircle⟩
    · exact ⟨graph, List.mem_cons_of_mem _ hgraph, hcircle⟩

/-- A graph that can be put in order and keeps what its values resolved to can be shown. -/
theorem exists_summary {graph : Graph} (hw : graph.WellFormed) (ha : Acyclic graph.edges)
    (hkept : ∀ node ∈ graph.nodes, node.resolved?.isSome) :
    ∃ order, graph.topologicalOrder = .ok order ∧
      ∃ summary, summarize graph = .ok summary graph := by
  obtain ⟨order, horder⟩ := exists_topologicalOrder ha hw.closed
  obtain ⟨-, -, hsubset⟩ := ordered_of_topologicalOrder hw.closed horder
  have hnodes : ∃ nodes, order.mapM summarizeNode graph = .ok nodes graph := by
    refine exists_mapM fun node hn => ?_
    obtain ⟨resolved, hresolved⟩ := Option.isSome_iff_exists.mp (hkept node (hsubset hn))
    refine ⟨_, bind_eq_ok.mpr ⟨resolved, graph, ?_, rfl⟩⟩
    rw [resolvedOf, hresolved]
    rfl
  have hfound : ∀ id ∈ graph.nodes.map (·.id), ∃ node, nodeAt id graph = .ok node graph := by
    intro id hid
    obtain ⟨node, hn, rfl⟩ := List.mem_map.mp hid
    exact ⟨node, nodeAt_eq_ok.mpr ⟨hw.node?_eq_some.mpr hn, rfl⟩⟩
  have hedges : ∃ edges, graph.edges.mapM summarizeEdge graph = .ok edges graph := by
    refine exists_mapM fun edge he => ?_
    obtain ⟨hs, ht⟩ := hw.closed edge he
    obtain ⟨source, hsource⟩ := hfound edge.source hs
    obtain ⟨target, htarget⟩ := hfound edge.target ht
    exact ⟨_, bind_eq_ok.mpr ⟨source, graph, hsource,
      bind_eq_ok.mpr ⟨target, graph, htarget, rfl⟩⟩⟩
  obtain ⟨nodes, hnodes⟩ := hnodes
  obtain ⟨edges, hedges⟩ := hedges
  have hat : ofExcept graph.topologicalOrder graph = .ok order graph :=
    ofExcept_eq_ok.mpr ⟨horder, rfl⟩
  exact ⟨order, horder, ⟨nodes, edges⟩, bind_eq_ok.mpr ⟨graph, graph, rfl,
    bind_eq_ok.mpr ⟨order, graph, hat, bind_eq_ok.mpr ⟨nodes, graph, hnodes,
      bind_eq_ok.mpr ⟨graph, graph, rfl, bind_eq_ok.mpr ⟨edges, graph, hedges, rfl⟩⟩⟩⟩⟩⟩

/-- A prepared graph has no circle, so that it can be put in order and shown. And preparing a graph
finds a circle only if there is one in the graph as it was built or, when pipelines inside jobs are
put in their place, in one that was built for such a pipeline, at any depth. -/
theorem circles_are_built {options : CompileOptions} {pipeline : Pipeline} {built : Graph}
    (hbuild : build pipeline = .ok built) :
    (∀ u prepared, prepare options built = .ok u prepared → Acyclic prepared.edges ∧
      ∃ order, prepared.topologicalOrder = .ok order ∧
        ∃ summary, summarize prepared = .ok summary prepared) ∧
    ∀ jobs left, prepare options built = .error (.cycle jobs) left → ¬ Acyclic built.edges ∨
      options.expandNested ∧ ∃ inner ∈ built.innerGraphs, ¬ Acyclic inner.edges := by
  constructor
  · intro u prepared h
    obtain ⟨-, hsettled, -⟩ := settled_of_prepare hbuild h
    rw [prepare_eq] at h
    obtain ⟨hw, ha⟩ := preparesAcyclic_prepareStages (preparesAcyclic_prepareNested built.depth)
      pipeline built prepared u hbuild h
    refine ⟨ha, exists_summary hw ha fun node hn => ?_⟩
    obtain ⟨resolved, hresolved, -⟩ := hsettled node hn
    exact Option.isSome_iff_exists.mpr ⟨resolved, hresolved⟩
  · intro jobs left h
    rw [prepare_eq] at h
    exact (blames_prepareNested built.depth).prepareStages hbuild h ⟨jobs, rfl⟩

/-- Two parts to fetch one after another, and work on them whose two steps wait for each other. -/
def knot : Pipeline where
  jobs := [
    { id := "fetch", parameters := [{ name := "part", expandMode := .serial }],
      configuration := .ofList [("part", .list [.str "head", .str "tail"])] },
    { id := "work", after := ["fetch"],
      nested? := some { jobs := [{ id := "align", after := ["count"] },
        { id := "count", after := ["align"] }] } }]

/-- The knot is found inside the job that holds it, and as long as it is left there the graph is
prepared and shown. -/
theorem knot_is_inside : ∃ built jobs left prepared, build knot = .ok built ∧
    prepare {} built = .error (.cycle jobs) left ∧ Acyclic built.edges ∧
    (∃ inner ∈ built.innerGraphs, ¬ Acyclic inner.edges) ∧
    prepare { expandNested := false } built = .ok () prepared ∧ Acyclic prepared.edges ∧
    ∃ order, prepared.topologicalOrder = .ok order ∧
      ∃ summary, summarize prepared = .ok summary prepared := by
  obtain ⟨built, -, prepared, hbuild, -, hprepared, hfails, horder⟩ :=
    exists_prepared { expandNested := false } knot
      (fun built _ _ => (match prepare {} built with
          | .error (.cycle _) _ => true
          | _ => false) = true ∧ built.topologicalOrder.isOk)
      (by decide +kernel)
  have ha : Acyclic built.edges := by
    cases hat : built.topologicalOrder with
    | ok order => exact (rising_of_topologicalOrder (build_spec hbuild).2.1.closed hat).acyclic
    | error e =>
      rw [hat] at horder
      cases horder
  split at hfails
  next jobs left hrun =>
    obtain ⟨-, hinner⟩ :=
      ((circles_are_built hbuild).2 jobs left hrun).resolve_left (not_not_intro ha)
    exact ⟨built, jobs, left, prepared, hbuild, hrun, ha, hinner, hprepared,
      (circles_are_built hbuild).1 () prepared hprepared⟩
  next => cases hfails

end Graph

end Pipework
