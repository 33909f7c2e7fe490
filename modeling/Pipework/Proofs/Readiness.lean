import Pipework.Proofs.Interruption

/-!
# What dropping implied edges changes

A node can be placed as soon as all that comes before it is placed. What comes before it is what
leads to it by any path, and paths outlast the edges that are dropped. So the nodes stand in the
same order without these edges, and whatever goes by that order is the same. Nothing else looks at
the edges once values have been handed on.
-/

namespace Pipework

open Step

namespace Graph

/-- The same nodes come before others. -/
def SameReach (edges other : List Edge) : Prop := ∀ u v, Reaches edges u v ↔ Reaches other u v

/-- No edge ends at a node exactly when nothing comes before it. -/
theorem all_target_ne_iff {edges : List Edge} {id : NodeId} :
    edges.all (·.target != id) = true ↔ ∀ u, ¬ Reaches edges u id := by
  simp only [List.all_eq_true, bne_iff_ne]
  constructor
  · intro h u hr
    obtain ⟨w, -, edge, he, -, ht⟩ := Relation.TransGen.tail'_iff.mp hr
    exact h edge he ht
  · exact fun h edge he ht => h edge.source (.single ⟨edge, he, rfl, ht⟩)

/-- Paths between other nodes do not come by a node that no edge ends at. -/
theorem reaches_without {edges : List Edge} {id u v : NodeId} (hfirst : ∀ w, ¬ Reaches edges w id) :
    Reaches (edges.filter (·.source != id)) u v ↔ u ≠ id ∧ Reaches edges u v := by
  have hleads : ∀ {a b}, a ≠ id → Leads edges a b → Leads (edges.filter (·.source != id)) a b := by
    rintro _ _ hne ⟨edge, he, rfl, rfl⟩
    exact leads_of_mem (List.mem_filter.mpr ⟨he, by simpa using hne⟩)
  constructor
  · intro h
    obtain ⟨w, ⟨edge, he, rfl, -⟩, -⟩ := Relation.TransGen.head'_iff.mp h
    exact ⟨by simpa using (List.mem_filter.mp he).2, Reaches.mono (List.filter_subset_self _) h⟩
  · rintro ⟨hne, h⟩
    induction h using Relation.TransGen.head_induction_on with
    | single hl => exact .single (hleads hne hl)
    | @head u w hl _ ih => exact .head (hleads hne hl) (ih fun heq => hfirst u (.single (heq ▸ hl)))

/-- The order does not depend on the edges by which nodes come before others. At each place the same
nodes are ready, and the same still come before others when one of these is placed. -/
theorem placeNodes_congr {edges other : List Edge} (h : SameReach edges other) (count : Nat)
    (remaining : List Node) :
    placeNodes count remaining edges = placeNodes count remaining other := by
  induction count generalizing remaining edges other with
  | zero => rfl
  | succ count ih =>
    have hready : (fun node : Node => edges.all (·.target != node.id)) =
        fun node : Node => other.all (·.target != node.id) := by
      funext node
      rw [Bool.eq_iff_iff, all_target_ne_iff, all_target_ne_iff]
      exact forall_congr' fun u => not_congr (h u node.id)
    rw [placeNodes, placeNodes, hready]
    cases hfind : remaining.find? fun node => other.all (·.target != node.id) with
    | none => rfl
    | some node =>
      have hfirst : ∀ w, ¬ Reaches other w node.id := by
        have hall := List.find?_some hfind
        exact all_target_ne_iff.mp hall
      have hrest : SameReach (edges.filter (·.source != node.id))
          (other.filter (·.source != node.id)) := fun u v => by
        rw [reaches_without fun w hr => hfirst w ((h w node.id).mp hr), reaches_without hfirst, h]
      simp only [ih hrest]

/-- The same nodes stand in the same order if edges lead to the same nodes by paths. -/
theorem topologicalOrder_congr {g g' : Graph} (hnodes : g'.nodes = g.nodes)
    (h : SameReach g.edges g'.edges) : g'.topologicalOrder = g.topologicalOrder := by
  rw [topologicalOrder_eq, topologicalOrder_eq, hnodes, placeNodes_congr h]

/-- Dropping implied edges leaves what can be reached. -/
theorem sameReach_transitiveReduction {edges : List Edge} {rank : NodeId → Nat}
    (hrank : Rising rank edges) : SameReach edges (transitiveReduction edges) := fun _ _ =>
  ⟨reaches_transitiveReduction hrank, Reaches.mono (transitiveReduction_subset edges)⟩

section Blindness

variable {α β : Type}

/-- The step neither looks at the edges nor changes them. -/
def Blind (x : StateM Graph α) : Prop :=
  ∀ (g : Graph) (edges : List Edge), x { g with edges } = ((x g).1, { (x g).2 with edges })

theorem Blind.pure (a : α) : Blind (pure a) := fun _ _ => rfl

/-- A step is blind if its parts are. -/
theorem Blind.bind {x : StateM Graph α} {f : α → StateM Graph β} (hx : Blind x)
    (hf : ∀ a, Blind (f a)) : Blind (x >>= f) := by
  intro g edges
  change f (x { g with edges }).1 (x { g with edges }).2 = _
  rw [hx g edges]
  exact hf (x g).1 (x g).2 edges

/-- What does not depend on the edges may be read. -/
theorem Blind.read {f : Graph → StateM Graph α} (hf : ∀ g, Blind (f g))
    (hsame : ∀ (g : Graph) (edges : List Edge), f { g with edges } = f g) : Blind (get >>= f) := by
  intro g edges
  change f { g with edges } { g with edges } = _
  rw [hsame]
  exact hf g g edges

/-- A step for each element of a list is blind if the step for one is. -/
theorem Blind.mapM {l : List α} {f : α → StateM Graph β} (hf : ∀ a ∈ l, Blind (f a)) :
    Blind (l.mapM f) := by
  induction l with
  | nil => exact .pure _
  | cons a l ih =>
    rw [List.mapM_cons]
    refine (hf a (by simp)).bind fun b => ?_
    exact (ih fun c hc => hf c (List.mem_cons_of_mem a hc)).bind fun _ => .pure _

/-- What is done to the scope tree has nothing to do with the edges. -/
theorem blind_attempt (action : ScopeM α) : Blind (attempt action) := by
  intro g edges
  rw [attempt, attempt]
  cases action g.scope <;> rfl

end Blindness

/-- Checking a parameter of the pipeline does not look at edges. -/
theorem blind_checkPipelineParameter (parameter : Parameter) :
    Blind (checkPipelineParameter parameter) := by
  refine Blind.read (fun g => ?_) fun _ _ => rfl
  dsimp only
  split
  · exact (blind_attempt _).bind fun _ => .pure _
  · exact .pure _

/-- Checking a node does not look at edges. -/
theorem blind_checkNode (node : Node) : Blind (checkNode node) := by
  refine (Blind.mapM fun parameter _ => ?_).bind fun _ => .pure _
  rw [checkParameter]
  cases node.resolved? with
  | some resolved => exact .pure _
  | none => exact (blind_attempt _).bind fun _ => .pure _

/-- The checks of some parameters and of nodes in some order. -/
theorem blind_checks (parameters : List Parameter) (nodes : List Node) : Blind (do
    let overall ← parameters.mapM checkPipelineParameter
    let own ← nodes.mapM checkNode
    return overall.flatten ++ own.flatten) :=
  (Blind.mapM fun parameter _ => blind_checkPipelineParameter parameter).bind fun _ =>
    (Blind.mapM fun node _ => blind_checkNode node).bind fun _ => .pure _

/-- The nodes of a graph as they follow each other in the check. -/
def checkOrder (g : Graph) : List Node :=
  match g.topologicalOrder with
  | .ok order => order
  | .error _ => g.nodes

/-- Checking the order comes to the same with edges that leave the order as it is. -/
theorem checkOrder_withEdges {g : Graph} {edges : List Edge}
    (h : ({ g with edges } : Graph).topologicalOrder = g.topologicalOrder) :
    checkOrder { g with edges } = checkOrder g := by
  rw [checkOrder, h]
  rfl

/-- Graphs that differ in their edges, but not in the order of their nodes, have the same findings
in the same order. -/
theorem validate_withEdges {g : Graph} {edges : List Edge}
    (h : ({ g with edges } : Graph).topologicalOrder = g.topologicalOrder) :
    validate { g with edges } = ((validate g).1, { (validate g).2 with edges }) := by
  have hchecks :=
    blind_checks (g.pipeline.parameters.filter (·.isMandatory)) (checkOrder g) g edges
  rw [← checkOrder_withEdges h] at hchecks
  refine hchecks.trans ?_
  rw [checkOrder_withEdges h]
  rfl

end Graph

open Pipework.Graph

/-- A prepared graph, and what the check of obligatory parameters finds in it if there is one. -/
def inspect (options : CompileOptions) (graph : Graph) : Compiled :=
  if options.validate then ⟨(validate graph).2, (validate graph).1⟩ else ⟨graph, []⟩

/-- A compilation builds a graph, takes it through its stages and inspects what came of it. -/
theorem compile_eq_inspect {options : CompileOptions} {pipeline : Pipeline} {built : Graph}
    (hbuild : build pipeline = .ok built) :
    compile options pipeline = match compileStages options built with
      | .error e _ => .error e
      | .ok _ graph => .ok (inspect options graph) := by
  simp only [compile, hbuild, bind, Except.bind]
  cases compileStages options built with
  | error e graph => rfl
  | ok u graph =>
    dsimp only [inspect]
    split <;> rfl

/-- Inspecting a graph only reads. -/
theorem sameButMemo_inspect (options : CompileOptions) (graph : Graph) :
    SameButMemo graph (inspect options graph).graph := by
  rw [inspect]
  split
  · exact shifts_validate graph
  · exact refl_of SameButMemo graph

/-- Inspecting a graph comes to the same with edges that leave the order as it is. -/
theorem inspect_withEdges (options : CompileOptions) {g : Graph} {edges : List Edge}
    (h : ({ g with edges } : Graph).topologicalOrder = g.topologicalOrder) :
    inspect options { g with edges } =
      ⟨{ (inspect options g).graph with edges }, (inspect options g).findings⟩ := by
  rw [inspect, inspect, validate_withEdges h]
  split <;> rfl

/-- The second graph has fewer edges, and with what was found everything else is as with the
first. -/
structure Spares (full reduced : Compiled) : Prop where
  /-- Only the edges differ. -/
  graph : reduced.graph = { full.graph with edges := reduced.graph.edges }
  /-- Some were dropped and the others stayed as they stood. -/
  edges : reduced.graph.edges.Sublist full.graph.edges
  /-- The same nodes come before others. -/
  reaches : ∀ u v, Reaches reduced.graph.edges u v ↔ Reaches full.graph.edges u v
  /-- The nodes have the same order. -/
  order : ∃ order, full.graph.topologicalOrder = .ok order ∧
    reduced.graph.topologicalOrder = .ok order
  /-- The values of all nodes are resolved, to the same. -/
  configuration : ∀ node ∈ full.graph.nodes, ∃ resolved, node.resolved? = some resolved ∧
    configuration node.name full.graph = .ok resolved full.graph ∧
    configuration node.name reduced.graph = .ok resolved reduced.graph
  /-- The same is wrong, and it is told in the same order. -/
  findings : reduced.findings = full.findings

/-- A node that keeps what its values resolved to is asked for nothing else. -/
theorem configuration_of_resolved {g : Graph} (hnames : (g.nodes.map (·.name)).Nodup) {node : Node}
    (hn : node ∈ g.nodes) {resolved : Settings} (hresolved : node.resolved? = some resolved) :
    configuration node.name g = .ok resolved g := by
  have hfind : g.find? node.name = some node := find?_eq_some_of_nodup hnames hn
  refine bind_eq_ok.mpr ⟨g, g, rfl, ?_⟩
  rw [hfind]
  dsimp only
  rw [resolvedOf, hresolved]
  rfl

/-- Dropping the implied edges of a prepared graph spares them in what comes of it. -/
theorem spares_inspect (options : CompileOptions) {g : Graph} (hw : g.WellFormed)
    (ha : Acyclic g.edges) (hnames : (g.nodes.map (·.name)).Nodup)
    (hkept : ∀ node ∈ g.nodes, node.resolved?.isSome) :
    Spares (inspect options g)
      (inspect options { g with edges := transitiveReduction g.edges }) := by
  obtain ⟨order, horder⟩ := exists_topologicalOrder ha hw.closed
  have hreach : SameReach g.edges (transitiveReduction g.edges) :=
    sameReach_transitiveReduction (rising_of_topologicalOrder hw.closed horder)
  have hsame : ({ g with edges := transitiveReduction g.edges } : Graph).topologicalOrder =
      g.topologicalOrder := topologicalOrder_congr rfl hreach
  rw [inspect_withEdges options hsame]
  obtain ⟨memo, -, hgraph⟩ := sameButMemo_inspect options g
  generalize inspect options g = full at hgraph ⊢
  obtain ⟨graph, findings⟩ := full
  obtain rfl : graph = { g with scope := { g.scope with memo } } := hgraph
  refine ⟨rfl, transitiveReduction_sublist g.edges, fun u v => (hreach u v).symm,
    ⟨order, ?_, ?_⟩, ?_, rfl⟩
  · exact horder
  · exact hsame.trans horder
  · intro node hn
    obtain ⟨resolved, hresolved⟩ := Option.isSome_iff_exists.mp (hkept node hn)
    have hgiven : ∀ graph : Graph, graph.nodes = g.nodes →
        configuration node.name graph = .ok resolved graph := fun graph heq =>
      configuration_of_resolved (heq ▸ hnames) (heq ▸ hn) hresolved
    exact ⟨resolved, hresolved, hgiven _ rfl, hgiven _ rfl⟩

/-- Whether implied edges are dropped makes no difference but that. Either compilation fails for the
same cause, or both end with nodes that have the same order and values and lack the same, and with
edges that say the same about what comes before what. -/
theorem compile_sparing (options : CompileOptions) (pipeline : Pipeline) :
    (∃ e, compile { options with reduceDependencies := false } pipeline = .error e ∧
      compile { options with reduceDependencies := true } pipeline = .error e) ∨
    ∃ full reduced, compile { options with reduceDependencies := false } pipeline = .ok full ∧
      compile { options with reduceDependencies := true } pipeline = .ok reduced ∧
      Spares full reduced := by
  cases hbuild : build pipeline with
  | error e => exact .inl ⟨e, by simp [compile, hbuild, bind, Except.bind],
      by simp [compile, hbuild, bind, Except.bind]⟩
  | ok built =>
    have hprepare : ∀ reduceDependencies, prepare { options with reduceDependencies } built =
        prepare options built := fun _ => by
      rw [prepare_eq, prepare_eq]
      rfl
    rw [compile_eq_inspect hbuild, compile_eq_inspect hbuild]
    cases h : prepare options built with
    | error e left =>
      have hstages : ∀ reduceDependencies,
          compileStages { options with reduceDependencies } built = .error e left := fun b =>
        bind_eq_error.mpr (.inl ((hprepare b).trans h))
      exact .inl ⟨e, by rw [hstages], by rw [hstages]⟩
    | ok u prepared =>
      have hparts := prepare_eq options built ▸ h
      obtain ⟨hw, ha⟩ := preparesAcyclic_prepareStages (preparesAcyclic_prepareNested built.depth)
        pipeline built prepared u hbuild hparts
      obtain ⟨hm, hsettled, -⟩ := settled_of_prepare hbuild h
      have hfull : compileStages { options with reduceDependencies := false } built =
          .ok () prepared := bind_eq_ok.mpr ⟨u, prepared, (hprepare _).trans h, rfl⟩
      have hreduced : compileStages { options with reduceDependencies := true } built =
          .ok () { prepared with edges := transitiveReduction prepared.edges } :=
        bind_eq_ok.mpr ⟨u, prepared, (hprepare _).trans h,
          bind_eq_ok.mpr ⟨_, _, reduce_of_acyclic ha hw.closed, rfl⟩⟩
      rw [hfull, hreduced]
      refine .inr ⟨_, _, rfl, rfl, spares_inspect options hw ha hm.names fun node hn => ?_⟩
      obtain ⟨resolved, hresolved, -⟩ := hsettled node hn
      exact Option.isSome_iff_exists.mpr ⟨resolved, hresolved⟩

/-- A report on what was fetched and on what was made of it. -/
def review : Pipeline where
  jobs := [{ id := "fetch" }, { id := "align", after := ["fetch"] },
    { id := "report", after := ["fetch", "align"] }]

example : ((compile { reduceDependencies := false } review).toOption.map (·.graph.edges.length)) =
    some 3 ∧ ((compile {} review).toOption.map (·.graph.edges.length)) = some 2 := by
  decide +kernel

end Pipework
