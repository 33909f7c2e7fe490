import Pipework.Proofs.Interruption
import Pipework.Proofs.Shape

/-!
# Graphs that are called again and again

Graphs are prepared, reduced, checked, asked for values and shown, in any order and also after calls
that failed. Whatever is asked of a graph comes down to a few changes, so that what all of these
keep is kept by every call. Handles of nodes fit together after any calls, although the edges that a
node gives way to are not kept in step by one of those changes alone.
-/

namespace Pipework

open Step

namespace Graph

/-- Something that can be asked of a graph. -/
inductive Call where
  /-- Repeats nodes, hands on values, and puts pipelines inside jobs in their place. -/
  | prepare (options : CompileOptions)
  /-- Drops the edges that longer paths imply. -/
  | reduce
  /-- Checks obligatory parameters. -/
  | validate
  /-- Resolves the values of the node of this name. -/
  | configuration (name : String)
  /-- Shows the graph. -/
  | summarize

/-- Does it, whatever comes of it. -/
def Call.run : Call → GraphM Unit
  | .prepare options => Graph.prepare options
  | .reduce => do let _ ← Graph.reduce
  | .validate => modify fun graph => (Graph.validate graph).2
  | .configuration name => do let _ ← Graph.configuration name
  | .summarize => do let _ ← Graph.summarize

/-- The graph was built for the pipeline, and then calls were made, which may have failed. -/
inductive Reachable (pipeline : Pipeline) : Graph → Prop
  | built {graph : Graph} (h : build pipeline = .ok graph) : Reachable pipeline graph
  | step {graph : Graph} (h : Reachable pipeline graph) (call : Call) :
    Reachable pipeline (left (call.run graph))

/-- Showing a graph adds to what is remembered and nothing else. -/
theorem moves_summarize : Moves SameButMemo summarize := by
  refine Moves.get.bind fun graph => (moves_ofExcept _).bind fun order => ?_
  have hnode : ∀ node, Moves SameButMemo (summarizeNode node) := fun node =>
    (moves_resolvedOf node).bind fun _ => .pure _
  have hedge : ∀ edge, Moves SameButMemo (summarizeEdge edge) := fun edge =>
    (moves_nodeAt _).bind fun _ => (moves_nodeAt _).bind fun _ => .pure _
  refine (Moves.mapM fun node _ => hnode node).bind fun nodes => Moves.get.bind fun _ => ?_
  exact (Moves.mapM fun edge _ => hedge edge).bind fun _ => .pure _

/-- The relation holds between a graph and what each of the changes makes of it that calls are made
of. -/
structure Covers (R : Graph → Graph → Prop) : Prop where
  /-- More is remembered of values, and edges hand on something else. -/
  plan : ∀ g g', Plans g g' → R g g'
  /-- A node is taken out and edges are added. -/
  replaceEdges : ∀ (g : Graph) (id : NodeId) (edges : List Edge),
    R g ((g.removeNode id).addEdges edges)
  /-- There are other edges. -/
  setEdges : ∀ (g : Graph) (edges : List Edge), R g { g with edges }
  /-- A node is added, or that fails. -/
  addNode : ∀ node, Moves R (addNode node)
  /-- A node gets a value. -/
  setNodeValue : ∀ id key value, Moves R (setNodeValue id key value)
  /-- A node keeps what its values resolved to. -/
  settle : ∀ (g : Graph) (id : NodeId) (resolved : Settings),
    R g (g.modifyNode id fun node => { node with resolved? := some resolved })

/-- A relation that covers the changes holds where more is remembered. -/
theorem Covers.read {R : Graph → Graph → Prop} (hR : Covers R) (g g' : Graph)
    (h : SameButMemo g g') : R g g' := hR.plan g g' h.plans

/-- Either nodes cannot be put in order, or some edges are kept. -/
theorem left_reduce (g : Graph) : left (reduce g) = g ∨ ∃ order, g.topologicalOrder = .ok order ∧
    left (reduce g) = { g with edges := directEdges g.edges (order.map (·.id)) } := by
  cases horder : g.topologicalOrder with
  | error e => exact .inl (by rw [reduce_of_error horder]; rfl)
  | ok order =>
    refine .inr ⟨order, rfl, ?_⟩
    rw [reduce]
    change left ((ofExcept g.topologicalOrder >>= _) g) = _
    rw [horder]
    rfl

section Covering

variable {R : Graph → Graph → Prop} [Std.Refl R] (hR : Covers R)

include hR

/-- Dropping implied edges is covered. -/
theorem Covers.moves_reduce : Moves R reduce := by
  intro g
  rcases left_reduce g with h | ⟨order, -, h⟩
  · rw [h]
    exact refl_of R g
  · rw [h]
    exact hR.setEdges g _

variable [IsTrans Graph R]

/-- Repeating a node is covered. -/
theorem Covers.moves_replicate (node : Node) (drivers : Drivers) (count : Nat) :
    Moves R (replicate node drivers count) := by
  refine (moves_ofExcept _).bind fun serial => Moves.bind ?_ fun replicas => ?_
  · exact .mapM fun place _ => ((moves_shareOut node drivers place).mono hR.read).bind fun _ =>
      hR.addNode _
  refine (moves_separateOutputs hR.read drivers serial fun _ _ _ _ _ _ _ _ =>
    hR.setNodeValue _ _ _).bind fun _ => Moves.get.bind fun graph => ?_
  exact ((moves_replicaEdges _ _ _ _ _ _ _ _).mono hR.read).bind fun edges =>
    .modify fun g => hR.replaceEdges g node.id edges

/-- The turn of a node is covered. -/
theorem Covers.moves_splitNode (id : NodeId) : Moves R (splitNode id) := by
  refine Moves.get.bind fun graph => ?_
  cases graph.node? id with
  | none => exact .pure _
  | some node =>
    refine ((moves_drivers id).mono hR.plan).bind fun drivers => ?_
    refine (moves_ofExcept _).bind fun size? => ?_
    split
    · exact .pure _
    · exact moves_collapse_of hR.plan fun _ _ _ _ => hR.setNodeValue _ _ _
    · exact hR.moves_replicate node drivers _

/-- Repeating all nodes is covered. -/
theorem Covers.moves_split : Moves R split :=
  Moves.get.bind fun _ => (moves_ofExcept _).bind fun _ =>
    .forM fun node _ => hR.moves_splitNode node.id

/-- Putting the pipeline inside a node in its place is covered. -/
theorem Covers.moves_expandNode (prepare : GraphM Unit) (id : NodeId) :
    Moves R (expandNode prepare id) := by
  refine (moves_nodeAt id).bind fun node => ?_
  cases node.spec.nested? with
  | none => exact .pure _
  | some nested =>
    refine ((moves_configuration _).mono hR.read).bind fun settings => ?_
    refine (moves_prepareInner prepare _).bind fun inner => ?_
    refine Moves.bind (.mapM fun _ _ => (hR.addNode _).bind fun _ => .pure _) fun handles => ?_
    refine ((moves_adoptEdges handles inner.edges).mono hR.read).bind fun edges => ?_
    exact Moves.get.bind fun graph => .modify fun g => hR.replaceEdges g id _

/-- Having nodes keep what their values resolve to is covered. -/
theorem Covers.moves_finalize : Moves R finalize :=
  Moves.get.bind fun _ => .forM fun node _ =>
    ((moves_resolveKeys node ∅ node.keys).mono hR.read).bind fun resolved =>
      .modify fun g => hR.settle g node.id resolved

/-- Handing on a value is covered. -/
theorem Covers.moves_applyEdge (place : Nat) : Moves R (applyEdge place) :=
  Graph.moves_applyEdge hR.read hR.setNodeValue place

/-- Putting all pipelines inside jobs in their place is covered. -/
theorem Covers.moves_expandWithin (options : CompileOptions) (prepare : GraphM Unit) :
    Moves R (expandWithin options prepare) := by
  rw [expandWithin]
  split
  · exact Moves.get.bind fun _ => .forM fun node _ => hR.moves_expandNode prepare node.id
  · exact .pure _

/-- Repeating nodes and handing on values is covered. -/
theorem Covers.moves_spread : Moves R spread :=
  hR.moves_split.bind fun _ => Moves.get.bind fun _ => (moves_ofExcept _).bind fun _ =>
    .forM fun place _ => hR.moves_applyEdge place

/-- Preparation is covered as a whole. -/
theorem Covers.moves_prepare (options : CompileOptions) : Moves R (prepare options) := by
  intro g
  rw [prepare_eq, prepareStages_eq]
  exact (hR.moves_spread.bind fun _ => (hR.moves_expandWithin _ _).bind fun _ => hR.moves_finalize) g

/-- Whatever is asked of a graph, and whatever comes of it, it ends in a related one. -/
theorem Covers.moves_run (call : Call) : Moves R call.run := by
  cases call with
  | prepare options => exact hR.moves_prepare options
  | reduce => exact hR.moves_reduce.bind fun _ => .pure _
  | validate => exact .modify fun g => hR.read _ _ (shifts_validate g)
  | configuration name =>
    exact ((moves_configuration name).mono hR.read).bind fun _ => .pure _
  | summarize => exact (moves_summarize.mono hR.read).bind fun _ => .pure _

end Covering

end Graph

/-- The relation holds between a scope tree and what each of the steps makes of it that graphs take on
theirs: more is remembered, scopes are created, and values are put into them. -/
structure ScopeTree.Underlies (R : ScopeTree → ScopeTree → Prop) : Prop where
  /-- More is remembered of the same scopes. -/
  learn : ∀ tree tree', tree'.forest = tree.forest →
    Resolve.Learns tree.forest [] tree.memo tree'.memo → R tree tree'
  /-- A scope is created, or that fails. -/
  createChild : ∀ parent name, Moves R (ScopeTree.createChild parent name)
  /-- A value is put into a scope, or that fails. -/
  put : ∀ scope key value, Moves R (ScopeTree.put scope key value)

namespace Graph

/-- The scope trees of two graphs are related. -/
def OnScopes (R : ScopeTree → ScopeTree → Prop) (g g' : Graph) : Prop := R g.scope g'.scope

/-- What a step does to the tree it does to the tree of the graph. -/
theorem moves_onScope_related {R : ScopeTree → ScopeTree → Prop} {α : Type} {action : ScopeM α}
    (h : Moves R action) : Moves (OnScopes R) (onScope action) := by
  intro g
  have hs := h g.scope
  rw [onScope]
  cases ha : action g.scope <;> rwa [ha] at hs

section OnScopes

variable {R : ScopeTree → ScopeTree → Prop} [Std.Refl R]

instance : Std.Refl (OnScopes R) := ⟨fun g => refl_of R g.scope⟩

/-- Where the tree is the same, nothing has happened to it. -/
theorem onScopes_of_eq {g g' : Graph} (h : g'.scope = g.scope) : OnScopes R g g' := by
  rw [OnScopes, h]
  exact refl_of R g.scope

variable [IsTrans ScopeTree R]

instance : IsTrans Graph (OnScopes R) := ⟨fun _ _ _ h h' => trans_of R h h'⟩

variable (hR : ScopeTree.Underlies R)

include hR

/-- Putting a value into the tree does to the tree what operations do. -/
theorem onScopes_put (scope : ScopeId) (key : String) (value : Value) :
    Moves (OnScopes R) (do let _ ← onScope (ScopeTree.put scope key value) : GraphM Unit) :=
  (moves_onScope_related (hR.put scope key value)).bind fun _ => .pure _

/-- Adding a node does to the tree what operations do. -/
theorem onScopes_addNode (node : Node) : Moves (OnScopes R) (addNode node) := by
  refine (moves_onScope_related (hR.createChild _ _)).bind fun scope => ?_
  refine Moves.bind (.forM fun entry _ => onScopes_put hR scope entry.1 entry.2) fun _ => ?_
  have hmodify : ∀ id, Moves (OnScopes R) (modify fun graph : Graph =>
      { graph with nodes := graph.nodes ++ [{ node with id }], nextId := id + 1 } : GraphM Unit) :=
    fun _ => .modify fun _ => onScopes_of_eq rfl
  exact Moves.get.bind fun g => (hmodify g.nextId).bind fun _ => .pure _

/-- Giving a node a value does to the tree what operations do. -/
theorem onScopes_setNodeValue (id : NodeId) (key : String) (value : Value) :
    Moves (OnScopes R) (setNodeValue id key value) := by
  have hmodify : Moves (OnScopes R) (modify (·.modifyNode id (·.set key value)) : GraphM Unit) :=
    .modify fun _ => onScopes_of_eq rfl
  refine hmodify.bind fun _ => Moves.get.bind fun graph => ?_
  cases graph.scopeOf? id with
  | none => exact .pure _
  | some scope => exact onScopes_put hR scope key value

/-- What is done with a graph leaves its scope tree related to the one before. -/
theorem covers_onScopes : Covers (OnScopes R) where
  plan g g' h := by
    obtain ⟨memo, edges, hlearns, -, rfl⟩ := h
    exact hR.learn _ _ rfl hlearns
  replaceEdges _ _ _ := onScopes_of_eq rfl
  setEdges _ _ := onScopes_of_eq rfl
  addNode := onScopes_addNode hR
  setNodeValue := onScopes_setNodeValue hR
  settle _ _ _ := onScopes_of_eq rfl

/-- Putting in what all jobs may refer to does to the tree what operations do. -/
theorem onScopes_addGlobals (pipeline : Pipeline) : Moves (OnScopes R) (addGlobals pipeline) := by
  refine (Moves.forM fun entry _ => onScopes_put hR _ entry.1 entry.2).bind fun _ => ?_
  refine .forM fun parameter _ => ?_
  split
  · exact onScopes_put hR _ _ _
  · exact .pure _

/-- So it is with the scope tree of a graph that was built. -/
theorem onScopes_build {pipeline : Pipeline} {graph : Graph} (h : build pipeline = .ok graph) :
    OnScopes R (initial pipeline) graph := by
  obtain ⟨g₁, ids, g₂, g₃, -, hglobals, hnodes, hafter, hdeps⟩ := build_eq_ok h
  have h₁ := (onScopes_addGlobals hR pipeline).of_ok hglobals
  have h₂ := (Moves.mapM fun _ _ => onScopes_addNode hR _).of_ok hnodes
  have hadds : ∀ g g' : Graph, AddsEdges g g' → OnScopes R g g' := fun _ _ h =>
    hR.learn _ _ h.forest h.learns
  have h₃ := (Moves.forM fun entry _ => (moves_afterEdges entry.1 entry.2).mono hadds).of_ok hafter
  have hlast := (Moves.forM fun id _ => (moves_findDependencies id).mono hadds).of_ok hdeps
  exact trans_of (OnScopes R) (trans_of (OnScopes R) h₁ h₂) (trans_of (OnScopes R) h₃ hlast)

end OnScopes

/-- Handles fit together whatever is asked of a graph, and whatever comes of it. -/
theorem keeps_run (call : Call) : Moves (Keeps WellFormed) call.run := by
  have hread : ∀ {α : Type} {x : GraphM α}, Moves SameButMemo x → Moves (Keeps WellFormed) x :=
    fun h => h.mono fun _ _ hsame => hsame.sameOutline.wellFormed
  cases call with
  | prepare options => exact keeps_prepare options
  | reduce =>
    refine Moves.bind (fun g hw => ?_) fun _ => .pure _
    rcases left_reduce g with h | ⟨order, horder, -⟩
    · rwa [h]
    · have ha := (rising_of_topologicalOrder hw.closed horder).acyclic
      rw [reduce_of_acyclic ha hw.closed]
      exact ⟨hw.below, hw.nodup, hw.closed.mono (transitiveReduction_subset g.edges)⟩
  | validate => exact .modify fun g hw => (shifts_validate g).sameOutline.wellFormed hw
  | configuration name => exact (hread (moves_configuration name)).bind fun _ => .pure _
  | summarize => exact (hread moves_summarize).bind fun _ => .pure _

/-- Handles of nodes fit together after any calls. -/
theorem Reachable.wellFormed {pipeline : Pipeline} {graph : Graph} (h : Reachable pipeline graph) :
    graph.WellFormed := by
  induction h with
  | built hbuild => exact (build_spec hbuild).2.1
  | step _ call ih => exact keeps_run call _ ih

/-- When the knot was found, the graph that is left cannot be prepared either. -/
theorem knot_fails_again : ∃ built e graph e' rest, build knot = .ok built ∧
    prepare {} built = .error e graph ∧ Reachable knot graph ∧ prepare {} graph = .error e' rest := by
  obtain ⟨built, -, -, hbuild, -, -, hfirst, hagain⟩ :=
    exists_prepared { expandNested := false } knot
      (fun built _ _ => (prepare {}).run' built = none ∧
        (prepare {}).run' (left (prepare {} built)) = none)
      (by decide +kernel)
  have hfails : ∀ g : Graph, (prepare {}).run' g = none → ∃ e t, prepare {} g = .error e t := by
    intro g hnone
    cases hprepare : prepare {} g with
    | ok u t =>
      delta EStateM.run' EStateM.run at hnone
      rw [hprepare] at hnone
      cases hnone
    | error e t => exact ⟨e, t, rfl⟩
  obtain ⟨e, graph, hprepare⟩ := hfails built hfirst
  rw [hprepare] at hagain
  obtain ⟨e', rest, hrest⟩ := hfails graph hagain
  have hreach : Reachable knot graph := by
    have hcall := (Reachable.built hbuild).step (.prepare {})
    rwa [Call.run, hprepare] at hcall
  exact ⟨built, e, graph, e', rest, hbuild, hprepare, hreach, hrest⟩

end Graph

end Pipework
