import Pipework.Proofs.Flatness
import Pipework.Proofs.AllValues

/-!
# Graphs without lists in lists

In the graph of a pipeline in which no list holds a list, no value holds one, neither those that
scopes hold nor what is remembered of them. That stays so when nodes are repeated and when values are
handed on.
-/

namespace Pipework

open Step Resolve Value

/-- No value that is given or has a default in the definition has a list in a list. -/
structure Pipeline.Flat (pipeline : Pipeline) : Prop where
  /-- Nor those that are given to all jobs. -/
  configuration : ∀ entry ∈ pipeline.configuration.entries, entry.2.isFlat = true
  /-- Nor those that stand in for them. -/
  defaults : ∀ parameter ∈ pipeline.parameters, ∀ value ∈ parameter.default?, value.isFlat = true
  /-- Nor those that are given to a job. -/
  given : ∀ job ∈ pipeline.jobs, ∀ entry ∈ job.configuration.entries, entry.2.isFlat = true
  /-- Nor those that stand in for them. -/
  standing : ∀ job ∈ pipeline.jobs, ∀ parameter ∈ job.parameters, ∀ value ∈ parameter.default?,
    value.isFlat = true

/-- No list of a pipeline holds a list if that is so for all its values. -/
theorem Pipeline.flat_iff {pipeline : Pipeline} :
    pipeline.Flat ↔ pipeline.All (·.isFlat = true) :=
  ⟨fun h => ⟨h.configuration, h.defaults, h.given, h.standing⟩,
    fun h => ⟨h.configuration, h.defaults, h.given, h.standing⟩⟩

/-- No value that a scope holds or that is remembered has a list in a list. -/
structure ScopeTree.Flat (tree : ScopeTree) : Prop where
  /-- No value that a scope holds has. -/
  forest : tree.forest.Flat
  /-- Nothing that values resolved to has. -/
  memory : ∀ id v, tree.memo.lookup id = some v → v.isFlat = true

/-- Holding no list in a list passes from values to what they resolve to. -/
theorem Value.hereditary_isFlat : Value.Hereditary (·.isFlat = true) := fun _ h =>
  Forest.Flat.inherited h

namespace ScopeTree

/-- No list of a tree holds a list if that is so for all its values. -/
theorem flat_iff {tree : ScopeTree} : tree.Flat ↔ tree.All (·.isFlat = true) :=
  ⟨fun h => ⟨h.forest, h.memory⟩, fun h => ⟨h.forest, h.memory⟩⟩

/-- What is remembered now will be remembered later. -/
theorem Flat.of_recalls {tree tree' : ScopeTree} (h : tree'.Flat)
    (hforest : tree'.forest = tree.forest) (hrecalls : Recalls tree.memo tree'.memo) : tree.Flat :=
  flat_iff.mpr ((flat_iff.mp h).of_recalls hforest hrecalls)

end ScopeTree

namespace Graph

open ScopeTree

/-- Reading values makes no list in a list. -/
theorem SameButMemo.flat {g g' : Graph} (h : SameButMemo g g') (hg : g.scope.Flat) :
    g'.scope.Flat :=
  flat_iff.mpr (h.all hereditary_isFlat (flat_iff.mp hg))

/-- Finding out what a node is repeated for makes no list in a list. -/
theorem Plans.flat {g g' : Graph} (h : Plans g g') (hg : g.scope.Flat) : g'.scope.Flat :=
  flat_iff.mpr (h.all hereditary_isFlat (flat_iff.mp hg))

/-- Giving a node a value without a list in a list keeps all values so. -/
theorem flat_of_setNodeValue {g g' : Graph} (hm : g.Mirrored) (hg : g.scope.Flat) {id : NodeId}
    {key : String} {value : Value} (hvalue : value.isFlat = true) {u : Unit}
    (h : setNodeValue id key value g = .ok u g') : g'.scope.Flat :=
  flat_iff.mpr (all_of_setNodeValue hm (flat_iff.mp hg) hvalue h)

/-- A node without lists in lists may be added. -/
theorem flat_of_addNode {node : Node} {id : NodeId} {g g' : Graph} (hm : g.Mirrored)
    (hg : g.scope.Flat) (hnode : ∀ key v, node.configured? key = some v → v.isFlat = true)
    (h : addNode node g = .ok id g') : g'.scope.Flat :=
  flat_iff.mpr (all_of_addNode hm (flat_iff.mp hg) hnode h)

theorem flat_configured {g : Graph} (hm : g.Mirrored) (hg : g.scope.Flat) {node : Node}
    (hn : node ∈ g.nodes) {key : String} {v : Value} (hv : node.configured? key = some v) :
    v.isFlat = true :=
  all_configured hm (flat_iff.mp hg) hn hv

/-- What is read of a value has no list in a list. -/
theorem flat_of_propertyValue {id : NodeId} {key : String} {value? : Option Value} {g g' : Graph}
    (hg : g.scope.Flat) (h : propertyValue id key g = .ok value? g') :
    ∀ v ∈ value?, v.isFlat = true :=
  all_of_propertyValue hereditary_isFlat (flat_iff.mp hg) h

/-- The graph of a pipeline without lists in lists has none as it is built. -/
theorem flat_build {pipeline : Pipeline} (hpipeline : pipeline.Flat) {built : Graph}
    (h : build pipeline = .ok built) : built.scope.Flat :=
  flat_iff.mpr (all_build (Pipeline.flat_iff.mp hpipeline) hereditary_isFlat h)

end Graph

end Pipework
