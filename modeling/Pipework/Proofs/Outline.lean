import Pipework.Graph.Prepare
import Pipework.Proofs.Memory

/-!
# What steps on a graph leave alone

The outline of a graph is the graph without any values: which nodes there are, of which jobs
they are, and how edges lead. Steps that read values only add to what is remembered of them,
and steps that write values keep the outline. Whether a step fails does not matter.
-/

namespace Pipework

open Step Resolve

/-- The node without its values. -/
def Node.outline (node : Node) : Node := { node with overrides := ∅, resolved? := none }

namespace ScopeTree

/-- At most more is remembered of values. -/
def SameButMemo (tree tree' : ScopeTree) : Prop :=
  ∃ memo, Learns tree.forest [] tree.memo memo ∧ tree' = { tree with memo }

instance : Std.Refl SameButMemo := ⟨fun tree => ⟨tree.memo, refl_of _ tree.memo, rfl⟩⟩

instance : IsTrans ScopeTree SameButMemo where
  trans := by
    rintro tree _ _ ⟨memo, hlearns, rfl⟩ ⟨memo', hlearns', rfl⟩
    exact ⟨memo', trans_of (Learns tree.forest []) hlearns hlearns', rfl⟩

/-- What is resolved in a tree is what resolving comes to, and only what is remembered changes. -/
theorem resolving_eq_ok {α : Type} {action : Forest → ResolveM α} {a : α} {tree tree' : ScopeTree} :
    resolving action tree = .ok a tree' ↔
      ∃ memo, action tree.forest tree.memo = .ok a memo ∧ tree' = { tree with memo } := by
  rw [resolving]
  cases action tree.forest tree.memo <;> simp [eq_comm]

/-- It fails for what resolving fails for, and what was found out till then is remembered. -/
theorem resolving_eq_error {α : Type} {action : Forest → ResolveM α} {e : ScopeError}
    {tree tree' : ScopeTree} : resolving action tree = .error e tree' ↔
      ∃ memo, action tree.forest tree.memo = .error e memo ∧ tree' = { tree with memo } := by
  rw [resolving]
  cases action tree.forest tree.memo <;> simp [eq_comm]

/-- A resolution adds to what is remembered and does nothing else. -/
theorem moves_resolving {α : Type} {action : Forest → ResolveM α}
    (h : ∀ f, Moves (Learns f []) (action f)) : Moves SameButMemo (resolving action) := by
  intro tree
  have hlearns := h tree.forest tree.memo
  cases hresult : resolving action tree with
  | ok a tree' =>
    obtain ⟨memo, hmemo, rfl⟩ := resolving_eq_ok.mp hresult
    rw [hmemo] at hlearns
    exact ⟨memo, hlearns, rfl⟩
  | error e tree' =>
    obtain ⟨memo, hmemo, rfl⟩ := resolving_eq_error.mp hresult
    rw [hmemo] at hlearns
    exact ⟨memo, hlearns, rfl⟩

/-- Resolving a scope adds to what is remembered and nothing else. -/
theorem moves_resolveAt (id : ScopeId) : Moves SameButMemo (resolveAt id) :=
  moves_resolving fun f => moves_scopeValue f id (f.displayName id)

/-- Resolving a value that is written in a scope adds to what is remembered and nothing else. -/
theorem moves_resolve (id : ScopeId) (value : Value) : Moves SameButMemo (resolve id value) :=
  moves_resolving fun f => moves_value value fun path _ =>
    moves_follow (fun other reference => moves_scopeValue f other reference) path

end ScopeTree

namespace Graph

/-- Nodes with one outline agree in all that the outline shows. -/
theorem eq_of_outline {α : Type} {node node' : Node} (h : node'.outline = node.outline)
    (f : Node → α) (hf : ∀ node : Node, f node.outline = f node) : f node' = f node := by
  rw [← hf, h, hf]

section Outline

variable {node node' : Node} (h : node'.outline = node.outline)

include h

/-- Nodes with one outline have one handle. -/
theorem id_of_outline : node'.id = node.id := eq_of_outline h Node.id fun _ => rfl

/-- Nodes with one outline have one name. -/
theorem name_of_outline : node'.name = node.name := eq_of_outline h Node.name fun _ => rfl

/-- Nodes with one outline are of one job. -/
theorem spec_of_outline : node'.spec = node.spec := eq_of_outline h Node.spec fun _ => rfl

/-- Of nodes with one outline both are repetitions, or none is. -/
theorem isReplica_of_outline : node'.isReplica = node.isReplica :=
  eq_of_outline h Node.isReplica fun _ => rfl

end Outline

/-- Reading a value under a name and a key adds to what is remembered and nothing else. -/
theorem moves_readProperty (owner key : String) :
    Moves ScopeTree.SameButMemo (readProperty owner key) := by
  refine Moves.get.bind fun tree => ?_
  dsimp only
  split
  · split
    · exact (ScopeTree.moves_resolveAt _).bind fun _ => .pure _
    · exact .pure _
  · exact .pure _

/-- The graph without values. -/
def outline (graph : Graph) : Graph :=
  { graph with nodes := graph.nodes.map Node.outline, scope := .initial }

/-- At most more is remembered of values. -/
def SameButMemo (g g' : Graph) : Prop :=
  ∃ memo, Learns g.scope.forest [] g.scope.memo memo ∧ g' = { g with scope := { g.scope with memo } }

/-- At most the scope tree differs. -/
def SameButScope (g g' : Graph) : Prop := ∃ scope, g' = { g with scope }

/-- At most values differ. -/
def SameOutline (g g' : Graph) : Prop := g'.outline = g.outline

instance : Std.Refl SameButMemo := ⟨fun g => ⟨g.scope.memo, refl_of _ g.scope.memo, rfl⟩⟩

instance : IsTrans Graph SameButMemo where
  trans := by
    rintro g _ _ ⟨memo, hlearns, rfl⟩ ⟨memo', hlearns', rfl⟩
    exact ⟨memo', trans_of (Learns g.scope.forest []) hlearns hlearns', rfl⟩

instance : Std.Refl SameButScope := ⟨fun g => ⟨g.scope, rfl⟩⟩

instance : IsTrans Graph SameButScope :=
  ⟨fun _ _ _ ⟨_, h⟩ ⟨scope, h'⟩ => ⟨scope, by rw [h', h]⟩⟩

instance : Std.Refl SameOutline := ⟨fun _ => rfl⟩

instance : IsTrans Graph SameOutline := ⟨fun _ _ _ h h' => h'.trans h⟩

/-- Where only what is remembered differs, only the scopes do. -/
theorem SameButMemo.sameButScope {g g' : Graph} (h : SameButMemo g g') : SameButScope g g' := by
  obtain ⟨memo, -, rfl⟩ := h
  exact ⟨_, rfl⟩

/-- Where only the scopes differ, the outline is the same. -/
theorem SameButScope.sameOutline {g g' : Graph} (h : SameButScope g g') : SameOutline g g' := by
  obtain ⟨scope, rfl⟩ := h
  rfl

theorem SameButMemo.sameOutline {g g' : Graph} (h : SameButMemo g g') : SameOutline g g' :=
  h.sameButScope.sameOutline

/-- Graphs with one outline have the same edges. -/
theorem SameOutline.edges {g g' : Graph} (h : SameOutline g g') : g'.edges = g.edges :=
  (congrArg Graph.edges h : g'.outline.edges = g.outline.edges)

/-- Graphs with one outline give the next node the same handle. -/
theorem SameOutline.nextId {g g' : Graph} (h : SameOutline g g') : g'.nextId = g.nextId :=
  (congrArg Graph.nextId h : g'.outline.nextId = g.outline.nextId)

/-- What does not depend on values is the same for all nodes. -/
theorem SameOutline.map_nodes {α : Type} {g g' : Graph} (h : SameOutline g g') (f : Node → α)
    (hf : ∀ node : Node, f node.outline = f node) : g'.nodes.map f = g.nodes.map f := by
  have hn := congrArg (fun graph => graph.nodes.map f) (show g'.outline = g.outline from h)
  simpa only [outline, List.map_map, Function.comp_def, hf] using hn

/-- Graphs with one outline have nodes under the same handles. -/
theorem SameOutline.ids {g g' : Graph} (h : SameOutline g g') :
    g'.nodes.map (·.id) = g.nodes.map (·.id) := h.map_nodes _ fun _ => rfl

section Reading

variable {R : Graph → Graph → Prop} [Std.Refl R]

theorem moves_ofExcept {α : Type} (x : Except GraphError α) : Moves R (ofExcept x) := by
  cases x with
  | ok a => exact .pure a
  | error e => exact .throw e

theorem moves_ofOption {α : Type} (x : Option α) : Moves R (ofOption x) := by
  cases x with
  | some a => exact .pure a
  | none => exact .throw _

variable [IsTrans Graph R]

/-- Looking up a node changes nothing. -/
theorem moves_nodeAt (id : NodeId) : Moves R (nodeAt id) :=
  Moves.get.bind fun _ => moves_ofOption _

/-- Looking up an edge changes nothing. -/
theorem moves_edgeAt (place : Nat) : Moves R (edgeAt place) :=
  Moves.get.bind fun _ => moves_ofOption _

end Reading

theorem ofExcept_eq_ok {α : Type} {x : Except GraphError α} {a : α} {g g' : Graph} :
    ofExcept x g = .ok a g' ↔ x = .ok a ∧ g = g' := by
  cases x with
  | ok b => exact pure_eq_ok.trans (by simp)
  | error e => exact iff_of_false throw_ne_ok (by simp)

theorem ofOption_eq_ok {α : Type} {x : Option α} {a : α} {g g' : Graph} :
    ofOption x g = .ok a g' ↔ x = some a ∧ g = g' := by
  cases x with
  | some b => exact pure_eq_ok.trans (by simp)
  | none => exact iff_of_false throw_ne_ok (by simp)

/-- A node that was looked up is there, and nothing has changed. -/
theorem nodeAt_eq_ok {id : NodeId} {node : Node} {g g' : Graph} :
    nodeAt id g = .ok node g' ↔ g.node? id = some node ∧ g = g' := by
  rw [nodeAt, bind_eq_ok]
  simp [get_eq_ok, ofOption_eq_ok, and_comm]

/-- An edge that was looked up is there, and nothing has changed. -/
theorem edgeAt_eq_ok {place : Nat} {edge : Edge} {g g' : Graph} :
    edgeAt place g = .ok edge g' ↔ g.edges[place]? = some edge ∧ g = g' := by
  rw [edgeAt, bind_eq_ok]
  simp [get_eq_ok, ofOption_eq_ok, and_comm]

/-- A step on the scope tree touches nothing else. -/
theorem moves_onScope {α : Type} (action : ScopeM α) : Moves SameButScope (onScope action) := by
  intro g
  rw [onScope]
  cases action g.scope <;> exact ⟨_, rfl⟩

/-- What only adds to what is remembered in the tree does so in the graph. -/
theorem moves_onScope_of {α : Type} {action : ScopeM α}
    (h : Moves ScopeTree.SameButMemo action) : Moves SameButMemo (onScope action) := by
  intro g
  have hs := h g.scope
  rw [onScope]
  cases ha : action g.scope with
  | ok a tree =>
    obtain ⟨memo, hlearns, hm⟩ : ScopeTree.SameButMemo g.scope tree := by rwa [ha] at hs
    exact ⟨memo, hlearns, by rw [left, hm]⟩
  | error e tree =>
    obtain ⟨memo, hlearns, hm⟩ : ScopeTree.SameButMemo g.scope tree := by rwa [ha] at hs
    exact ⟨memo, hlearns, by rw [left, hm]⟩

/-- Reading a value of a node adds to what is remembered and nothing else. -/
theorem moves_propertyValue (id : NodeId) (key : String) :
    Moves SameButMemo (propertyValue id key) := by
  refine Moves.get.bind fun graph => ?_
  cases graph.node? id with
  | none => exact .pure _
  | some node => exact moves_onScope_of (moves_readProperty node.name key)

/-- Reading several values of a node adds to what is remembered and nothing else. -/
theorem moves_resolveKeys (node : Node) (resolved : Settings) (keys : List String) :
    Moves SameButMemo (resolveKeys node resolved keys) := by
  induction keys generalizing resolved with
  | nil => exact .pure _
  | cons key keys ih =>
    refine (moves_onScope_of (moves_readProperty node.name key)).bind fun value? => ?_
    cases value? with
    | none => exact ih resolved
    | some value => exact ih _

/-- Reading all values of a node adds to what is remembered and nothing else. -/
theorem moves_resolvedOf (node : Node) : Moves SameButMemo (resolvedOf node) := by
  rw [resolvedOf]
  cases node.resolved? with
  | none => exact moves_resolveKeys node ∅ node.keys
  | some resolved => exact .pure _

/-- Reading all values under a name adds to what is remembered and nothing else. -/
theorem moves_configuration (name : String) : Moves SameButMemo (configuration name) := by
  refine Moves.get.bind fun graph => ?_
  cases graph.find? name with
  | none => exact .throw _
  | some node => exact moves_resolvedOf node

/-- Changing a node in what the outline does not show keeps the outline. -/
theorem outline_modifyNode (graph : Graph) (id : NodeId) {change : Node → Node}
    (hc : ∀ node, (change node).outline = node.outline) :
    (graph.modifyNode id change).outline = graph.outline := by
  have hn : (graph.nodes.map fun node => if node.id = id then change node else node).map
      Node.outline = graph.nodes.map Node.outline := by
    rw [List.map_map]
    refine List.map_congr_left fun node _ => ?_
    rw [Function.comp_apply]
    split
    · exact hc node
    · rfl
  simp only [modifyNode, outline, hn]

/-- Having a node keep what its values resolve to keeps the outline. -/
theorem moves_finalizeNode (node : Node) : Moves SameOutline (finalizeNode node) :=
  ((moves_resolveKeys node ∅ node.keys).mono fun _ _ h => h.sameOutline).bind fun _ =>
    .modify fun g => outline_modifyNode g node.id fun _ => rfl

/-- Having all nodes keep what their values resolve to keeps the outline. -/
theorem moves_finalize : Moves SameOutline finalize :=
  Moves.get.bind fun _ => .forM fun node _ => moves_finalizeNode node

/-- A node is given a value in a step that changes the node and one that changes scopes. -/
theorem moves_setNodeValue_of {R : Graph → Graph → Prop} [Std.Refl R] [IsTrans Graph R] {id : NodeId}
    {key : String} {value : Value} (hset : ∀ g, R g (g.modifyNode id (·.set key value)))
    (hscope : ∀ g g', SameButScope g g' → R g g') : Moves R (setNodeValue id key value) := by
  have hmodify : Moves R (modify (·.modifyNode id (·.set key value)) : GraphM Unit) := .modify hset
  refine hmodify.bind fun _ => Moves.get.bind fun graph => ?_
  cases graph.scopeOf? id with
  | none => exact .pure _
  | some scope => exact ((moves_onScope _).mono hscope).bind fun _ => .pure _

/-- Giving a node a value keeps the outline. -/
theorem moves_setNodeValue (id : NodeId) (key : String) (value : Value) :
    Moves SameOutline (setNodeValue id key value) :=
  moves_setNodeValue_of (fun g => outline_modifyNode g id fun _ => rfl) fun _ _ h => h.sameOutline

section Writing

variable {R : Graph → Graph → Prop} [Std.Refl R] [IsTrans Graph R]
  (hread : ∀ g g', SameButMemo g g' → R g g')
  (hset : ∀ id key value, Moves R (setNodeValue id key value))

include hread hset

/-- Handing on a value moves a graph as reading and giving values do. -/
theorem moves_applyEdge (place : Nat) : Moves R (applyEdge place) := by
  refine (moves_edgeAt place).bind fun edge => ?_
  cases edge.kind with
  | after => exact .pure _
  | data link =>
    refine ((moves_propertyValue _ _).mono hread).bind fun current => ?_
    refine (moves_nodeAt _).bind fun source => (moves_nodeAt _).bind fun target => ?_
    refine (moves_ofExcept _).bind fun merged => ?_
    cases merged with
    | none => exact .pure _
    | some value => exact hset _ _ value

/-- Handing on values comes down to reading and setting values. -/
theorem moves_configure_of : Moves R configure :=
  Moves.get.bind fun _ => (moves_ofExcept _).bind fun _ =>
    .forM fun place _ => moves_applyEdge hread hset place

end Writing

/-- Handing on values changes nothing but values. -/
theorem moves_configure : Moves SameOutline configure :=
  moves_configure_of (fun _ _ h => h.sameOutline) moves_setNodeValue

end Graph

end Pipework
