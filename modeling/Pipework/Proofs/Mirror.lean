import Pipework.Proofs.Ordering
import Pipework.Proofs.Settings

/-!
# Scopes that show the values of nodes

The root scope has a scope for each node, which holds under each key the present value of the
node. Nodes and scopes are changed together, so this stays so, and as every write makes all
values be forgotten, what is remembered of them goes together with what they are.
-/

namespace Pipework

open Step Resolve

namespace ScopeTree

/-- A scope that was looked up is there, and nothing has changed. -/
theorem scopeAt_eq_ok {id : ScopeId} {scope : Scope} {tree tree' : ScopeTree} :
    scopeAt id tree = .ok scope tree' ↔ tree.forest.get? id = some scope ∧ tree = tree' := by
  rw [scopeAt, bind_eq_ok]
  cases hscope : tree.forest.get? id with
  | none => simp [get_eq_ok, hscope, throw_ne_ok]
  | some found => simp [get_eq_ok, hscope, pure_eq_ok]

/-- A scope that is created stands in another one that has no value and no scope of its name. -/
theorem createChild_eq_ok {parent id : ScopeId} {name : String} {tree tree' : ScopeTree}
    (h : createChild parent name tree = .ok id tree') : parent < tree.forest.size ∧
      tree.forest.raw? parent = none ∧ tree.forest.child? parent name = none ∧
      id = tree.forest.size ∧ tree' = { tree with forest := tree.forest.addChild parent name } := by
  obtain ⟨scope, _, hat, h⟩ := bind_eq_ok.mp h
  obtain ⟨hscope, rfl⟩ := scopeAt_eq_ok.mp hat
  obtain ⟨_, _, hget, h⟩ := bind_eq_ok.mp h
  obtain ⟨rfl, rfl⟩ := get_eq_ok.mp hget
  split at h
  · exact absurd h throw_ne_ok
  next hvalue =>
    split at h
    · exact absurd h throw_ne_ok
    next hchild =>
      obtain ⟨_, _, hmodify, h⟩ := bind_eq_ok.mp h
      obtain rfl := modify_eq_ok.mp hmodify
      obtain ⟨rfl, rfl⟩ := pure_eq_ok.mp h
      refine ⟨?_, ?_, by simpa using hchild, rfl, rfl⟩
      · rw [Forest.lt_size, hscope]
        rfl
      · simpa [Forest.raw?, Forest.content?, hscope] using hvalue

/-- A value is stored in a scope without children, and then all is forgotten. -/
theorem store_eq_ok {id : ScopeId} {value : Value} {binding? : Option Binding} {u : Unit}
    {tree tree' : ScopeTree} (h : store id value binding? tree = .ok u tree') :
    tree.forest.children id = [] ∧ ∃ kept, tree' =
      { tree with forest := tree.forest.setEntry id ⟨value, kept⟩, memo := [] } := by
  obtain ⟨scope, _, hat, h⟩ := bind_eq_ok.mp h
  obtain ⟨hscope, rfl⟩ := scopeAt_eq_ok.mp hat
  obtain ⟨_, _, hget, h⟩ := bind_eq_ok.mp h
  obtain ⟨rfl, rfl⟩ := get_eq_ok.mp hget
  split at h
  · exact absurd h throw_ne_ok
  next hchildren =>
    obtain ⟨_, _, hmodify, h⟩ := bind_eq_ok.mp h
    obtain rfl := modify_eq_ok.mp hmodify
    obtain rfl := modify_eq_ok.mp h
    exact ⟨by simpa [Forest.children, hscope] using hchildren, _, rfl⟩

/-- A value can be stored in a scope that holds no others. -/
theorem exists_store {id : ScopeId} {tree : ScopeTree} (hid : id < tree.forest.size)
    (hchildren : tree.forest.children id = []) (value : Value) (binding? : Option Binding) :
    ∃ tree', store id value binding? tree = .ok () tree' := by
  obtain ⟨scope, hscope⟩ := Option.isSome_iff_exists.mp (Forest.lt_size.mp hid)
  have hnone : scope.children = [] := by simpa [Forest.children, hscope] using hchildren
  let kept := binding?.or (scope.content?.bind (·.binding?))
  refine ⟨{ tree with forest := tree.forest.setEntry id ⟨value, kept⟩, memo := [] }, ?_⟩
  refine bind_eq_ok.mpr ⟨scope, tree, scopeAt_eq_ok.mpr ⟨hscope, rfl⟩, ?_⟩
  refine bind_eq_ok.mpr ⟨tree, tree, get_eq_ok.mpr ⟨rfl, rfl⟩, ?_⟩
  rw [if_neg (not_not.mpr hnone)]
  rfl

/-- A scope can be added under a name that is free in a scope without a value. -/
theorem exists_createChild {parent : ScopeId} {name : String} {tree : ScopeTree}
    (hp : parent < tree.forest.size) (hempty : tree.forest.raw? parent = none)
    (hfresh : tree.forest.child? parent name = none) :
    createChild parent name tree = .ok tree.forest.size
      { tree with forest := tree.forest.addChild parent name } := by
  obtain ⟨scope, hscope⟩ := Option.isSome_iff_exists.mp (Forest.lt_size.mp hp)
  have hnone : ¬ scope.content?.isSome := by
    simpa [Forest.raw?, Forest.content?, hscope] using hempty
  refine bind_eq_ok.mpr ⟨scope, tree, scopeAt_eq_ok.mpr ⟨hscope, rfl⟩, ?_⟩
  refine bind_eq_ok.mpr ⟨tree, tree, get_eq_ok.mpr ⟨rfl, rfl⟩, ?_⟩
  rw [if_neg hnone, hfresh]
  rfl

/-- Putting a value under a key puts it there, and then all is forgotten. -/
theorem put_eq_ok {scope id : ScopeId} {key : String} {value : Value} {tree tree' : ScopeTree}
    (hf : tree.forest.Sound)
    (hplace : scope = Forest.root ∨ scope ∈ tree.forest.children Forest.root)
    (h : put scope key value tree = .ok id tree') :
    ∃ leaf, Forest.Writes scope key value leaf tree.forest tree'.forest ∧ tree'.memo = [] := by
  obtain ⟨_, _, hget, h⟩ := bind_eq_ok.mp h
  obtain ⟨rfl, rfl⟩ := get_eq_ok.mp hget
  cases hchild : tree.forest.child? scope key with
  | some known =>
    simp only [hchild] at h
    obtain ⟨leaf, _, hleaf, h⟩ := bind_eq_ok.mp h
    obtain ⟨rfl, rfl⟩ := pure_eq_ok.mp hleaf
    obtain ⟨_, _, hstore, h⟩ := bind_eq_ok.mp h
    obtain ⟨rfl, rfl⟩ := pure_eq_ok.mp h
    obtain ⟨hbare, kept, rfl⟩ := store_eq_ok hstore
    have hmem := (Forest.mem_of_child? hchild).1
    have hempty : tree.forest.raw? scope = none := by
      rw [← Option.not_isSome_iff_eq_none]
      intro hsome
      rw [hf.leaf scope hsome] at hmem
      exact absurd hmem List.not_mem_nil
    obtain ⟨leaf, hwrites⟩ := Forest.writes_written hf key
      (Forest.Sound.parent_lt_size hmem) hplace hempty
      (fun other ho => by rwa [← Option.some.inj (hchild.symm.trans ho)]) ⟨value, kept⟩
    rw [Forest.written, hchild] at hwrites
    exact ⟨leaf, hwrites, rfl⟩
  | none =>
    simp only [hchild] at h
    obtain ⟨leaf, _, hleaf, h⟩ := bind_eq_ok.mp h
    obtain ⟨hs, hempty, -, rfl, rfl⟩ := createChild_eq_ok hleaf
    obtain ⟨_, _, hstore, h⟩ := bind_eq_ok.mp h
    obtain ⟨rfl, rfl⟩ := pure_eq_ok.mp h
    obtain ⟨-, kept, rfl⟩ := store_eq_ok hstore
    obtain ⟨leaf, hwrites⟩ := Forest.writes_written hf key hs hplace hempty
      (fun other ho => by rw [hchild] at ho; cases ho) ⟨value, kept⟩
    rw [Forest.written, hchild] at hwrites
    exact ⟨leaf, hwrites, rfl⟩

/-- Values can be put into a scope of the root that has no value. -/
theorem exists_put {owner : String} {scope : ScopeId} {tree : ScopeTree} (hf : tree.forest.Sound)
    (hs : tree.forest.child? Forest.root owner = some scope)
    (hempty : tree.forest.raw? scope = none) (key : String) (value : Value) :
    ∃ id tree', put scope key value tree = .ok id tree' := by
  have hmem := (Forest.mem_of_child? hs).1
  cases hchild : tree.forest.child? scope key with
  | some leaf =>
    have hin := (Forest.mem_of_child? hchild).1
    obtain ⟨tree', hstore⟩ :=
      exists_store (hf.lt_size hin) (hf.flat scope hmem leaf hin) value none
    refine ⟨leaf, tree', bind_eq_ok.mpr ⟨tree, tree, get_eq_ok.mpr ⟨rfl, rfl⟩, ?_⟩⟩
    simp only [hchild]
    refine bind_eq_ok.mpr ⟨leaf, tree, pure_eq_ok.mpr ⟨rfl, rfl⟩, ?_⟩
    exact bind_eq_ok.mpr ⟨(), tree', hstore, pure_eq_ok.mpr ⟨rfl, rfl⟩⟩
  | none =>
    have hlt := hf.lt_size hmem
    have hin : tree.forest.size ∈ (tree.forest.addChild scope key).children scope := by
      rw [Forest.children_addChild hlt, if_pos rfl]
      exact List.mem_append_right _ (List.mem_singleton_self _)
    have hbare : (tree.forest.addChild scope key).children tree.forest.size = [] := by
      rw [Forest.children_addChild hlt, if_neg (Nat.ne_of_gt hlt), Forest.children,
        Forest.get?_size]
      rfl
    obtain ⟨tree', hstore⟩ : ∃ tree', store tree.forest.size value none
        { tree with forest := tree.forest.addChild scope key } = .ok () tree' :=
      exists_store ((hf.addChild hlt key (.inr hmem) hempty).lt_size hin) hbare value none
    refine ⟨tree.forest.size, tree', bind_eq_ok.mpr ⟨tree, tree, get_eq_ok.mpr ⟨rfl, rfl⟩, ?_⟩⟩
    simp only [hchild]
    refine bind_eq_ok.mpr ⟨tree.forest.size, _, exists_createChild hlt hempty hchild, ?_⟩
    exact bind_eq_ok.mpr ⟨(), tree', hstore, pure_eq_ok.mpr ⟨rfl, rfl⟩⟩

end ScopeTree

namespace Graph

/-- What is done on the tree of a graph changes the tree and nothing else. -/
theorem onScope_eq_ok {α : Type} {action : ScopeM α} {a : α} {g g' : Graph} :
    onScope action g = .ok a g' ↔
      ∃ tree, action g.scope = .ok a tree ∧ g' = { g with scope := tree } := by
  rw [onScope]
  cases action g.scope with
  | error e tree => simp
  | ok b tree => simp [eq_comm]

/-- Each node has a scope of its own, which holds the present values of the node, and what is
remembered of values is what they are. -/
structure Mirrored (graph : Graph) : Prop where
  /-- Handles of nodes have been given out. -/
  below : ∀ id ∈ graph.nodes.map (·.id), id < graph.nextId
  /-- Different nodes have different handles. -/
  ids : (graph.nodes.map (·.id)).Nodup
  /-- Different nodes have different names. -/
  names : (graph.nodes.map (·.name)).Nodup
  /-- Scopes fit together. -/
  sound : graph.scope.forest.Sound
  /-- There is room for the values of each node. -/
  room : ∀ node ∈ graph.nodes, graph.scope.forest.Open node.name
  /-- The values of each node are held there. -/
  held : ∀ node ∈ graph.nodes, ∀ key,
    graph.scope.forest.held? node.name key = (node.configured? key).map some
  /-- What is remembered goes together with what is held. -/
  consistent : Consistent graph.scope.forest graph.scope.memo

/-- A graph whose scopes are untouched mirrors its nodes if these are old ones, perhaps not all,
with their values. -/
theorem Mirrored.of_nodes {g g' : Graph} (h : g.Mirrored)
    (hforest : g'.scope.forest = g.scope.forest)
    (hlearns : Learns g.scope.forest [] g.scope.memo g'.scope.memo) (hnext : g.nextId ≤ g'.nextId)
    (hids : (g'.nodes.map (·.id)).Sublist (g.nodes.map (·.id)))
    (hnames : (g'.nodes.map (·.name)).Sublist (g.nodes.map (·.name)))
    (hnodes : ∀ node' ∈ g'.nodes, ∃ node ∈ g.nodes, node.name = node'.name ∧
      ∀ key, node.configured? key = node'.configured? key) : g'.Mirrored where
  below id hid := (h.below id (hids.subset hid)).trans_le hnext
  ids := hids.nodup h.ids
  names := hnames.nodup h.names
  sound := hforest ▸ h.sound
  room node' hn := by
    obtain ⟨node, hnode, hname, -⟩ := hnodes node' hn
    rw [hforest, ← hname]
    exact h.room node hnode
  held node' hn key := by
    obtain ⟨node, hnode, hname, hvalues⟩ := hnodes node' hn
    rw [hforest, ← hname, ← hvalues]
    exact h.held node hnode key
  consistent := hforest ▸ hlearns.consistent h.consistent

/-- Nodes go on being mirrored, keys that have a value go on having one, and what all nodes share
stays. -/
def InStep (g g' : Graph) : Prop := g.Mirrored → g'.Mirrored ∧
  (∀ owner key v, g.scope.forest.held? owner key = some (some v) →
    ∃ v', g'.scope.forest.held? owner key = some (some v')) ∧
  ∀ name, g'.scope.forest.shared? name = g.scope.forest.shared? name

instance : Std.Refl InStep := ⟨fun _ h => ⟨h, fun _ _ v hv => ⟨v, hv⟩, fun _ => rfl⟩⟩

instance : IsTrans Graph InStep where
  trans g g' g'' h h' hm := by
    obtain ⟨hm', hkept, hshared⟩ := h hm
    obtain ⟨hm'', hkept', hshared'⟩ := h' hm'
    refine ⟨hm'', fun owner key v hv => ?_, fun name => (hshared' name).trans (hshared name)⟩
    obtain ⟨v', hv'⟩ := hkept owner key v hv
    exact hkept' owner key v' hv'

/-- As long as scopes are untouched and nodes keep their values, all stays in step. -/
theorem inStep_of_nodes {g g' : Graph} (hforest : g'.scope.forest = g.scope.forest)
    (hlearns : Learns g.scope.forest [] g.scope.memo g'.scope.memo) (hnext : g.nextId ≤ g'.nextId)
    (hids : (g'.nodes.map (·.id)).Sublist (g.nodes.map (·.id)))
    (hnames : (g'.nodes.map (·.name)).Sublist (g.nodes.map (·.name)))
    (hnodes : ∀ node' ∈ g'.nodes, ∃ node ∈ g.nodes, node.name = node'.name ∧
      ∀ key, node.configured? key = node'.configured? key) : InStep g g' := fun h =>
  ⟨h.of_nodes hforest hlearns hnext hids hnames hnodes, fun _ _ v hv => ⟨v, hforest ▸ hv⟩,
    fun name => congrArg (Forest.shared? · name) hforest⟩

/-- What touches no nodes and no scopes stays in step. -/
theorem inStep_of_same {g g' : Graph} (hnodes : g'.nodes = g.nodes) (hnext : g'.nextId = g.nextId)
    (hforest : g'.scope.forest = g.scope.forest)
    (hlearns : Learns g.scope.forest [] g.scope.memo g'.scope.memo) : InStep g g' := by
  refine inStep_of_nodes hforest hlearns hnext.ge ?_ ?_ fun node hn => ?_
  · rw [hnodes]
  · rw [hnodes]
  · exact ⟨node, hnodes ▸ hn, rfl, fun _ => rfl⟩

/-- Reading values keeps nodes and scopes in step. -/
theorem SameButMemo.inStep {g g' : Graph} (h : SameButMemo g g') : InStep g g' := by
  obtain ⟨memo, hlearns, rfl⟩ := h
  exact inStep_of_same rfl rfl rfl hlearns

/-- Adding edges keeps nodes and scopes in step. -/
theorem AddsEdges.inStep {g g' : Graph} (h : AddsEdges g g') : InStep g g' :=
  inStep_of_same h.nodes h.nextId h.forest h.learns

/-- Taking out a node and adding edges stays in step, as the scope of the node stays. -/
theorem inStep_replaceEdges (g : Graph) (id : NodeId) (edges : List Edge) :
    InStep g ((g.removeNode id).addEdges edges) := by
  refine inStep_of_nodes rfl (refl_of _ g.scope.memo) le_rfl ?_ ?_ fun node hn => ?_
  · exact List.filter_sublist.map _
  · exact List.filter_sublist.map _
  · exact ⟨node, List.mem_of_mem_filter hn, rfl, fun _ => rfl⟩

/-- Where nothing is remembered, all that is remembered fits the values. -/
theorem consistent_nil (f : Forest) : Consistent f [] := fun id v raw hv => by cases hv

/-- A node is found under its handle, changed if it is the one that was changed. -/
theorem node?_modifyNode (g : Graph) (id other : NodeId) {change : Node → Node}
    (hc : ∀ node : Node, (change node).id = node.id) : (g.modifyNode id change).node? other =
      (g.node? other).map fun node => if node.id = id then change node else node := by
  rw [node?, modifyNode, List.find?_map, node?]
  congr 1
  refine List.find?_congr fun node _ => ?_
  rw [Function.comp_apply]
  split
  · rw [hc]
  · rfl

/-- What a change of a node keeps is kept for all nodes. -/
theorem map_modifyNode {α : Type} (g : Graph) (id : NodeId) {change : Node → Node} (f : Node → α)
    (hc : ∀ node : Node, f (change node) = f node) :
    (g.modifyNode id change).nodes.map f = g.nodes.map f := by
  rw [modifyNode, List.map_map]
  refine List.map_congr_left fun node _ => ?_
  rw [Function.comp_apply]
  split
  · exact hc node
  · rfl

/-- Each node is found under its handle. -/
theorem Mirrored.node?_eq_some {g : Graph} (h : g.Mirrored) {node : Node} (hn : node ∈ g.nodes) :
    g.node? node.id = some node := find?_eq_some_of_nodup h.ids hn

/-- A graph goes on mirroring its nodes when a node and the scope of its name get a value. -/
theorem Mirrored.set {g : Graph} (h : g.Mirrored) {node : Node} (hn : node ∈ g.nodes)
    {scope leaf : ScopeId} {key : String} {value : Value} {tree : ScopeTree}
    (hs : g.scope.forest.child? Forest.root node.name = some scope)
    (hw : Forest.Writes scope key value leaf g.scope.forest tree.forest) (hmemo : tree.memo = []) :
    Mirrored { g.modifyNode node.id (·.set key value) with scope := tree } where
  below := by
    have hids : (g.modifyNode node.id (·.set key value)).nodes.map (·.id) = g.nodes.map (·.id) :=
      map_modifyNode g node.id _ fun _ => rfl
    exact fun id hid => h.below id (hids ▸ hid)
  ids := by
    have hids : (g.modifyNode node.id (·.set key value)).nodes.map (·.id) = g.nodes.map (·.id) :=
      map_modifyNode g node.id _ fun _ => rfl
    exact hids ▸ h.ids
  names := by
    have hnames : (g.modifyNode node.id (·.set key value)).nodes.map (·.name) =
        g.nodes.map (·.name) := map_modifyNode g node.id _ fun _ => rfl
    exact hnames ▸ h.names
  sound := hw.sound
  room other ho := by
    obtain ⟨old, hold, rfl⟩ := List.mem_map.mp ho
    have hopen := hw.open h.sound hs (h.room old hold)
    split
    · exact hopen
    · exact hopen
  held other ho k := by
    obtain ⟨old, hold, rfl⟩ := List.mem_map.mp ho
    split
    next hid =>
      obtain rfl := List.inj_on_of_nodup_map h.ids hold hn hid
      change tree.forest.held? old.name k = _
      rw [hw.held? h.sound hs, Node.configured?_set, h.held old hold]
      by_cases hk : k = key
      · rw [if_pos ⟨rfl, hk⟩, if_pos hk, Option.map_some]
      · rw [if_neg fun hand => hk hand.2, if_neg hk]
    next hid =>
      have hname : old.name ≠ node.name := fun heq =>
        hid (congrArg Node.id (List.inj_on_of_nodup_map h.names hold hn heq))
      rw [hw.held? h.sound hs, if_neg fun hand => hname hand.1, h.held old hold]
  consistent := hmemo ▸ consistent_nil tree.forest

/-- The scope of a node stays the same when the node gets a value. -/
theorem scopeOf?_set (g : Graph) (id : NodeId) (key : String) (value : Value) :
    (g.modifyNode id (·.set key value)).scopeOf? id = g.scopeOf? id := by
  have hid : ∀ node : Node, (node.set key value).id = node.id := fun _ => rfl
  rw [scopeOf?, node?_modifyNode g id id hid, scopeOf?, Option.bind_map]
  refine congrArg _ (funext fun node => ?_)
  rw [Function.comp_apply]
  split <;> rfl

/-- The scope of a node is that of its name in the root. -/
theorem Mirrored.scopeOf?_eq {g : Graph} (h : g.Mirrored) {node : Node} (hn : node ∈ g.nodes) :
    g.scopeOf? node.id = g.scope.forest.child? Forest.root node.name := by
  rw [scopeOf?, h.node?_eq_some hn]
  rfl

/-- Where there is no such node, nothing changes. -/
theorem setNodeValue_of_none {g : Graph} {id : NodeId} (h : g.node? id = none) (key : String)
    (value : Value) : setNodeValue id key value g = .ok () g := by
  have hsame : g.modifyNode id (·.set key value) = g := by
    have hother : ∀ node ∈ g.nodes,
        (if node.id = id then node.set key value else node) = node := fun node hn => by
      have hno := List.find?_eq_none.mp h node hn
      rw [if_neg (by simpa using hno)]
    rw [modifyNode, List.map_congr_left hother, List.map_id']
  refine bind_eq_ok.mpr ⟨(), g, modify_eq_ok.mpr hsame, ?_⟩
  refine bind_eq_ok.mpr ⟨g, g, get_eq_ok.mpr ⟨rfl, rfl⟩, ?_⟩
  rw [scopeOf?, h]
  rfl

/-- Giving a node a value comes down to putting it into the scope of the node. -/
theorem setNodeValue_eq_ok {g g' : Graph} (hm : g.Mirrored) {node : Node} (hn : node ∈ g.nodes)
    {scope : ScopeId} (hs : g.scope.forest.child? Forest.root node.name = some scope) {key : String}
    {value : Value} {u : Unit} : setNodeValue node.id key value g = .ok u g' ↔
      ∃ id tree, ScopeTree.put scope key value g.scope = .ok id tree ∧
        g' = { g.modifyNode node.id (·.set key value) with scope := tree } := by
  have hscope : (g.modifyNode node.id (·.set key value)).scopeOf? node.id = some scope := by
    rw [scopeOf?_set, hm.scopeOf?_eq hn, hs]
  constructor
  · intro h
    obtain ⟨_, t, hmodify, h⟩ := bind_eq_ok.mp h
    obtain rfl := modify_eq_ok.mp hmodify
    obtain ⟨_, _, hget, h⟩ := bind_eq_ok.mp h
    obtain ⟨rfl, rfl⟩ := get_eq_ok.mp hget
    simp only [hscope] at h
    obtain ⟨id, _, hat, hpure⟩ := bind_eq_ok.mp h
    obtain ⟨-, rfl⟩ := pure_eq_ok.mp hpure
    obtain ⟨tree, hput, rfl⟩ := onScope_eq_ok.mp hat
    exact ⟨id, tree, hput, rfl⟩
  · rintro ⟨id, tree, hput, rfl⟩
    refine bind_eq_ok.mpr ⟨(), _, modify_eq_ok.mpr rfl, ?_⟩
    refine bind_eq_ok.mpr ⟨_, _, get_eq_ok.mpr ⟨rfl, rfl⟩, ?_⟩
    simp only [hscope]
    exact bind_eq_ok.mpr ⟨id, _, onScope_eq_ok.mpr ⟨tree, hput, rfl⟩, rfl⟩

/-- Giving a node a value is a step that cannot fail and gives its scope the value too. -/
theorem setNodeValue_spec {g : Graph} (h : g.Mirrored) (id : NodeId) (key : String)
    (value : Value) : ∃ g', setNodeValue id key value g = .ok () g' ∧ InStep g g' := by
  cases hnode : g.node? id with
  | none => exact ⟨g, setNodeValue_of_none hnode key value, refl_of InStep g⟩
  | some node =>
    have hn : node ∈ g.nodes := List.mem_of_find?_eq_some hnode
    obtain rfl : node.id = id := by simpa using List.find?_some hnode
    obtain ⟨scope, hs, hempty⟩ := h.room node hn
    obtain ⟨leaf, tree, hput⟩ := ScopeTree.exists_put h.sound hs hempty key value
    obtain ⟨written, hw, hmemo⟩ :=
      ScopeTree.put_eq_ok h.sound (.inr (Forest.mem_of_child? hs).1) hput
    have hmirrored := h.set hn hs hw hmemo
    refine ⟨_, (setNodeValue_eq_ok h hn hs).mpr ⟨leaf, tree, hput, rfl⟩, fun _ => ?_⟩
    refine ⟨hmirrored, fun owner k v hv => ?_, hw.shared? h.sound hs⟩
    rw [hw.held? h.sound hs]
    split
    · exact ⟨value, rfl⟩
    · exact ⟨v, hv⟩

/-- Giving a node a value keeps nodes and scopes in step. -/
theorem inStep_setNodeValue (id : NodeId) (key : String) (value : Value) :
    Moves InStep (setNodeValue id key value) := by
  intro g h
  obtain ⟨g', hset, hstep⟩ := setNodeValue_spec h id key value
  rw [hset]
  exact hstep h

/-- Values are put into a scope of the root, and all else is found as before. -/
structure Puts (owner : String) (entries : List (String × Value)) (f f' : Forest) : Prop where
  /-- The forest stays sound. -/
  sound : f'.Sound
  /-- There is room for values where there was. -/
  rooms : ∀ name, f.Open name → f'.Open name
  /-- The scopes of the root stay. -/
  child : ∀ name, f'.child? Forest.root name = f.child? Forest.root name
  /-- The values are held in the scope. -/
  held : ∀ name key, f'.held? name key =
    if name = owner then ((entries.lookup key).map some).or (f.held? name key)
    else f.held? name key
  /-- What all nodes share stays. -/
  shared : ∀ name, f'.shared? name = f.shared? name
  /-- No other values come in. -/
  raw : ∀ id v, f'.raw? id = some v → f.raw? id = some v ∨ ∃ key, (key, v) ∈ entries

/-- Values that are put into a scope of the root one by one end up there under their keys, and all that
was remembered is forgotten if there are any. -/
theorem puts_spec {owner : String} {scope : ScopeId} {entries : List (String × Value)}
    {g g' : Graph} {u : Unit} (hf : g.scope.forest.Sound)
    (hs : g.scope.forest.child? Forest.root owner = some scope)
    (hsorted : entries.Pairwise fun a b => a.1 < b.1)
    (h : (entries.forM fun entry => do
      let _ ← onScope (ScopeTree.put scope entry.1 entry.2) : GraphM Unit) g = .ok u g') :
    Puts owner entries g.scope.forest g'.scope.forest ∧
      ((g'.scope.forest = g.scope.forest ∧ g'.scope.memo = g.scope.memo) ∨
        g'.scope.memo = []) := by
  induction entries generalizing g with
  | nil =>
    obtain ⟨-, rfl⟩ := pure_eq_ok.mp h
    exact ⟨⟨hf, fun _ => id, fun _ => rfl, by simp, fun _ => rfl, fun _ _ => .inl⟩,
      .inl ⟨rfl, rfl⟩⟩
  | cons entry entries ih =>
    obtain ⟨_, t, hstep, h⟩ := bind_eq_ok.mp h
    obtain ⟨id, _, hat, hpure⟩ := bind_eq_ok.mp hstep
    obtain ⟨-, rfl⟩ := pure_eq_ok.mp hpure
    obtain ⟨tree, hput, rfl⟩ := onScope_eq_ok.mp hat
    obtain ⟨leaf, hw, hmemo⟩ :=
      ScopeTree.put_eq_ok hf (.inr (Forest.mem_of_child? hs).1) hput
    obtain ⟨hfirst, hrest⟩ := List.pairwise_cons.mp hsorted
    obtain ⟨hputs, hcase⟩ :=
      ih (g := { g with scope := tree }) hw.sound ((hw.child_root hf hs owner).trans hs) hrest h
    refine ⟨⟨hputs.sound, fun name ho => hputs.rooms name (hw.open hf hs ho),
      fun name => (hputs.child name).trans (hw.child_root hf hs name), fun name key => ?_,
      fun name => (hputs.shared name).trans (hw.shared? hf hs name), fun id v hv => ?_⟩, .inr ?_⟩
    · rw [hputs.held]
      change (if name = owner then ((entries.lookup key).map some).or (tree.forest.held? name key)
        else tree.forest.held? name key) = _
      rw [hw.held? hf hs, lookup_cons_ite]
      by_cases hname : name = owner
      · rw [if_pos hname, if_pos hname]
        by_cases hkey : key = entry.1
        · have hnone : entries.lookup key = none := by
            refine List.lookup_eq_none_iff.mpr fun other ho => ?_
            have hlt := hfirst other ho
            simpa [hkey] using String.ne_of_lt hlt
          rw [hnone, if_pos ⟨hname, hkey⟩, if_pos hkey]
          rfl
        · rw [if_neg fun hand => hkey hand.2, if_neg hkey]
      · rw [if_neg hname, if_neg hname, if_neg fun hand => hname hand.1]
    · rcases hputs.raw id v hv with hold | ⟨key, hmem⟩
      · change tree.forest.raw? id = some v at hold
        rw [hw.raw] at hold
        split at hold
        · obtain rfl := Option.some.inj hold
          exact .inr ⟨entry.1, List.mem_cons_self ..⟩
        · exact .inl hold
      · exact .inr ⟨key, List.mem_cons_of_mem _ hmem⟩
    · rcases hcase with ⟨-, hsame⟩ | hnone
      · exact hsame.trans hmemo
      · exact hnone

/-- A scope with the values of a node is added, and all else is found as before. -/
structure AddsScope (node : Node) (f f' : Forest) : Prop where
  /-- There was no scope of its name. -/
  fresh : f.child? Forest.root node.name = none
  /-- The forest stays sound. -/
  sound : f'.Sound
  /-- There is room for values where there was, and for those of the node. -/
  rooms : ∀ name, f.Open name ∨ name = node.name → f'.Open name
  /-- The other scopes of the root stay. -/
  child : ∀ name ≠ node.name, f'.child? Forest.root name = f.child? Forest.root name
  /-- The values of the node are held. -/
  held : ∀ name key, f'.held? name key =
    if name = node.name then (node.configured? key).map some else f.held? name key
  /-- What all nodes share stays. -/
  shared : ∀ name, f'.shared? name = f.shared? name
  /-- No other values come in. -/
  raw : ∀ id v, f'.raw? id = some v → f.raw? id = some v ∨ ∃ key, node.configured? key = some v

/-- A node that is added gets a scope of its name with its values in it. -/
theorem addsScope_of_addNode {node : Node} {id : NodeId} {g g' : Graph}
    (hf : g.scope.forest.Sound) (h : addNode node g = .ok id g') :
    AddsScope node g.scope.forest g'.scope.forest ∧
      (g'.scope.memo = g.scope.memo ∨ g'.scope.memo = []) ∧
      (Consistent g.scope.forest g.scope.memo → Consistent g'.scope.forest g'.scope.memo) := by
  obtain ⟨scope, g₁, hscope, h⟩ := bind_eq_ok.mp h
  obtain ⟨_, g₂, hputs, h⟩ := bind_eq_ok.mp h
  obtain ⟨_, _, hget, h⟩ := bind_eq_ok.mp h
  obtain ⟨rfl, rfl⟩ := get_eq_ok.mp hget
  obtain ⟨_, _, hmodify, h⟩ := bind_eq_ok.mp h
  obtain rfl := modify_eq_ok.mp hmodify
  obtain ⟨-, rfl⟩ := pure_eq_ok.mp h
  obtain ⟨tree, hcreate, rfl⟩ := onScope_eq_ok.mp hscope
  obtain ⟨hp, hempty, hfresh, rfl, rfl⟩ := ScopeTree.createChild_eq_ok hcreate
  have hsound := hf.addChild hp node.name (.inl rfl) hempty
  have hchild := Forest.child?_root_addChild hf hp hfresh node.name
  rw [if_pos rfl] at hchild
  obtain ⟨hall, hmemo⟩ := puts_spec hsound hchild node.raw.sorted hputs
  -- Nothing was held under the name before, as there was no scope of that name.
  have hbare : ∀ key, g.scope.forest.held? node.name key = none := by
    intro key
    rw [Forest.held?, Forest.leaf?, hfresh]
    rfl
  refine ⟨⟨hfresh, hall.sound, fun name ho => hall.rooms name ?_, fun name hne => ?_,
    fun name key => ?_, fun name => ?_, fun id v hv => ?_⟩, hmemo.imp_left And.right, fun hc => ?_⟩
  · rcases ho with ho | rfl
    · exact ho.addChild hf hp hfresh
    · exact Forest.open_addChild hf hp hfresh
  · rw [hall.child]
    exact (Forest.child?_root_addChild hf hp hfresh name).trans (if_neg hne)
  · refine (hall.held name key).trans ?_
    change (if name = node.name then ((node.raw.get? key).map some).or
      ((g.scope.forest.addChild Forest.root node.name).held? name key) else
      (g.scope.forest.addChild Forest.root node.name).held? name key) = _
    rw [Forest.held?_addChild hf hp hfresh, Node.get?_raw]
    split
    next hname => rw [hname, hbare, Option.or_none]
    · rfl
  · exact (hall.shared name).trans (Forest.shared?_addChild hf hp hfresh name)
  · rcases hall.raw id v hv with hold | ⟨key, hmem⟩
    · exact .inl ((Forest.raw?_addChild hp node.name id).symm.trans hold)
    · exact .inr ⟨key, (Node.get?_raw node key).symm.trans (Settings.get?_eq_some.mpr hmem)⟩
  · rcases hmemo with ⟨hforest, hsame⟩ | hnone
    · change Consistent g₂.scope.forest g₂.scope.memo
      rw [hforest, hsame]
      exact hc.addChild hf hp hempty hfresh
    · change Consistent g₂.scope.forest g₂.scope.memo
      rw [hnone]
      exact consistent_nil _

/-- A node is added together with a scope of its name that holds its values. -/
theorem inStep_addNode {node : Node} {id : NodeId} {g g' : Graph}
    (h : addNode node g = .ok id g') : InStep g g' := by
  intro hm
  obtain ⟨hadds, -, hconsistent⟩ := addsScope_of_addNode hm.sound h
  obtain ⟨rfl, -, tree, rfl⟩ := adds_of_addNode h
  have hnew : ∀ old ∈ g.nodes, old.name ≠ node.name := by
    intro old hold heq
    obtain ⟨scope, hs, -⟩ := hm.room old hold
    rw [heq, hadds.fresh] at hs
    cases hs
  refine ⟨⟨fun id hid => ?_, ?_, ?_, hadds.sound, fun other ho => ?_, fun other ho key => ?_,
    hconsistent hm.consistent⟩, fun owner key v hv => ⟨v, ?_⟩, hadds.shared⟩
  · rw [List.map_append, List.mem_append] at hid
    rcases hid with hid | hid
    · exact (hm.below id hid).trans (Nat.lt_succ_self _)
    · rw [List.map_singleton, List.mem_singleton] at hid
      exact hid ▸ Nat.lt_succ_self _
  · rw [List.map_append]
    refine hm.ids.append (List.nodup_singleton _) fun id hid hsame => ?_
    rw [List.map_singleton, List.mem_singleton] at hsame
    exact absurd (hsame ▸ hm.below id hid) (Nat.lt_irrefl _)
  · rw [List.map_append]
    refine hm.names.append (List.nodup_singleton _) fun name hname hsame => ?_
    rw [List.map_singleton, List.mem_singleton] at hsame
    obtain ⟨old, hold, rfl⟩ := List.mem_map.mp hname
    exact hnew old hold hsame
  · rcases List.mem_append.mp ho with ho | ho
    · exact hadds.rooms _ (.inl (hm.room other ho))
    · rw [List.mem_singleton.mp ho]
      exact hadds.rooms _ (.inr rfl)
  · refine (hadds.held other.name key).trans ?_
    rcases List.mem_append.mp ho with ho | ho
    · rw [if_neg (hnew other ho), hm.held other ho]
    · rw [List.mem_singleton.mp ho, if_pos rfl]
      rfl
  · refine (hadds.held owner key).trans ?_
    rw [if_neg fun hname => ?_, hv]
    rw [hname, Forest.held?, Forest.leaf?, hadds.fresh] at hv
    cases hv

/-- The tree that there is at first is sound. -/
theorem sound_initial : Forest.initial.Sound := by
  have hlater : ∀ id : ScopeId, Forest.initial.get? (id + 1) = none := fun _ => rfl
  refine ⟨fun parent child hc => ?_, fun id hid => ?_, fun id parent hp => ?_,
    fun scope hs => ?_⟩
  · cases parent with
    | zero => cases hc
    | succ n =>
      rw [Forest.children, hlater] at hc
      cases hc
  · cases id with
    | zero => cases hid
    | succ n =>
      rw [Forest.raw?, Forest.content?, hlater] at hid
      cases hid
  · cases id with
    | zero => cases hp
    | succ n =>
      rw [Forest.parent?, hlater] at hp
      cases hp
  · cases hs

/-- A graph without nodes has none to mirror. -/
theorem mirrored_of_no_nodes {g : Graph} (hn : g.nodes = []) (hf : g.scope.forest.Sound)
    (hc : Consistent g.scope.forest g.scope.memo) : g.Mirrored := by
  refine ⟨?_, ?_, ?_, hf, ?_, ?_, hc⟩ <;> simp [hn]

/-- What all jobs may refer to is put into the root scope while there are no nodes. -/
theorem mirrored_addGlobals {pipeline : Pipeline} {g g' : Graph} {u : Unit} (hn : g.nodes = [])
    (hm : g.Mirrored) (h : addGlobals pipeline g = .ok u g') : g'.Mirrored := by
  have hput : ∀ key value t v t', (t.nodes = [] ∧ t.Mirrored) → (do
      let _ ← onScope (ScopeTree.put Forest.root key value) : GraphM Unit) t = .ok v t' →
      t'.nodes = [] ∧ t'.Mirrored := by
    rintro key value t v t' ⟨hnodes, hmt⟩ hstep
    obtain ⟨id, _, hat, hpure⟩ := bind_eq_ok.mp hstep
    obtain ⟨-, rfl⟩ := pure_eq_ok.mp hpure
    obtain ⟨tree, hput, rfl⟩ := onScope_eq_ok.mp hat
    obtain ⟨leaf, hw, hmemo⟩ := ScopeTree.put_eq_ok hmt.sound (.inl rfl) hput
    exact ⟨hnodes, mirrored_of_no_nodes hnodes hw.sound (hmemo ▸ consistent_nil tree.forest)⟩
  obtain ⟨_, g₁, hfirst, hsecond⟩ := bind_eq_ok.mp h
  have hafter := forM_keeps (P := fun t => t.nodes = [] ∧ t.Mirrored)
    (fun entry _ t v t' ht hstep => hput entry.1 entry.2 t v t' ht hstep) ⟨hn, hm⟩ hfirst
  refine (forM_keeps (P := fun t => t.nodes = [] ∧ t.Mirrored) ?_ hafter hsecond).2
  rintro parameter - t v t' ht hstep
  cases hset : pipeline.configuration.get? parameter.name with
  | some value =>
    simp only [hset] at hstep
    obtain ⟨-, rfl⟩ := pure_eq_ok.mp hstep
    exact ht
  | none =>
    cases hdefault : parameter.default? with
    | none =>
      simp only [hset, hdefault] at hstep
      obtain ⟨-, rfl⟩ := pure_eq_ok.mp hstep
      exact ht
    | some value =>
      simp only [hset, hdefault] at hstep
      exact hput parameter.name value t v t' ht hstep

/-- A graph mirrors its nodes once all are put into it. -/
theorem mirrored_of_addNodes {pipeline : Pipeline} {ids : List NodeId} {g g' : Graph}
    (hglobals : addGlobals pipeline (initial pipeline) = .ok () g)
    (hnodes : pipeline.jobs.mapM (fun job => addNode (Node.ofJob 0 job)) g = .ok ids g') :
    g'.Mirrored := by
  have hm : g.Mirrored := mirrored_addGlobals rfl
    (mirrored_of_no_nodes rfl sound_initial (consistent_nil _)) hglobals
  exact mapM_keeps (P := Mirrored)
    (fun job _ t id t' ht hstep => (inStep_addNode hstep ht).1) hm hnodes

/-- A graph that was built mirrors its nodes. -/
theorem mirrored_build {pipeline : Pipeline} {graph : Graph} (h : build pipeline = .ok graph) :
    graph.Mirrored := by
  obtain ⟨g₁, ids, g₂, g₃, -, hglobals, hnodes, hafter, hdeps⟩ := build_eq_ok h
  have hm₂ := mirrored_of_addNodes hglobals hnodes
  have hmoves : Moves AddsEdges
      ((pipeline.jobs.zip ids).forM fun entry => afterEdges entry.1 entry.2) :=
    .forM fun entry _ => moves_afterEdges entry.1 entry.2
  have hm₃ : g₃.Mirrored := ((hmoves.of_ok hafter).inStep hm₂).1
  exact (((Moves.forM fun id _ => moves_findDependencies id).of_ok hdeps).inStep hm₃).1

/-- Finding out what a node is repeated for keeps nodes and scopes in step. -/
theorem Plans.inStep {g g' : Graph} (h : Plans g g') : InStep g g' := by
  obtain ⟨memo, edges, hlearns, -, rfl⟩ := h
  exact inStep_of_same rfl rfl rfl hlearns

/-- Adding a repetition keeps nodes and scopes in step. -/
theorem inStep_addReplica {node : Node} {drivers : Drivers} {serial : Bool} {place : Nat}
    {replica : NodeId} {g g' : Graph} (h : addReplica node drivers serial place g = .ok replica g') :
    InStep g g' := by
  obtain ⟨overrides, t, hshare, hadd⟩ := bind_eq_ok.mp h
  exact trans_of InStep ((moves_shareOut node drivers place).of_ok hshare).inStep
    (inStep_addNode hadd)

section Relating

variable {R : Graph → Graph → Prop} [Std.Refl R] [IsTrans Graph R]
  (hread : ∀ g g', SameButMemo g g' → R g g')
  (hreplace : ∀ g id edges, R g ((g.removeNode id).addEdges edges))

include hread hreplace

/-- A node is replaced by repetitions in steps that add them, set paths of theirs, read values, and
exchange the node and its edges for new edges. -/
theorem relates_replicate {node : Node} {drivers : Drivers} {count : Nat} {u : Unit} {g g' : Graph}
    (hadd : ∀ serial place replica t t', addReplica node drivers serial place t = .ok replica t' →
      R t t')
    (hset : ∀ id, ∀ p ∈ node.spec.parameters, p.isOutput → p.isFile → ¬ p.isList →
      ∀ path, Moves R (setNodeValue id p.name (.str path)))
    (h : replicate node drivers count g = .ok u g') : R g g' := by
  obtain ⟨serial, _, hserial, h⟩ := bind_eq_ok.mp h
  obtain ⟨-, rfl⟩ := ofExcept_eq_ok.mp hserial
  obtain ⟨replicas, t₁, hreplicas, h⟩ := bind_eq_ok.mp h
  obtain ⟨_, t₂, houtputs, h⟩ := bind_eq_ok.mp h
  obtain ⟨_, _, hget, h⟩ := bind_eq_ok.mp h
  obtain ⟨rfl, rfl⟩ := get_eq_ok.mp hget
  obtain ⟨edges, t₃, hedges, h⟩ := bind_eq_ok.mp h
  obtain rfl := modify_eq_ok.mp h
  have h₁ : R g t₁ := mapM_keeps (P := R g)
    (fun place _ t replica t' ht hstep => trans_of R ht (hadd serial place replica t t' hstep))
    (refl_of R g) hreplicas
  have h₂ : R t₁ t₂ :=
    (moves_separateOutputs hread _ _ fun id _ => hset id).of_ok houtputs
  have h₃ : R t₂ t₃ := hread _ _ ((moves_replicaEdges _ _ _ _ _ _ _ _).of_ok hedges)
  exact trans_of R (trans_of R h₁ h₂) (trans_of R h₃ (hreplace t₃ node.id edges))

/-- A node is replaced by those of its pipeline in steps that read values, add nodes to be resolved,
and exchange the node and its edges for new edges. -/
theorem relates_expandNode {prepare : GraphM Unit} {id : NodeId} {u : Unit} {g g' : Graph}
    (hadd : ∀ node id t t', node.resolved? = none → addNode node t = .ok id t' → R t t')
    (h : expandNode prepare id g = .ok u g') : R g g' := by
  cases expands_of_expandNode h with
  | plain _ _ => exact refl_of R g
  | @replaced _ _ _ _ _ t t' more _ _ _ _ hsettings _ _ hadopt hbetween =>
    have h₁ : R g t := hread _ _ ((moves_configuration _).of_ok hsettings)
    have h₂ : R t t' := mapM_keeps (P := R t) (fun node _ s handle s' hs hstep => by
      obtain ⟨id, _, hadopt, hstep⟩ := bind_eq_ok.mp hstep
      obtain ⟨rfl, rfl⟩ := pure_eq_ok.mp hstep
      exact trans_of R hs (hadd _ _ _ _ rfl hadopt)) (refl_of R t) hadopt
    have h₃ : R t' more := hread _ _ ((moves_adoptEdges _ _).of_ok hbetween)
    exact trans_of R (trans_of R h₁ h₂) (trans_of R h₃ (hreplace more id _))

/-- What reading, writing and adding nodes keeps is kept when pipelines inside jobs are put in their
place. -/
theorem relates_expandWithin {options : CompileOptions} {prepare : GraphM Unit} {u : Unit}
    {g g' : Graph} (hadd : ∀ node id t t', node.resolved? = none → addNode node t = .ok id t' → R t t')
    (h : expandWithin options prepare g = .ok u g') : R g g' := by
  have hcase := expandWithin_eq_ok h
  split at hcase
  · exact forM_keeps (P := R g) (fun id _ t v t' ht hstep =>
      trans_of R ht (relates_expandNode hread hreplace hadd hstep)) (refl_of R g) hcase
  · exact hcase ▸ refl_of R g

end Relating

section Splitting

variable {R : Graph → Graph → Prop} [Std.Refl R] [IsTrans Graph R]
  (hplans : ∀ g g', Plans g g' → R g g')
  (hreplace : ∀ g id edges, R g ((g.removeNode id).addEdges edges))
  (hadd : ∀ node drivers serial place replica t t',
    addReplica node drivers serial place t = .ok replica t' → R t t')
  (hset : ∀ id key value, Moves R (setNodeValue id key value))

include hplans hreplace hadd hset

/-- A node has its turn in steps that plan, add repetitions, set values, and exchange nodes and edges
for new edges. -/
theorem relates_splitNode {id : NodeId} {u : Unit} {g g' : Graph}
    (h : splitNode id g = .ok u g') : R g g' := by
  cases turned_of_splitNode h with
  | absent _ => exact refl_of R g
  | idle _ hf _ => exact hplans _ _ ((moves_drivers id).of_ok hf)
  | collapsed _ hf _ hc =>
    exact trans_of R (hplans _ _ ((moves_drivers id).of_ok hf))
      ((moves_collapse_of hplans fun _ _ _ _ => hset _ _ _).of_ok hc)
  | @replaced node plan _ _ _ _ hf _ _ hr =>
    exact trans_of R (hplans _ _ ((moves_drivers id).of_ok hf))
      (relates_replicate (fun _ _ h => hplans _ _ h.plans) hreplace
        (fun serial => hadd node plan serial) (fun _ _ _ _ _ _ _ => hset _ _ _) hr)

/-- What reading, writing and adding nodes keeps is kept when nodes are repeated. -/
theorem relates_split {u : Unit} {g g' : Graph} (h : split g = .ok u g') : R g g' := by
  obtain ⟨order, -, hturns⟩ := split_eq_ok h
  exact forM_keeps (P := R g)
    (fun node _ t v t' ht hstep => trans_of R ht (relates_splitNode hplans hreplace hadd hset hstep))
    (refl_of R g) hturns

end Splitting

/-- The turn of a node keeps nodes and scopes in step. -/
theorem inStep_splitNode {id : NodeId} {u : Unit} {g g' : Graph}
    (h : splitNode id g = .ok u g') : InStep g g' :=
  relates_splitNode (fun _ _ h => h.inStep) inStep_replaceEdges
    (fun _ _ _ _ _ _ _ => inStep_addReplica) inStep_setNodeValue h

/-- Repeating all nodes keeps nodes and scopes in step. -/
theorem inStep_split {u : Unit} {g g' : Graph} (h : split g = .ok u g') : InStep g g' :=
  relates_split (fun _ _ h => h.inStep) inStep_replaceEdges
    (fun _ _ _ _ _ _ _ => inStep_addReplica) inStep_setNodeValue h

/-- Repeating nodes and handing on values stays in step. -/
theorem inStep_spread {u : Unit} {g g' : Graph} (h : spread g = .ok u g') : InStep g g' := by
  obtain ⟨_, t, hsplit, hconfigure⟩ := bind_eq_ok.mp h
  refine trans_of InStep (inStep_split hsplit) ?_
  exact (moves_configure_of (fun _ _ h => h.inStep) inStep_setNodeValue).of_ok hconfigure

/-- Putting pipelines inside jobs in their place keeps nodes and scopes in step. -/
theorem inStep_expandWithin {options : CompileOptions} {prepare : GraphM Unit} {u : Unit}
    {g g' : Graph} (h : expandWithin options prepare g = .ok u g') : InStep g g' :=
  relates_expandWithin (fun _ _ h => h.inStep) inStep_replaceEdges
    (fun _ _ _ _ _ => inStep_addNode) h

end Graph

end Pipework
