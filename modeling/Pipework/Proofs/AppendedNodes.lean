import Pipework.Proofs.AppendedScopes

/-!
# Nodes that come in behind the others

A graph gets nodes when one is repeated and when one gives way to those of the pipeline inside it. The
scope of a new node stands in the root behind those of the others, and its values go into that scope
alone; a node that takes a single value has had one under that key before. So whatever the values of a
new node are called, references written in the other nodes go on leading to where they led, unless
they start with the name of the new node itself. As no new node can have a name that is given to a
scope of the root, references to a node that has been replaced go on leading to its scope.
-/

namespace Pipework

open Step

namespace ScopeTree

section Annexes

variable {f : Forest} {names : List String}

/-- In a new scope scopes may be added. -/
theorem annexes_createChild {parent : ScopeId} (hnew : f.size ≤ parent) (name : String) :
    Moves (Keeps fun tree => f.Annexes names tree.forest) (createChild parent name) := by
  intro tree h
  cases hcreate : createChild parent name tree with
  | ok id tree' =>
    obtain ⟨hp, -, -, -, rfl⟩ := createChild_eq_ok hcreate
    exact h.leaf hnew hp name
  | error e tree' =>
    obtain rfl := createChild_eq_error hcreate
    exact h

/-- Storing values brings in no scope. -/
theorem annexes_store (id : ScopeId) (value : Value) (binding? : Option Binding) :
    Moves (Keeps fun tree => f.Annexes names tree.forest) (store id value binding?) := by
  intro tree h
  cases hstore : store id value binding? tree with
  | ok u tree' =>
    obtain ⟨-, kept, rfl⟩ := store_eq_ok hstore
    exact h.setEntry id _
  | error e tree' =>
    obtain rfl := store_eq_error hstore
    exact h

/-- Values may be put into new scopes. -/
theorem annexes_put {scope : ScopeId} (hnew : f.size ≤ scope) (key : String) (value : Value) :
    Moves (Keeps fun tree => f.Annexes names tree.forest) (put scope key value) :=
  moves_put_of (annexes_createChild hnew key) (fun id value => annexes_store id value none) value

end Annexes

end ScopeTree

namespace Graph

/-! ### What comes of a graph -/

/-- The graph comes of a pipeline by calls and by the changes that calls are made of: it is one that
a call leaves, or one that is met on the way. -/
inductive Arises (pipeline : Pipeline) : Graph → Prop
  | reached {g : Graph} (h : Reachable pipeline g) : Arises pipeline g
  | plan {g g' : Graph} (h : Arises pipeline g) (hplans : Plans g g') : Arises pipeline g'
  | replaceEdges {g : Graph} (h : Arises pipeline g) (id : NodeId) (edges : List Edge) :
    Arises pipeline ((g.removeNode id).addEdges edges)
  | setEdges {g : Graph} (h : Arises pipeline g) (edges : List Edge) :
    Arises pipeline { g with edges }
  | addNode {g : Graph} (h : Arises pipeline g) (node : Node) :
    Arises pipeline (left (Graph.addNode node g))
  | setNodeValue {g : Graph} (h : Arises pipeline g) (id : NodeId) (key : String) (value : Value) :
    Arises pipeline (left (Graph.setNodeValue id key value g))
  | settle {g : Graph} (h : Arises pipeline g) (id : NodeId) (resolved : Settings) :
    Arises pipeline (g.modifyNode id fun node => { node with resolved? := some resolved })

/-- The scopes of a graph that came of calls show its nodes. -/
theorem Arises.attuned {pipeline : Pipeline} {g : Graph} (h : Arises pipeline g) : g.Attuned := by
  induction h with
  | reached h => exact h.attuned
  | plan _ hplans ih => exact covers_attuned.plan _ _ hplans ih
  | replaceEdges _ id edges ih => exact covers_attuned.replaceEdges _ id edges ih
  | setEdges _ edges ih => exact covers_attuned.setEdges _ edges ih
  | addNode _ node ih => exact covers_attuned.addNode node _ ih
  | setNodeValue _ id key value ih => exact covers_attuned.setNodeValue id key value _ ih
  | settle _ id resolved ih => exact covers_attuned.settle _ id resolved ih

/-- Whatever is done with such a graph, it ends as one. -/
theorem covers_arises {pipeline : Pipeline} : Covers (Keeps (Arises pipeline)) where
  plan _ _ hplans h := h.plan hplans
  replaceEdges _ id edges h := h.replaceEdges id edges
  setEdges _ edges h := h.setEdges edges
  addNode node _ h := h.addNode node
  setNodeValue id key value _ h := h.setNodeValue id key value
  settle _ id resolved h := h.settle id resolved

/-- The handles of nodes with their names. -/
def tags (g : Graph) : List (NodeId × String) := g.nodes.map fun node => (node.id, node.name)

/-- The names of the nodes with handles that had not been given out. -/
def namesFrom (g : Graph) (next : NodeId) : List String :=
  (g.tags.filter fun tag => next ≤ tag.1).map (·.2)

/-- The names of new nodes are those of the nodes with handles that had not been given out. -/
theorem mem_namesFrom {g : Graph} {next : NodeId} {name : String} :
    name ∈ g.namesFrom next ↔ ∃ node ∈ g.nodes, next ≤ node.id ∧ node.name = name := by
  simp only [namesFrom, tags, List.mem_map, List.mem_filter, decide_eq_true_eq]
  constructor
  · rintro ⟨-, ⟨⟨node, hn, rfl⟩, hle⟩, rfl⟩
    exact ⟨node, hn, hle, rfl⟩
  · rintro ⟨node, hn, hle, rfl⟩
    exact ⟨_, ⟨⟨node, hn, rfl⟩, hle⟩, rfl⟩

/-- Graphs with one outline have nodes of the same names under the same handles. -/
theorem SameOutline.tags {g g' : Graph} (h : SameOutline g g') : g'.tags = g.tags :=
  h.map_nodes _ fun _ => rfl

/-- The name of a node that is added comes behind those of the others. -/
theorem Adds.namesFrom {node : Node} {g g' : Graph} (h : Adds node g g') {next : NodeId}
    (hle : next ≤ g.nextId) : g'.namesFrom next = g.namesFrom next ++ [node.name] := by
  obtain ⟨hid, tree, rfl⟩ := h
  simp [Graph.namesFrom, Graph.tags, hid, hle]

/-- Nodes have joined those of a graph: each stands in the root with a scope behind the others, and
nothing else has come in. -/
structure Joined (base g : Graph) : Prop where
  /-- The scopes show the nodes. -/
  attuned : g.Attuned
  /-- The new nodes have handles that had not been given out. -/
  nextId : base.nextId ≤ g.nextId
  /-- Their scopes have come in behind the others. -/
  annexes : base.scope.forest.Annexes (g.namesFrom base.nextId) g.scope.forest

/-- Before nodes come in, none have joined. -/
theorem joined_self {g : Graph} (hg : g.Attuned) : Joined g g := by
  refine ⟨hg, le_rfl, ?_⟩
  have hnone : g.namesFrom g.nextId = [] := List.eq_nil_iff_forall_not_mem.mpr fun name hname => by
    obtain ⟨node, hn, hle, -⟩ := mem_namesFrom.mp hname
    exact absurd (hg.mirrored.below _ (List.mem_map_of_mem hn)) (Nat.not_lt.mpr hle)
  exact hnone ▸ .refl

/-- What is done with the scope tree when a node gets a value is to put it into the scope of the
node. -/
theorem onScopes_setNodeValue_of {R : ScopeTree → ScopeTree → Prop} [Std.Refl R] [IsTrans ScopeTree R]
    {g : Graph} {id : NodeId} {key : String} {value : Value}
    (h : ∀ scope, g.scopeOf? id = some scope → Moves R (ScopeTree.put scope key value)) :
    OnScopes R g (left (setNodeValue id key value g)) := by
  let changed := g.modifyNode id (·.set key value)
  have hscope : changed.scopeOf? id = g.scopeOf? id := scopeOf?_set g id key value
  have hrun : ∀ f : Graph → GraphM Unit,
      (do modify (·.modifyNode id (·.set key value)); f (← get) : GraphM Unit) g = f changed changed :=
    fun _ => rfl
  rw [setNodeValue, hrun]
  change OnScopes R changed _
  cases hs : changed.scopeOf? id with
  | none => exact refl_of R _
  | some scope =>
    have hmoves := moves_onScope_related (h scope (hscope ▸ hs))
    exact hmoves.bind (fun _ => .pure _) changed

/-- A node has a value under the key, or had one. -/
def Keyed (id : NodeId) (key : String) (g : Graph) : Prop :=
  ∃ name, (id, name) ∈ g.tags ∧ (g.scope.forest.leaf? name key).isSome

/-- A list that a node is repeated for stands under a key that the node has. -/
theorem keyed_of_drivers {id : NodeId} {plan : Drivers} {g g' : Graph}
    (h : drivers id g = .ok plan g') : ∀ entry ∈ plan.lists, g'.Keyed id entry.1 := by
  obtain ⟨found, t, node, lists, -, hnode, hlists, rfl⟩ := drivers_eq_ok h
  obtain ⟨hn, rfl⟩ := id_of_node? hnode
  have hsame : SameButMemo t g' := (moves_listDrivers _ _ _).of_ok hlists
  intro entry hentry
  obtain ⟨leaf, hleaf, -, -⟩ := listDrivers_spec hnode hlists entry hentry
  refine ⟨node.name, ?_, Option.isSome_of_eq_some hleaf⟩
  rw [hsame.sameOutline.tags]
  exact List.mem_map_of_mem hn

section Joined

variable {base : Graph}

/-- As long as no nodes come in, only scopes have to be looked at. -/
theorem Joined.of_tags {g g' : Graph} (h : Joined base g) (hg' : g'.Attuned)
    (hnext : g'.nextId = g.nextId) (htags : g'.tags = g.tags)
    (hannexes : ∀ names, base.scope.forest.Annexes names g.scope.forest →
      base.scope.forest.Annexes names g'.scope.forest) : Joined base g' := by
  refine ⟨hg', hnext ▸ h.nextId, ?_⟩
  rw [namesFrom, htags]
  exact hannexes _ h.annexes

/-- Finding out what a node is repeated for brings in no node. -/
theorem Plans.joined {g g' : Graph} (hplans : Plans g g') : Keeps (Joined base) g g' := by
  intro h
  have hg' := covers_attuned.plan g g' hplans h.attuned
  obtain ⟨memo, edges, -, -, rfl⟩ := hplans
  exact h.of_tags hg' rfl rfl fun _ hann => hann

/-- Reading values brings in no node. -/
theorem SameButMemo.joined {g g' : Graph} (h : SameButMemo g g') : Keeps (Joined base) g g' :=
  h.plans.joined

/-- A node that was there may be taken out. -/
theorem joined_replaceEdges {id : NodeId} (hid : id < base.nextId) (g : Graph) (edges : List Edge) :
    Keeps (Joined base) g ((g.removeNode id).addEdges edges) := by
  refine fun h => ⟨covers_attuned.replaceEdges g id edges h.attuned, h.nextId, ?_⟩
  have hsame : ((g.removeNode id).addEdges edges).namesFrom base.nextId =
      g.namesFrom base.nextId := by
    have hkept : ∀ node : Node, (decide (base.nextId ≤ node.id) && decide (node.id ≠ id)) =
        decide (base.nextId ≤ node.id) := by
      intro node
      have hother : base.nextId ≤ node.id → node.id ≠ id := fun hle => (hid.trans_le hle).ne'
      by_cases hle : base.nextId ≤ node.id <;> simp [hle, hother]
    simp only [namesFrom, tags, addEdges, removeNode, List.filter_map, List.filter_filter]
    exact congrArg _ (congrArg _ (List.filter_congr fun node _ => hkept node))
  exact hsame.symm ▸ h.annexes

/-- A node takes the one value that each of its keys brings. -/
theorem joined_collapse {id : NodeId} {plan : Drivers} :
    Moves (Keeps fun g => Joined base g ∧ ∀ entry ∈ plan.lists, g.Keyed id entry.1)
      (collapse id plan) := by
  refine moves_collapse_of (fun g g' hplans hg => ?_) fun entry hentry item _ g hg => ?_
  · refine ⟨hplans.joined hg.1, ?_⟩
    obtain ⟨memo, edges, -, -, rfl⟩ := hplans
    exact hg.2
  · obtain ⟨h, hkeyed⟩ := hg
    obtain ⟨name, htag, hleaf⟩ := hkeyed entry hentry
    obtain ⟨node, hn, heq⟩ := List.mem_map.mp htag
    obtain ⟨rfl, rfl⟩ := Prod.mk.inj heq
    obtain ⟨leaf, hleaf⟩ := Option.isSome_iff_exists.mp hleaf
    obtain ⟨g', hset, -⟩ := setNodeValue_spec h.attuned.mirrored node.id entry.1 item
    obtain ⟨-, kept, hforest⟩ := forest_of_setNodeValue h.attuned.mirrored hn hleaf hset
    have hsame := (moves_setNodeValue node.id entry.1 item).of_ok hset
    have hattuned := (covers_attuned.setNodeValue node.id entry.1 item).of_ok hset h.attuned
    rw [hset]
    refine ⟨h.of_tags hattuned hsame.nextId hsame.tags fun names hann => ?_, fun other ho => ?_⟩
    · exact hforest ▸ hann.setEntry leaf _
    · obtain ⟨name, htag, hkey⟩ := hkeyed other ho
      refine ⟨name, hsame.tags ▸ htag, ?_⟩
      change (g'.scope.forest.leaf? name other.1).isSome
      rwa [hforest, (Forest.sameScopes_setEntry _ _ _).leaf?]

variable (hbase : base.Attuned)

include hbase

/-- A node that is added stands in the root with a scope behind the others. -/
theorem annexes_addNode {names : List String} {node : Node} {id : NodeId} {g g' : Graph}
    (h : base.scope.forest.Annexes names g.scope.forest) (hadd : addNode node g = .ok id g') :
    base.scope.forest.Annexes (names ++ [node.name]) g'.scope.forest := by
  obtain ⟨scope, g₁, hscope, hadd⟩ := bind_eq_ok.mp hadd
  obtain ⟨_, g₂, hputs, hadd⟩ := bind_eq_ok.mp hadd
  obtain ⟨_, _, hget, hadd⟩ := bind_eq_ok.mp hadd
  obtain ⟨rfl, rfl⟩ := get_eq_ok.mp hget
  obtain ⟨_, _, hmodify, hadd⟩ := bind_eq_ok.mp hadd
  obtain rfl := modify_eq_ok.mp hmodify
  obtain ⟨-, rfl⟩ := pure_eq_ok.mp hadd
  obtain ⟨tree, hcreate, rfl⟩ := onScope_eq_ok.mp hscope
  obtain ⟨-, -, -, rfl, rfl⟩ := ScopeTree.createChild_eq_ok hcreate
  have hnew : base.scope.forest.size ≤ g.scope.forest.size := (h.grows hbase.shapely.rooted).size_le
  have hmoves : Moves (OnScopes (Keeps fun tree =>
      base.scope.forest.Annexes (names ++ [node.name]) tree.forest))
      (node.raw.entries.forM fun entry => do
        let _ ← onScope (ScopeTree.put g.scope.forest.size entry.1 entry.2) : GraphM Unit) :=
    .forM fun entry _ =>
      (moves_onScope_related (ScopeTree.annexes_put hnew entry.1 entry.2)).bind fun _ => .pure _
  have hafter : Keeps (fun tree => base.scope.forest.Annexes (names ++ [node.name]) tree.forest)
      _ g₂.scope := hmoves.of_ok hputs
  exact hafter (h.scope node.name)

/-- A node that is added joins the others, if it is added. -/
theorem joined_addNode (node : Node) : Moves (Keeps (Joined base)) (addNode node) := by
  intro g h
  have hattuned := covers_attuned.addNode node g h.attuned
  cases hadd : addNode node g with
  | ok id g' =>
    rw [hadd] at hattuned
    obtain ⟨rfl, hadds⟩ := adds_of_addNode hadd
    refine ⟨hattuned, ?_, ?_⟩
    · obtain ⟨-, tree, rfl⟩ := hadds
      exact h.nextId.trans (Nat.le_succ _)
    · change base.scope.forest.Annexes (g'.namesFrom base.nextId) g'.scope.forest
      rw [hadds.namesFrom h.nextId]
      exact annexes_addNode hbase h.annexes hadd
  | error e g' =>
    obtain rfl := addNode_eq_error h.attuned.mirrored.sound hadd
    exact h

/-- A new node may get any value. -/
theorem joined_setNodeValue {id : NodeId} (hid : base.nextId ≤ id) (key : String)
    (value : Value) : Moves (Keeps (Joined base)) (setNodeValue id key value) := by
  intro g h
  have hsame : SameOutline g (left (setNodeValue id key value g)) := moves_setNodeValue id key value g
  refine h.of_tags (covers_attuned.setNodeValue id key value g h.attuned) hsame.nextId hsame.tags
    fun names hann => ?_
  refine onScopes_setNodeValue_of (R := Keeps fun tree => base.scope.forest.Annexes names tree.forest)
    (fun scope hscope => ?_) hann
  obtain ⟨node, hnode, hs⟩ := Option.bind_eq_some_iff.mp hscope
  obtain ⟨hn, rfl⟩ := id_of_node? hnode
  exact ScopeTree.annexes_put (h.annexes.size_le_of_mem hbase.shapely.rooted
    hbase.mirrored.sound.layered (h.attuned.shapely.names _)
    (mem_namesFrom.mpr ⟨node, hn, hid, rfl⟩) hs) key value

/-- A node that was there gives way to its repetitions. -/
theorem joined_replicate {node : Node} (hid : node.id < base.nextId) (plan : Drivers) (count : Nat) :
    Moves (Keeps (Joined base)) (replicate node plan count) := by
  refine (moves_ofExcept _).bind fun serial =>
    Keeps.bind_of_ok ?_ fun g replicas t hg hreplicas ht => ?_
  · exact .mapM fun place _ => ((moves_shareOut node plan place).mono fun _ _ h => h.joined).bind
      fun _ => joined_addNode hbase _
  have hnew : ∀ id ∈ replicas, base.nextId ≤ id := by
    obtain ⟨added, ⟨hids, -⟩, rfl, -⟩ := extends_of_addReplicas hreplicas
    exact fun id hid => hg.nextId.trans (List.mem_range'_1.mp (hids ▸ hid)).1
  refine Moves.bind (moves_separateOutputs (fun _ _ h => h.joined) plan serial
    fun id hid _ _ _ _ _ _ => joined_setNodeValue hbase (hnew id hid) _ _) (fun _ => ?_) t ht
  refine Moves.get.bind fun graph => ?_
  exact ((moves_replicaEdges _ _ _ _ _ _ _ _).mono fun _ _ h => h.joined).bind fun edges =>
    .modify fun g => joined_replaceEdges hid g edges

/-- The repetitions of a node of the graph join its nodes. -/
theorem joined_splitNode {id : NodeId} (hid : id < base.nextId) :
    Moves (Keeps (Joined base)) (splitNode id) := by
  refine Keeps.get_bind fun g _ => ?_
  cases hnode : g.node? id with
  | none => exact .pure _
  | some node =>
    obtain ⟨-, rfl⟩ := id_of_node? hnode
    refine Keeps.bind_of_ok ((moves_drivers _).mono fun _ _ h => h.joined)
      fun s plan t _ hdrivers ht => ?_
    cases hsize : plan.size? node.name with
    | error e => exact ht
    | ok size? =>
      rw [bind_of_ok (ofExcept_eq_ok.mpr ⟨rfl, rfl⟩)]
      split
      · exact ht
      · exact (joined_collapse t ⟨ht, keyed_of_drivers hdrivers⟩).1
      · exact joined_replicate hbase hid plan _ t ht

/-- A node that was there gives way to the nodes of the pipeline inside it. -/
theorem joined_expandNode (prepare : GraphM Unit) {id : NodeId} (hid : id < base.nextId) :
    Moves (Keeps (Joined base)) (expandNode prepare id) := by
  refine (moves_nodeAt id).bind fun node => ?_
  cases node.spec.nested? with
  | none => exact .pure _
  | some nested =>
    refine ((moves_configuration _).mono fun _ _ h => h.joined).bind fun settings => ?_
    refine (moves_prepareInner prepare _).bind fun inner => ?_
    refine Moves.bind (.mapM fun _ _ => (joined_addNode hbase _).bind fun _ => .pure _)
      fun handles => ?_
    refine ((moves_adoptEdges handles inner.edges).mono fun _ _ h => h.joined).bind fun edges => ?_
    exact Moves.get.bind fun graph => .modify fun g => joined_replaceEdges hid g _

end Joined

/-! ### References -/

/-- Something that adds nodes to a graph. -/
inductive Addition where
  /-- Adds a node. -/
  | addNode (node : Node)
  /-- Repeats a node if it has to be repeated. -/
  | splitNode (id : NodeId)
  /-- Repeats all nodes that have to be repeated. -/
  | split
  /-- Replaces a node by those of the pipeline inside it. -/
  | expandNode (prepare : GraphM Unit) (id : NodeId)
  /-- Replaces all nodes with a pipeline of their own. -/
  | expand (prepare : GraphM Unit)

/-- Does it, whatever comes of it. -/
def Addition.run : Addition → GraphM Unit
  | .addNode node => do let _ ← Graph.addNode node
  | .splitNode id => Graph.splitNode id
  | .split => Graph.split
  | .expandNode prepare id => Graph.expandNode prepare id
  | .expand prepare => Graph.expand prepare

/-- What the changes of a graph keep is kept by each addition. -/
theorem Covers.moves_addition {R : Graph → Graph → Prop} [Std.Refl R] [IsTrans Graph R]
    (hR : Covers R) (addition : Addition) : Moves R addition.run := by
  cases addition with
  | addNode node => exact (hR.addNode node).bind fun _ => .pure _
  | splitNode id => exact hR.moves_splitNode id
  | split => exact hR.moves_split
  | expandNode prepare id => exact hR.moves_expandNode prepare id
  | expand prepare =>
    exact Moves.get.bind fun _ => .forM fun node _ => hR.moves_expandNode prepare node.id

/-- Nodes are added to those of a graph, and nothing else comes in. -/
theorem joined_run {g : Graph} (hg : g.Attuned) (addition : Addition) :
    Joined g (left (addition.run g)) := by
  have hself := joined_self hg
  have hbelow : ∀ node ∈ g.nodes, node.id < g.nextId := fun node hn =>
    hg.mirrored.below _ (List.mem_map_of_mem hn)
  cases addition with
  | addNode node => exact ((joined_addNode hg node).bind fun _ => .pure _) g hself
  | splitNode id =>
    cases hnode : g.node? id with
    | none =>
      rw [Addition.run, Graph.splitNode, bind_of_ok (get_eq_ok.mpr ⟨rfl, rfl⟩)]
      simp only [hnode]
      exact hself
    | some node =>
      obtain ⟨hn, rfl⟩ := id_of_node? hnode
      exact joined_splitNode hg (hbelow node hn) g hself
  | split =>
    rcases left_split g with h | ⟨order, horder, h⟩
    · exact h.symm ▸ hself
    · have hturns : Moves (Keeps (Joined g)) (order.forM (Graph.splitNode ·.id)) :=
        .forM fun node hn => joined_splitNode hg (hbelow node (subset_of_topologicalOrder horder hn))
      exact h.symm ▸ hturns g hself
  | expandNode prepare id =>
    cases hnode : g.node? id with
    | none =>
      have hat : nodeAt id g = .error .dangling g := by
        rw [nodeAt, bind_of_ok (get_eq_ok.mpr ⟨rfl, rfl⟩), hnode]
        rfl
      rw [Addition.run, Graph.expandNode, bind_eq_error.mpr (.inl hat)]
      exact hself
    | some node =>
      obtain ⟨hn, rfl⟩ := id_of_node? hnode
      exact joined_expandNode hg prepare (hbelow node hn) g hself
  | expand prepare =>
    refine Moves.forM (R := Keeps (Joined g)) (fun node hn => ?_) g hself
    exact joined_expandNode hg prepare (hbelow node (List.mem_of_mem_filter hn))

/-- When nodes are added to a graph that calls have left, or are at work on, references go on leading
to where they led from the scopes of the nodes that were there, and by as many segments, unless the
first segment is the name of a new node. The scopes of the root stay, also those of nodes that were
replaced, and references that start with the name of one are never led astray: where nothing in the
scope that they are written in has the name, it goes on standing for that scope. Then more nodes may be
added. -/
theorem lookups_are_kept {pipeline : Pipeline} {g g' : Graph} (h : Arises pipeline g)
    {addition : Addition} (hg' : left (addition.run g) = g') {node : Node} (hn : node ∈ g.nodes) :
    Arises pipeline g' ∧ ∃ start, g.scopeOf? node.id = some start ∧
      (∀ first rest found, g.scope.forest.lookup? start (first :: rest) = some found →
        (∀ added ∈ g'.nodes, g.nextId ≤ added.id → added.name ≠ first) →
          g'.scope.forest.lookup? start (first :: rest) = some found) ∧
      ∀ name own, g.scope.forest.child? Forest.root name = some own →
        g'.scope.forest.child? Forest.root name = some own ∧
        (g.scope.forest.child? start name = none →
          g'.scope.forest.anchor? start name = some own) ∧
        ∀ rest found, g.scope.forest.lookup? start (name :: rest) = some found →
          g'.scope.forest.lookup? start (name :: rest) = some found := by
  have hg := h.attuned
  have harises : Arises pipeline g' := hg' ▸ covers_arises.moves_addition addition g h
  have hjoined : Joined g g' := hg' ▸ joined_run hg addition
  have hroot := hg.shapely.rooted
  have hsound := hg.mirrored.sound
  have hsound' := hjoined.attuned.mirrored.sound
  obtain ⟨start, hstart, -⟩ := hg.mirrored.room node hn
  have hin := (Forest.mem_of_child? hstart).1
  refine ⟨harises, start, ?_, fun first rest found hlookup hnew => ?_, fun name own hown => ?_⟩
  · rw [hg.mirrored.scopeOf?_eq hn, hstart]
  · refine hjoined.annexes.lookup? hroot hsound hsound' (fun hmem => ?_) hin hlookup
    obtain ⟨added, hadded, hle, hname⟩ := mem_namesFrom.mp hmem
    exact hnew added hadded hle hname
  · have hname : name ∉ g'.namesFrom g.nextId :=
      hjoined.annexes.not_mem_names hroot hsound.layered (hjoined.attuned.shapely.names _) hown
    refine ⟨?_, fun hnone => ?_, fun rest found hlookup => ?_⟩
    · rw [hjoined.annexes.child? hroot hsound.layered hroot fun _ => hname]
      exact hown
    · exact hjoined.annexes.anchor? hroot hsound hsound' hname hin
        (hsound.anchor?_of_root hin hg.shapely hown hnone)
    · exact hjoined.annexes.lookup? hroot hsound hsound' hname hin hlookup

/-- A job with two pages, and one that prints what is called a page. -/
def archive : Pipeline where
  jobs := [
    { id := "scan", parameters := [{ name := "page" }],
      configuration := .ofList [("page", .list [.str "left", .str "right"])] },
    { id := "print", parameters := [{ name := "text" }],
      configuration := .ofList [("text", .str "$\x7bpage\x7d")] }]

/-- Once there is a scan for each page, three scopes have a page in them. What is printed is still
that of the scan that they replaced, whether the scan is named or not. -/
theorem page_is_found_again : ∃ built repeated, Arises archive built ∧
    left ((Addition.splitNode 0).run built) = repeated ∧ Arises archive repeated ∧
    repeated.nodes.map (·.name) = ["print", "scan_split_0", "scan_split_1"] ∧
    built.scopeOf? 1 = some 3 ∧ built.scope.forest.lookup? 3 ["page"] = some (2, 1) ∧
    repeated.scope.forest.lookup? 3 ["page"] = some (2, 1) ∧
    repeated.scope.forest.anchor? 3 "scan" = some 1 ∧
    repeated.scope.forest.lookup? 3 ["scan", "page"] = some (2, 2) := by
  obtain ⟨built, -, -, hbuild, -, -, hids, hscope, hpage, hnamed, hroot, hno, hnames⟩ :=
    exists_prepared {} archive
      (fun built _ _ => 1 ∈ built.nodes.map (·.id) ∧ built.scopeOf? 1 = some 3 ∧
        built.scope.forest.lookup? 3 ["page"] = some (2, 1) ∧
        built.scope.forest.lookup? 3 ["scan", "page"] = some (2, 2) ∧
        built.scope.forest.child? Forest.root "scan" = some 1 ∧
        built.scope.forest.child? 3 "scan" = none ∧
        (left ((Addition.splitNode 0).run built)).nodes.map (·.name) =
          ["print", "scan_split_0", "scan_split_1"])
      (by decide +kernel)
  have harises : Arises archive built := .reached (.built hbuild)
  obtain ⟨node, hn, hid⟩ := List.mem_map.mp hids
  obtain ⟨hagain, start, hstart, hkept, hown⟩ := lookups_are_kept harises rfl hn
  obtain rfl := Option.some.inj (hstart.symm.trans (hid ▸ hscope))
  obtain ⟨-, hanchor, hjob⟩ := hown "scan" 1 hroot
  refine ⟨built, _, harises, rfl, hagain, hnames, hscope, hpage, hkept "page" [] _ hpage ?_,
    hanchor hno, hjob ["page"] _ hnamed⟩
  intro added hadded _ hname
  have hmem := hnames ▸ List.mem_map_of_mem hadded
  simp [hname] at hmem

end Graph

end Pipework
