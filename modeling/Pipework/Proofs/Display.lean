import Pipework.Proofs.Calls

/-!
# Scopes that show nodes and nothing else

Values are kept twice, by a node and by the scope of its name, and whatever changes them changes
both or fails before it changes either. So after any calls the values in the scope of a node are
those of the node, under the same keys, and there are no others. The scopes of nodes that were taken
out stay, but no node of the graph has the name of one of them.
-/

namespace Pipework

open Step

namespace Graph

/-- Values that are put into a scope of the root get there. -/
theorem exists_puts {owner : String} {scope : ScopeId} {entries : List (String × Value)} {g : Graph}
    (hf : g.scope.forest.Sound) (hs : g.scope.forest.child? Forest.root owner = some scope)
    (hempty : g.scope.forest.raw? scope = none) :
    ∃ g', (entries.forM fun entry => do
      let _ ← onScope (ScopeTree.put scope entry.1 entry.2) : GraphM Unit) g = .ok () g' := by
  induction entries generalizing g with
  | nil => exact ⟨g, rfl⟩
  | cons entry entries ih =>
    obtain ⟨id, tree, hput⟩ := ScopeTree.exists_put hf hs hempty entry.1 entry.2
    obtain ⟨leaf, hw, -⟩ := ScopeTree.put_eq_ok hf (.inr (Forest.mem_of_child? hs).1) hput
    obtain ⟨g', hrest⟩ := ih (g := { g with scope := tree }) hw.sound
      ((hw.child_root hf hs owner).trans hs) ((hw.raw_root hf hs hs).trans hempty)
    refine ⟨g', bind_eq_ok.mpr ⟨(), _, ?_, hrest⟩⟩
    exact bind_eq_ok.mpr ⟨id, _, onScope_eq_ok.mpr ⟨tree, hput, rfl⟩, rfl⟩

/-- If no node is added, there is no scope for it. -/
theorem createChild_of_addNode {node : Node} {e : GraphError} {g g' : Graph}
    (hf : g.scope.forest.Sound) (h : addNode node g = .error e g') :
    onScope (ScopeTree.createChild Forest.root node.name) g = .error e g' := by
  rcases bind_eq_error.mp h with h | ⟨scope, t, hscope, h⟩
  · exact h
  · obtain ⟨tree, hcreate, rfl⟩ := onScope_eq_ok.mp hscope
    obtain ⟨hp, hempty, hfresh, rfl, rfl⟩ := ScopeTree.createChild_eq_ok hcreate
    have hchild := Forest.child?_root_addChild hf hp hfresh node.name
    rw [if_pos rfl] at hchild
    have hbare :
        (g.scope.forest.addChild Forest.root node.name).raw? g.scope.forest.size = none := by
      rw [Forest.raw?_addChild hp, Forest.raw?, Forest.content?, Forest.get?_size]
      rfl
    obtain ⟨t', hputs⟩ := @exists_puts _ _ node.raw.entries
      { g with scope.forest := g.scope.forest.addChild Forest.root node.name }
      (hf.addChild hp node.name (.inl rfl) hempty) hchild hbare
    rcases bind_eq_error.mp h with h | ⟨u, t'', -, h⟩
    · cases hputs.symm.trans h
    · cases h

/-- Then nothing happens. -/
theorem addNode_eq_error {node : Node} {e : GraphError} {g g' : Graph}
    (hf : g.scope.forest.Sound) (h : addNode node g = .error e g') : g' = g := by
  have h := createChild_of_addNode hf h
  rw [onScope] at h
  cases hcreate : ScopeTree.createChild Forest.root node.name g.scope with
  | ok id tree => simp [hcreate] at h
  | error cause tree =>
    obtain rfl := ScopeTree.createChild_eq_error hcreate
    simp only [hcreate] at h
    cases h
    rfl

/-- The scopes of a graph show its nodes. -/
structure Attuned (graph : Graph) : Prop where
  /-- They hold the values of nodes. -/
  mirrored : graph.Mirrored
  /-- They hang together as a tree. -/
  shapely : graph.scope.forest.Shapely

/-- Changes of a graph keep its scopes together as a tree. -/
theorem underlies_shapely : ScopeTree.Underlies (Keeps fun tree => tree.forest.Shapely) where
  learn tree tree' hforest _ hs := by
    change tree'.forest.Shapely
    rwa [hforest]
  createChild := ScopeTree.covers_shapely.moves_createChild
  put := ScopeTree.covers_shapely.moves_put

/-- No change that calls are made of parts the scopes from the nodes. -/
theorem covers_attuned : Covers (Keeps Attuned) where
  plan g g' h hg := by
    refine ⟨(h.inStep hg.mirrored).1, ?_⟩
    obtain ⟨memo, edges, -, -, rfl⟩ := h
    exact hg.shapely
  replaceEdges g id edges hg := ⟨(inStep_replaceEdges g id edges hg.mirrored).1, hg.shapely⟩
  setEdges g edges hg := by
    have hstep : InStep g { g with edges } := inStep_of_same rfl rfl rfl (refl_of _ g.scope.memo)
    exact ⟨(hstep hg.mirrored).1, hg.shapely⟩
  addNode node g hg := by
    refine ⟨?_, onScopes_addNode underlies_shapely node g hg.shapely⟩
    cases h : addNode node g with
    | ok id g' => exact (inStep_addNode h hg.mirrored).1
    | error e g' =>
      obtain rfl := addNode_eq_error hg.mirrored.sound h
      exact hg.mirrored
  setNodeValue id key value g hg :=
    ⟨(inStep_setNodeValue id key value g hg.mirrored).1,
      onScopes_setNodeValue underlies_shapely id key value g hg.shapely⟩
  settle g id resolved hg := by
    have hstep : InStep g
        (g.modifyNode id fun node => { node with resolved? := some resolved }) := by
      let change : Node → Node := fun node => { node with resolved? := some resolved }
      have hids : (g.modifyNode id change).nodes.map (·.id) = g.nodes.map (·.id) :=
        map_modifyNode g id _ fun _ => rfl
      have hnames : (g.modifyNode id change).nodes.map (·.name) = g.nodes.map (·.name) :=
        map_modifyNode g id _ fun _ => rfl
      refine inStep_of_nodes rfl (refl_of _ g.scope.memo) le_rfl (hids ▸ .refl _)
        (hnames ▸ .refl _) fun node' hn => ?_
      obtain ⟨node, hnode, rfl⟩ := List.mem_map.mp hn
      refine ⟨node, hnode, ?_⟩
      split <;> exact ⟨rfl, fun _ => rfl⟩
    exact ⟨(hstep hg.mirrored).1, hg.shapely⟩

theorem Reachable.attuned {pipeline : Pipeline} {graph : Graph} (h : Reachable pipeline graph) :
    graph.Attuned := by
  induction h with
  | built hbuild =>
    exact ⟨mirrored_build hbuild, onScopes_build underlies_shapely hbuild Forest.shapely_initial⟩
  | step _ call ih => exact covers_attuned.moves_run call _ ih

/-- The values in the scope of a node are those of the node, each under its key, and nothing else is
in it. -/
theorem Attuned.exists_scope {graph : Graph} (h : graph.Attuned) {node : Node}
    (hn : node ∈ graph.nodes) : ∃ scope,
      graph.scope.forest.child? Forest.root node.name = some scope ∧
      ((graph.scope.forest.children scope).map fun leaf =>
        (graph.scope.forest.name? leaf, graph.scope.forest.raw? leaf)).Perm
          (node.raw.entries.map fun entry => (some entry.1, some entry.2)) := by
  obtain ⟨scope, hscope, -⟩ := h.mirrored.room node hn
  refine ⟨scope, hscope, ?_⟩
  have hleaf : ∀ key, graph.scope.forest.leaf? node.name key =
      graph.scope.forest.child? scope key := fun key => by
    rw [Forest.leaf?, hscope, Option.bind_some]
  have hheld : ∀ key, (graph.scope.forest.child? scope key).map graph.scope.forest.raw? =
      (node.raw.get? key).map some := fun key => by
    rw [← hleaf, Node.get?_raw]
    exact h.mirrored.held node hn key
  have hnames := h.shapely.names scope
  have hleaves : ((graph.scope.forest.children scope).map fun leaf =>
      (graph.scope.forest.name? leaf, graph.scope.forest.raw? leaf)).Nodup := by
    refine List.Nodup.of_map Prod.fst ?_
    rwa [List.map_map]
  have hkeys : (node.raw.entries.map Prod.fst).Nodup :=
    List.pairwise_map.mpr (node.raw.sorted.imp fun hlt => String.ne_of_lt hlt)
  have hentries : (node.raw.entries.map fun entry => (some entry.1, some entry.2)).Nodup := by
    refine hkeys.of_map.map fun entry other heq => ?_
    obtain ⟨hkey, hvalue⟩ := Prod.mk.inj heq
    exact Prod.ext (Option.some.inj hkey) (Option.some.inj hvalue)
  refine (List.perm_ext_iff_of_nodup hleaves hentries).mpr fun shown => ?_
  simp only [List.mem_map]
  constructor
  · rintro ⟨leaf, hmem, rfl⟩
    obtain ⟨key, hkey⟩ := h.shapely.exists_name hmem
    have hchild : graph.scope.forest.child? scope key = some leaf := by
      rw [Forest.child?, ← hkey]
      exact find?_eq_some_of_nodup hnames hmem
    have hshown := hheld key
    rw [hchild, Option.map_some] at hshown
    obtain ⟨value, hvalue, hraw⟩ := Option.map_eq_some_iff.mp hshown.symm
    exact ⟨(key, value), Settings.get?_eq_some.mp hvalue, by rw [hkey, ← hraw]⟩
  · rintro ⟨entry, hmem, rfl⟩
    have hshown := hheld entry.1
    rw [Settings.get?_eq_some.mpr hmem, Option.map_some] at hshown
    obtain ⟨leaf, hchild, hraw⟩ := Option.map_eq_some_iff.mp hshown
    obtain ⟨hin, hname⟩ := Forest.mem_of_child? hchild
    exact ⟨leaf, hin, by rw [hname, hraw]⟩

/-- After any calls nodes have different handles and names, edges join nodes, and for each node
there is a scope of its name in the root. The scopes in it hold no others, and their names and
values are the keys of the node with its values. -/
theorem shown_of_reachable {pipeline : Pipeline} {graph : Graph} (h : Reachable pipeline graph) :
    (graph.nodes.map (·.id)).Nodup ∧ (graph.nodes.map (·.name)).Nodup ∧
    (∀ edge ∈ graph.edges,
      edge.source ∈ graph.nodes.map (·.id) ∧ edge.target ∈ graph.nodes.map (·.id)) ∧
    ∀ node ∈ graph.nodes, ∃ scope,
      graph.scope.forest.child? Forest.root node.name = some scope ∧
      (∀ leaf ∈ graph.scope.forest.children scope, graph.scope.forest.children leaf = []) ∧
      ((graph.scope.forest.children scope).map fun leaf =>
        (graph.scope.forest.name? leaf, graph.scope.forest.raw? leaf)).Perm
          (node.raw.entries.map fun entry => (some entry.1, some entry.2)) := by
  have ha := h.attuned
  refine ⟨ha.mirrored.ids, ha.mirrored.names, h.wellFormed.closed, fun node hn => ?_⟩
  obtain ⟨scope, hscope, hshown⟩ := ha.exists_scope hn
  exact ⟨scope, hscope, ha.mirrored.sound.flat scope (Forest.mem_of_child? hscope).1, hshown⟩

/-- When the knot is found the parts are fetched by two nodes already. The scope of the one they
replaced is still there, and each of the nodes that are left is shown by its own. -/
theorem torn_knot_is_shown : ∃ built jobs graph, build knot = .ok built ∧
    prepare {} built = .error (.cycle jobs) graph ∧ Reachable knot graph ∧
    graph.nodes.map (·.name) = ["work", "fetch_seq_0", "fetch_seq_1"] ∧
    (graph.scope.forest.child? Forest.root "fetch").isSome ∧ (graph.nodes.map (·.id)).Nodup ∧
    ∀ node ∈ graph.nodes, ∃ scope,
      graph.scope.forest.child? Forest.root node.name = some scope ∧
      ((graph.scope.forest.children scope).map fun leaf =>
        (graph.scope.forest.name? leaf, graph.scope.forest.raw? leaf)).Perm
          (node.raw.entries.map fun entry => (some entry.1, some entry.2)) := by
  obtain ⟨built, -, -, hbuild, -, -, hfails⟩ :=
    exists_prepared { expandNested := false } knot
      (fun built _ _ => (match prepare {} built with
        | .error (.cycle _) graph =>
          decide (graph.nodes.map (·.name) = ["work", "fetch_seq_0", "fetch_seq_1"] ∧
            (graph.scope.forest.child? Forest.root "fetch").isSome)
        | _ => false) = true)
      (by decide +kernel)
  split at hfails
  next jobs graph hprepare =>
    obtain ⟨hnames, hfetch⟩ := of_decide_eq_true hfails
    have hreach : Reachable knot graph := by
      have hcall := (Reachable.built hbuild).step (.prepare {})
      rwa [Call.run, hprepare] at hcall
    obtain ⟨hids, -, -, hscopes⟩ := shown_of_reachable hreach
    refine ⟨built, jobs, graph, hbuild, hprepare, hreach, hnames, hfetch, hids, fun node hn => ?_⟩
    obtain ⟨scope, hscope, -, hshown⟩ := hscopes node hn
    exact ⟨scope, hscope, hshown⟩
  next => cases hfails

end Graph

end Pipework
