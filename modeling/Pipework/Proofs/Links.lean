import Pipework.Proofs.Reading

/-!
# Edges that follow from references

A parameter whose references all lead to one output of another job gets exactly one edge when the
graph is built. It comes from that output.
-/

namespace Pipework

open Step Resolve

/-- The edge hands on a value to this key of this node. -/
def Edge.into (id : NodeId) (key : String) (edge : Edge) : Bool :=
  edge.target == id && decide (edge.Fills key)

theorem Edge.into_iff {id : NodeId} {key : String} {edge : Edge} :
    edge.into id key = true ↔ edge.target = id ∧ edge.Fills key := by
  rw [Edge.into, Bool.and_eq_true, beq_iff_eq, decide_eq_true_eq]

namespace Forest

/-- The names on the way to a key in a scope of the root. -/
theorem pathOf_of_child? {f : Forest} (hf : f.Sound) {owner key : String} {scope leaf : ScopeId}
    (hs : f.child? root owner = some scope) (hleaf : f.child? scope key = some leaf) :
    f.pathOf leaf = [owner, key] := by
  obtain ⟨hscope, hname⟩ := mem_of_child? hs
  obtain ⟨hmem, hkey⟩ := mem_of_child? hleaf
  have habove : f.parent? leaf = some scope := hf.parent scope leaf hmem
  have htop : f.parent? scope = some root := hf.parent root scope hscope
  have hlt : scope < leaf := hf.older leaf scope habove
  have hchain : f.chain leaf = [leaf, scope, root] := by
    have hpos : 0 < scope := hf.older scope root htop
    obtain ⟨steps, rfl⟩ := Nat.exists_eq_succ_of_ne_zero (Nat.ne_zero_of_lt hlt)
    obtain ⟨more, rfl⟩ := Nat.exists_eq_succ_of_ne_zero
      (Nat.ne_zero_of_lt (hpos.trans_le (Nat.le_of_lt_succ hlt)))
    rw [chain, chainWithin, habove]
    dsimp only
    rw [chainWithin, htop]
    dsimp only
    cases more with
    | zero => rfl
    | succ more => rw [chainWithin, hf.top]
  rw [pathOf, hchain]
  simp [habove, htop, hf.top, hname, hkey]

end Forest

namespace Graph

/-- The edges that hand on values to a key of a node, in order. -/
def fed (graph : Graph) (id : NodeId) (key : String) : List Edge :=
  graph.edges.filter (Edge.into id key)

/-- The output that the key of a node is. -/
theorem outputOwner?_eq {g : Graph} (hm : g.Mirrored) {node : Node} (hn : node ∈ g.nodes)
    {key : String} {parameter : Parameter} (hp : node.parameter? key = some parameter)
    (hout : parameter.isOutput) {leaf : ScopeId}
    (hleaf : g.scope.forest.leaf? node.name key = some leaf) :
    g.outputOwner? leaf = some ⟨node, parameter, leaf⟩ := by
  obtain ⟨scope, hs, hchild⟩ := Option.bind_eq_some_iff.mp hleaf
  have hfind : g.find? node.name = some node := find?_eq_some_of_nodup hm.names hn
  have hat : (g.scope.forest.child? Forest.root node.name).bind
      (g.scope.forest.child? · key) = some leaf := hleaf
  rw [outputOwner?]
  simp [Forest.pathOf_of_child? hm.sound hs hchild, hfind, hp, hs, hchild, hout]

variable {target : NodeId} {start : ScopeId} {parameter : Parameter} {owner : OutputOwner}

/-- References that all lead to one output of another node make one link. -/
theorem linksInto_one (hne : owner.node.id ≠ target) {paths : List (List String)} (hsome : paths ≠ [])
    {g g' : Graph} {edges : List Edge} (hall : ∀ path ∈ paths, g.ownerAt? start path = some owner)
    (h : linksInto target start parameter [] paths g = .ok edges g') :
    ∃ v, edges = [linkEdge owner target parameter v] := by
  obtain ⟨owners, houtputs, hlinks⟩ := linksInto_spec h
  have hsame : ∀ other ∈ owners, other = owner := fun other ho => by
    obtain ⟨_, -, ⟨path, hpath, hother⟩, -⟩ := exists_of_mem_left hlinks ho
    exact Option.some.inj (hother.symm.trans (hall path hpath))
  obtain ⟨path, hpath⟩ := List.exists_mem_of_ne_nil paths hsome
  have hmem : owner.output ∈ owners.map (·.output) := by
    rw [houtputs, newOutputs, List.mem_eraseDups, List.mem_filter]
    exact ⟨List.mem_map_of_mem (List.mem_filterMap.mpr ⟨path, hpath, hall path hpath⟩),
      isNew_iff.mpr ⟨hne, List.not_mem_nil⟩⟩
  -- No output counts twice, so that the owners are this one only.
  have hone : owners = [owner] := by
    have hnodup : (owners.map (·.output)).Nodup := houtputs ▸ nodup_eraseDups _
    rw [List.eq_replicate_iff.mpr ⟨rfl, hsame⟩] at hnodup hmem ⊢
    cases hlength : owners.length with
    | zero => simp [hlength] at hmem
    | succ rest =>
      rw [hlength, List.map_replicate, List.nodup_replicate] at hnodup
      rw [Nat.le_zero.mp (Nat.le_of_succ_le_succ hnodup)]
      rfl
  rw [hone] at hlinks
  cases hlinks with
  | cons hlink hnil =>
    cases hnil
    obtain ⟨v, -, -, -, -, -, rfl⟩ := hlink.made
    exact ⟨v, rfl⟩

theorem fills_linkEdge (owner : OutputOwner) (target : NodeId) (parameter : Parameter) (v : Value) :
    (linkEdge owner target parameter v).Fills parameter.name := ⟨_, rfl, rfl⟩

/-- Links into a parameter hand on values to it. -/
theorem fills_of_linksInto {seen : List (NodeId × String)} {paths : List (List String)}
    {g g' : Graph} {edges : List Edge}
    (h : linksInto target start parameter seen paths g = .ok edges g') :
    ∀ edge ∈ edges, edge.Fills parameter.name := by
  intro edge he
  obtain ⟨_, -, owner, v, -, -, rfl⟩ := reference_of_linksInto h he
  exact fills_linkEdge owner target parameter v

theorem fills_of_linksOf {node : Node} {parameters : List Parameter} {g g' : Graph}
    {edges : List Edge} (h : linksOf node start parameters g = .ok edges g') :
    ∀ edge ∈ edges, ∃ parameter ∈ parameters, edge.Fills parameter.name := by
  intro edge he
  obtain ⟨parameter, hp, _, -, _, -, owner, v, -, -, rfl⟩ := reference_of_linksOf h he
  exact ⟨parameter, hp, fills_linkEdge owner node.id parameter v⟩

theorem into_of_linksOf {node : Node} {key : String} {parameters : List Parameter} {g g' : Graph}
    {edges : List Edge} (hno : ∀ parameter ∈ parameters, parameter.name ≠ key)
    (h : linksOf node start parameters g = .ok edges g') (id : NodeId) :
    edges.filter (Edge.into id key) = [] := by
  refine List.filter_eq_nil_iff.mpr fun edge he hinto => ?_
  obtain ⟨parameter, hp, hfills⟩ := fills_of_linksOf h edge he
  exact hno parameter hp (hfills.unique (Edge.into_iff.mp hinto).2)

/-- A parameter whose references all lead to one output of another node gets one link. -/
theorem linksOf_one {node : Node} {key : String} {parameters : List Parameter}
    (hparams : parameters.filter (·.name == key) = [parameter]) {raw : Value}
    (hraw : node.configured? key = some raw) (hrefs : raw.references ≠ [])
    (hne : owner.node.id ≠ node.id) {g g' : Graph} {edges : List Edge}
    (hchild : (g.scope.forest.child? start key).isSome)
    (hall : ∀ path ∈ raw.references,
      (g.scope.forest.lookup? start path).bind (g.outputOwner? ·.1) = some owner)
    (h : linksOf node start parameters g = .ok edges g') :
    ∃ v, edges.filter (Edge.into node.id key) = [.data owner.node.id node.id
      ⟨.between owner.parameter.isList parameter.isList, owner.parameter.name, key, v, none⟩] := by
  induction parameters generalizing g edges with
  | nil => cases hparams
  | cons first parameters ih =>
    obtain ⟨found, t, others, ⟨memo, -, rfl⟩, hothers, rfl, hfound⟩ := linksOf_cons_eq_ok h
    rw [List.filter_append]
    by_cases hname : first.name = key
    · rw [List.filter_cons_of_pos (by simpa using hname)] at hparams
      obtain ⟨rfl, hnil⟩ := List.cons.inj hparams
      have hno : ∀ parameter ∈ parameters, parameter.name ≠ key := fun p hp => by
        simpa using List.filter_eq_nil_iff.mp hnil p hp
      rw [into_of_linksOf hno hothers, List.append_nil]
      rcases hfound with ⟨-, hnone | hnone⟩ | ⟨raw', hraw', hfound⟩
      · simp [← hname, hnone] at hchild
      · simp [← hname, hnone] at hraw
      · obtain rfl := Option.some.inj (hraw.symm.trans (hname ▸ hraw'))
        obtain ⟨v, rfl⟩ := linksInto_one hne hrefs hall hfound
        refine ⟨v, ?_⟩
        rw [linkEdge, hname, List.filter_cons_of_pos, List.filter_nil]
        exact Edge.into_iff.mpr ⟨rfl, _, rfl, rfl⟩
    · rw [List.filter_cons_of_neg (by simpa using hname)] at hparams
      have hnone : found.filter (Edge.into node.id key) = [] := by
        refine List.filter_eq_nil_iff.mpr fun edge he hinto => ?_
        rcases hfound with ⟨rfl, -⟩ | ⟨raw', -, hfound⟩
        · cases he
        · exact hname ((fills_of_linksInto hfound edge he).unique (Edge.into_iff.mp hinto).2)
      rw [hnone, List.nil_append]
      exact ih (g := { g with scope := { g.scope with memo } }) hparams hchild hall hothers

theorem fed_addEdges (g : Graph) (edges : List Edge) (id : NodeId) (key : String) :
    (g.addEdges edges).fed id key = g.fed id key ++ edges.filter (Edge.into id key) :=
  List.filter_append _ _

/-- Edges for the order only hand on nothing. -/
theorem fed_of_after {g : Graph} (h : ∀ edge ∈ g.edges, edge.kind = .after) (id : NodeId)
    (key : String) : g.fed id key = [] :=
  List.filter_eq_nil_iff.mpr fun edge he hinto =>
    Edge.not_fills_of_after (h edge he) key (Edge.into_iff.mp hinto).2

/-- Finding the links of one node adds none into others. -/
theorem fed_findDependencies {id other : NodeId} (hne : other ≠ id) {u : Unit} {g g' : Graph}
    (h : findDependencies other g = .ok u g') (key : String) : g'.fed id key = g.fed id key := by
  obtain ⟨node, hnode, ⟨-, rfl⟩ | ⟨start, links, t, -, hlinks, rfl⟩⟩ := findDependencies_eq_ok h
  · rfl
  · have hid : node.id = other := by simpa using List.find?_some hnode
    have hnone : links.filter (Edge.into id key) = [] :=
      List.filter_eq_nil_iff.mpr fun edge he hinto =>
        hne (hid.symm.trans ((ends_of_linksOf hlinks edge he).2.symm.trans
          (Edge.into_iff.mp hinto).1))
    obtain ⟨memo, -, rfl⟩ := (moves_linksOf _ _ _).of_ok hlinks
    rw [fed_addEdges, hnone, List.append_nil]
    rfl

/-- Finding the links of other nodes adds none into this one. -/
theorem fed_of_forM {id : NodeId} {others : List NodeId} (hne : ∀ other ∈ others, other ≠ id)
    {u : Unit} {g g' : Graph} (h : others.forM findDependencies g = .ok u g') (key : String) :
    g'.fed id key = g.fed id key :=
  forM_keeps (P := fun t => t.fed id key = g.fed id key)
    (fun other ho _ _ _ hfed hstep => (fed_findDependencies (hne other ho) hstep key).trans hfed)
    rfl h

theorem after_of_afterEdges {job : Job} {id : NodeId} {u : Unit} {g g' : Graph}
    (hg : ∀ edge ∈ g.edges, edge.kind = .after) (h : afterEdges job id g = .ok u g') :
    ∀ edge ∈ g'.edges, edge.kind = .after := by
  refine forM_keeps (P := fun t => ∀ edge ∈ t.edges, edge.kind = .after) ?_ hg h
  rintro after - t v t' ht hstep edge he
  obtain ⟨source, -, rfl⟩ := afterEdge_eq_ok hstep
  rcases List.mem_append.mp he with he | he
  · exact ht edge he
  · rw [List.mem_singleton.mp he]
    rfl

section Built

variable {g : Graph} {node source : Node} {key out : String} {output : Parameter} {raw : Value}
  (hparams : node.spec.parameters.filter (·.name == key) = [parameter])
  (hraw : node.configured? key = some raw) (hrefs : raw.references ≠ [])
  (hne : source.id ≠ node.id) (hout : source.parameter? out = some output)
  (houtput : output.isOutput) (hvalue : (source.configured? out).isSome)
  (hnone : node.configured? source.name = none)
  (hall : ∀ path ∈ raw.references, ∃ fields, path = source.name :: out :: fields)

include hparams hraw hrefs hne hout houtput hvalue hnone hall

/-- When the links of a node are found, a parameter whose references all lead to one output of
another node gets one edge more, from there. -/
theorem fed_findDependencies_one {t t' : Graph} {u : Unit} (hm : t.Mirrored) (hn : node ∈ t.nodes)
    (hs : source ∈ t.nodes) (h : findDependencies node.id t = .ok u t') :
    ∃ v, t'.fed node.id key = t.fed node.id key ++ [.data source.id node.id
      ⟨.between output.isList parameter.isList, out, key, v, none⟩] := by
  obtain ⟨scope, hscope, -⟩ := hm.room node hn
  have hin : t.node? node.id = some node := hm.node?_eq_some hn
  obtain ⟨found, hfound, hcase⟩ := findDependencies_eq_ok h
  obtain rfl : found = node := Option.some.inj (hfound.symm.trans hin)
  have hown : t.scopeOf? found.id = some scope := by rw [scopeOf?, hin, Option.bind_some, hscope]
  rcases hcase with ⟨hno, -⟩ | ⟨start, links, t'', hat, hlinks, rfl⟩
  · rw [hown] at hno
    cases hno
  · obtain rfl := Option.some.inj (hown.symm.trans hat)
    -- The output has a value, so it lies in the scopes already.
    obtain ⟨held, hheld⟩ := Option.isSome_iff_exists.mp hvalue
    obtain ⟨leaf, hleaf, hisSome, hbeside⟩ := beside_named hm hn hscope hnone
      (by rw [hm.held source hs, hheld]; rfl)
    have howner : ∀ path ∈ raw.references,
        (t.scope.forest.lookup? scope path).bind (t.outputOwner? ·.1) =
          some ⟨source, output, leaf⟩ := by
      intro path hp
      obtain ⟨fields, rfl⟩ := hall path hp
      rw [(hbeside fields).lookup? hm.sound hisSome, Option.bind_some]
      exact outputOwner?_eq hm hs hout houtput hleaf
    have hchild : (t.scope.forest.child? scope key).isSome := by
      obtain ⟨own, hchild, -⟩ := beside_own hm hn hscope (Option.isSome_of_eq_some hraw)
      rw [Forest.leaf?, hscope, Option.bind_some] at hchild
      rw [hchild]
      rfl
    obtain ⟨v, hone⟩ := linksOf_one hparams hraw hrefs hne hchild howner hlinks
    obtain ⟨memo, -, rfl⟩ := (moves_linksOf _ _ _).of_ok hlinks
    have hname : output.name = out := by simpa using List.find?_some hout
    refine ⟨v, ?_⟩
    rw [fed_addEdges, hone, ← hname]
    rfl

/-- When a graph is built, a parameter whose references all lead to one output of another job gets
one edge, from there. -/
theorem fed_build {pipeline : Pipeline} (h : build pipeline = .ok g) (hn : node ∈ g.nodes)
    (hs : source ∈ g.nodes) : ∃ v, g.fed node.id key = [.data source.id node.id
      ⟨.between output.isList parameter.isList, out, key, v, none⟩] := by
  have hw := (build_spec h).2.1
  obtain ⟨g₁, ids, g₂, g₃, -, hglobals, hnodes, hafter, hdeps⟩ := build_eq_ok h
  have hm₂ := mirrored_of_addNodes hglobals hnodes
  obtain ⟨tree, rfl⟩ := (moves_addGlobals pipeline).of_ok hglobals
  have hseed := seeded_of_addNodes hnodes
  have hkinds : ∀ edge ∈ g₃.edges, edge.kind = .after := forM_keeps
    (P := fun t => ∀ edge ∈ t.edges, edge.kind = .after)
    (fun entry _ t v t' ht hstep => after_of_afterEdges ht hstep) (by simp [hseed.edges]) hafter
  have hadds : AddsEdges g₂ g₃ := (Moves.forM fun entry _ => moves_afterEdges _ _).of_ok hafter
  have hmore : AddsEdges g₃ g := (Moves.forM fun id _ => moves_findDependencies id).of_ok hdeps
  have hids : ids = g.nodes.map (·.id) := by rw [hmore.nodes, hadds.nodes, hseed.ids_eq]
  -- All others are looked at before or after the node.
  obtain ⟨before, behind, hsplit⟩ := List.append_of_mem (hids ▸ List.mem_map_of_mem hn :
    node.id ∈ ids)
  have hnodup : (before ++ node.id :: behind).Nodup := hsplit ▸ hids ▸ hw.nodup
  rw [hsplit] at hdeps
  obtain ⟨t, hbefore, hdeps⟩ := forM_append_eq_ok.mp hdeps
  obtain ⟨_, t', hat, hbehind⟩ := bind_eq_ok.mp hdeps
  have hstart : AddsEdges g₃ t := (Moves.forM fun id _ => moves_findDependencies id).of_ok hbefore
  have hearlier : ∀ other ∈ before, other ≠ node.id := fun other ho =>
    (List.nodup_append.mp hnodup).2.2 other ho node.id List.mem_cons_self
  have hlater : ∀ other ∈ behind, other ≠ node.id := fun other ho heq =>
    (List.nodup_cons.mp (List.nodup_append.mp hnodup).2.1).1 (heq ▸ ho)
  have hempty : t.fed node.id key = [] :=
    (fed_of_forM hearlier hbefore key).trans (fed_of_after hkinds node.id key)
  have hend : g.fed node.id key = t'.fed node.id key := fed_of_forM hlater hbehind key
  have hm : t.Mirrored := (hstart.inStep ((hadds.inStep hm₂).1)).1
  have hsame : t.nodes = g.nodes := hstart.nodes.trans hmore.nodes.symm
  obtain ⟨v, hone⟩ := fed_findDependencies_one hparams hraw hrefs hne hout houtput hvalue hnone
    hall hm (hsame ▸ hn) (hsame ▸ hs) hat
  exact ⟨v, by rw [hend, hone, hempty, List.nil_append]⟩

end Built

end Graph

end Pipework
