import Pipework.Graph.Dependency
import Pipework.Proofs.Settings
import Pipework.Proofs.WellFormed

/-!
# Graphs as they are built

The graph of a pipeline has one node for each job, in the order of the jobs, and edges
between these nodes only. Among them is an edge for the order only from each job to every
job that comes after it by definition.
-/

namespace Pipework

open Step Resolve

/-- Nothing is found about names if they are there, differ, and are not taken. -/
theorem Structure.nameFindings_eq_nil {ids taken : List String} {place : Nat} :
    nameFindings place taken ids = [] ↔
      (∀ id ∈ ids, id ≠ "") ∧ ids.Nodup ∧ ∀ id ∈ ids, id ∉ taken := by
  induction ids generalizing place taken with
  | nil => simp [nameFindings]
  | cons id ids ih =>
    rw [nameFindings]
    split
    next hempty => simp [hempty]
    next hnamed =>
      split
      next htaken => simp [htaken]
      next hfree =>
        rw [ih, List.forall_mem_cons, List.forall_mem_cons, List.nodup_cons]
        simp only [List.mem_cons, not_or]
        constructor
        · rintro ⟨hrest, hnodup, hnew⟩
          exact ⟨⟨hnamed, hrest⟩, ⟨fun hm => (hnew id hm).1 rfl, hnodup⟩, hfree,
            fun other ho => (hnew other ho).2⟩
        · rintro ⟨⟨-, hrest⟩, ⟨hfirst, hnodup⟩, -, hnew⟩
          exact ⟨hrest, hnodup, fun other ho => ⟨fun heq => hfirst (heq ▸ ho), hnew other ho⟩⟩

/-- A definition without findings gives its jobs different names. -/
theorem Structure.nodup_of_findings {pipeline : Pipeline} (h : findings pipeline = []) :
    (pipeline.jobs.map (·.id)).Nodup := by
  obtain ⟨configuration, parameters, jobs⟩ := pipeline
  rw [findings, List.append_eq_nil_iff] at h
  exact (nameFindings_eq_nil.mp h.1).2.1

namespace Graph

/-- Edges are added behind the others, and nodes and scopes stay. -/
structure AddsEdges (g g' : Graph) : Prop where
  /-- The nodes stay. -/
  nodes : g'.nodes = g.nodes
  /-- No handle is given out. -/
  nextId : g'.nextId = g.nextId
  /-- The scopes stay. -/
  forest : g'.scope.forest = g.scope.forest
  /-- At most more is remembered of values. -/
  learns : Learns g.scope.forest [] g.scope.memo g'.scope.memo
  /-- The edges stay at their places. -/
  edges : g.edges <+: g'.edges

instance : Std.Refl AddsEdges :=
  ⟨fun g => ⟨rfl, rfl, rfl, refl_of _ g.scope.memo, List.prefix_rfl⟩⟩

instance : IsTrans Graph AddsEdges where
  trans g _ _ h h' := ⟨h'.nodes.trans h.nodes, h'.nextId.trans h.nextId, h'.forest.trans h.forest,
    trans_of (Learns g.scope.forest []) h.learns (h.forest ▸ h'.learns), h.edges.trans h'.edges⟩

/-- Reading values adds no edges and changes nothing else. -/
theorem SameButMemo.addsEdges {g g' : Graph} (h : SameButMemo g g') : AddsEdges g g' := by
  obtain ⟨memo, hlearns, rfl⟩ := h
  exact ⟨rfl, rfl, rfl, hlearns, List.prefix_rfl⟩

/-- Adding edges adds them and changes nothing else. -/
theorem addsEdges_addEdges (g : Graph) (edges : List Edge) : AddsEdges g (g.addEdges edges) :=
  ⟨rfl, rfl, rfl, refl_of _ g.scope.memo, List.prefix_append _ _⟩

/-- A step that adds edges changes nothing else. -/
theorem moves_addEdges (edges : List Edge) :
    Moves AddsEdges (modify (·.addEdges edges) : GraphM Unit) :=
  .modify fun g => addsEdges_addEdges g edges

/-- What a job comes after makes edges and nothing else, whether it is found or not. -/
theorem moves_afterEdge (job : Job) (target : NodeId) (after : String) :
    Moves AddsEdges (do
      match (← get).find? after with
      | some source => modify (·.addEdges [.after source.id target])
      | none => throw (.unknownJob job.id after) : GraphM Unit) := by
  refine Moves.get.bind fun graph => ?_
  cases graph.find? after with
  | none => exact .throw _
  | some source => exact moves_addEdges _

/-- The edges for the order to a job are added, and nothing else changes. -/
theorem moves_afterEdges (job : Job) (target : NodeId) :
    Moves AddsEdges (afterEdges job target) := .forM fun after _ => moves_afterEdge job target after

/-- The edges to a parameter are found by reading. -/
theorem moves_linksInto (target : NodeId) (start : ScopeId) (parameter : Parameter)
    (seen : List (NodeId × String)) (paths : List (List String)) :
    Moves SameButMemo (linksInto target start parameter seen paths) := by
  induction paths generalizing seen with
  | nil => exact .pure _
  | cons path paths ih =>
    rw [linksInto]
    refine Moves.get.bind fun graph => ?_
    split
    · exact ih seen
    · dsimp only
      split
      · exact ih seen
      · exact (moves_onScope_of (ScopeTree.moves_resolveAt _)).bind fun value =>
          (ih _).bind fun others => .pure _

/-- The edges to parameters are found by reading. -/
theorem moves_linksOf (node : Node) (start : ScopeId) (parameters : List Parameter) :
    Moves SameButMemo (linksOf node start parameters) := by
  induction parameters with
  | nil => exact .pure _
  | cons parameter parameters ih =>
    rw [linksOf]
    refine Moves.get.bind fun graph => ?_
    split
    · exact (moves_linksInto _ _ _ _ _).bind fun found => ih.bind fun others => .pure _
    · exact (Moves.pure _).bind fun found => ih.bind fun others => .pure _

/-- The edges that a node asks for are added, and nothing else changes. -/
theorem moves_findDependencies (id : NodeId) : Moves AddsEdges (findDependencies id) := by
  refine (moves_nodeAt id).bind fun node => Moves.get.bind fun graph => ?_
  cases graph.scopeOf? id with
  | none => exact .pure _
  | some start =>
    exact ((moves_linksOf node start _).mono fun _ _ h => h.addsEdges).bind fun links =>
      moves_addEdges links

/-- The owner of an output is a node of the graph with that parameter. -/
theorem outputOwner?_spec {g : Graph} {leaf : ScopeId} {owner : OutputOwner}
    (h : g.outputOwner? leaf = some owner) : owner.node ∈ g.nodes ∧
      owner.node.parameter? owner.parameter.name = some owner.parameter := by
  rw [outputOwner?] at h
  split at h
  next name key _ _ =>
    simp only [Option.bind_eq_bind, Option.bind_eq_some_iff] at h
    obtain ⟨node, hn, parameter, hp, scope, -, h⟩ := h
    split at h
    · cases h
      have hname : parameter.name = key := by simpa using List.find?_some hp
      exact ⟨List.mem_of_find?_eq_some hn, hname ▸ hp⟩
    · cases h
  next => cases h

/-- The edge that hands on an output to a parameter, as it is made when a graph is built. -/
def linkEdge (owner : OutputOwner) (target : NodeId) (parameter : Parameter) (v : Value) : Edge :=
  .data owner.node.id target
    ⟨.between owner.parameter.isList parameter.isList, owner.parameter.name, parameter.name, v, none⟩

/-- The output that a reference in a scope leads to. -/
def ownerAt? (g : Graph) (start : ScopeId) (path : List String) : Option OutputOwner :=
  (g.scope.forest.lookup? start path).bind (g.outputOwner? ·.1)

/-- What an edge tells of the output that it comes from: the handle of its node and its name. -/
def OutputOwner.output (owner : OutputOwner) : NodeId × String :=
  (owner.node.id, owner.parameter.name)

/-- Whether an output is one of another node and was not seen before. -/
def isNew (target : NodeId) (seen : List (NodeId × String)) (output : NodeId × String) : Bool :=
  output.1 != target && !seen.contains output

theorem isNew_iff {target : NodeId} {seen : List (NodeId × String)} {output : NodeId × String} :
    isNew target seen output = true ↔ output.1 ≠ target ∧ output ∉ seen := by
  simp [isNew]

/-- The outputs of other nodes that references lead to and that were not seen before, each once, in the
order in which they are first referred to. -/
def newOutputs (g : Graph) (target : NodeId) (start : ScopeId) (seen : List (NodeId × String))
    (paths : List (List String)) : List (NodeId × String) :=
  (((paths.filterMap (g.ownerAt? start)).map (·.output)).filter (isNew target seen)).eraseDups

/-- What is new behind an output is what is still new once that output was seen. -/
theorem filter_isNew (target : NodeId) (seen outputs : List (NodeId × String))
    (first : NodeId × String) : (outputs.filter (isNew target seen)).filter (fun output =>
      !output == first) = outputs.filter (isNew target (first :: seen)) := by
  rw [List.filter_filter]
  refine List.filter_congr fun output _ => Bool.eq_iff_iff.mpr ?_
  rw [Bool.and_eq_true, isNew_iff, isNew_iff, List.mem_cons, not_or, Bool.not_eq_true',
    beq_eq_false_iff_ne]
  exact and_left_comm

/-- The edge is the one that references to an output of another node make, with what the output
resolved to at that time. -/
structure LinkOf (g g' : Graph) (target : NodeId) (start : ScopeId) (parameter : Parameter)
    (paths : List (List String)) (owner : OutputOwner) (edge : Edge) : Prop where
  /-- A reference leads to the output. -/
  referred : ∃ path ∈ paths, g.ownerAt? start path = some owner
  /-- The output is not one of the node itself. -/
  other : owner.node.id ≠ target
  /-- The edge has the value of the output. -/
  made : ∃ v t t', SameButMemo g t ∧ onScope (ScopeTree.resolveAt owner.scope) t = .ok v t' ∧
    SameButMemo t' g' ∧ edge = linkEdge owner target parameter v

/-- An edge for one of some references is one for one of more. -/
theorem LinkOf.mono {g t g' : Graph} {target : NodeId} {start : ScopeId} {parameter : Parameter}
    {paths paths' : List (List String)} {owner : OutputOwner} {edge : Edge} (hsame : SameButMemo g t)
    (hpaths : paths ⊆ paths') (h : LinkOf t g' target start parameter paths owner edge) :
    LinkOf g g' target start parameter paths' owner edge := by
  obtain ⟨⟨path, hpath, howner⟩, hother, v, u, u', hu, hmade, hlast⟩ := h
  refine ⟨⟨path, hpaths hpath, ?_⟩, hother, v, u, u', trans_of _ hsame hu, hmade, hlast⟩
  obtain ⟨memo, -, rfl⟩ := hsame
  exact howner

/-- Each new output of another node that references lead to makes one link. -/
theorem linksInto_spec {target : NodeId} {start : ScopeId} {parameter : Parameter}
    {seen : List (NodeId × String)} {paths : List (List String)} {g g' : Graph} {edges : List Edge}
    (h : linksInto target start parameter seen paths g = .ok edges g') :
    ∃ owners : List OutputOwner, owners.map (·.output) = g.newOutputs target start seen paths ∧
      List.Forall₂ (LinkOf g g' target start parameter paths) owners edges := by
  induction paths generalizing seen g edges with
  | nil =>
    obtain ⟨rfl, -⟩ := pure_eq_ok.mp h
    exact ⟨[], rfl, .nil⟩
  | cons path paths ih =>
    rw [linksInto] at h
    obtain ⟨_, _, hget, h⟩ := bind_eq_ok.mp h
    obtain ⟨rfl, rfl⟩ := get_eq_ok.mp hget
    have hlater : ∀ {t owners edges}, SameButMemo g t →
        List.Forall₂ (LinkOf t g' target start parameter paths) owners edges →
          List.Forall₂ (LinkOf g g' target start parameter (path :: paths)) owners edges :=
      fun hsame hall => hall.imp fun _ _ hlink => hlink.mono hsame (List.subset_cons_self _ _)
    rw [newOutputs]
    cases howner : (g.scope.forest.lookup? start path).bind (g.outputOwner? ·.1) with
    | none =>
      simp only [howner] at h
      obtain ⟨owners, howners, hall⟩ := ih h
      rw [List.filterMap_cons_none (f := g.ownerAt? start) howner]
      exact ⟨owners, howners, hlater (refl_of _ g) hall⟩
    | some owner =>
      simp only [howner] at h
      rw [List.filterMap_cons_some (f := g.ownerAt? start) howner, List.map_cons]
      split at h
      next hskip =>
        obtain ⟨owners, howners, hall⟩ := ih h
        have hold : ¬ isNew target seen owner.output = true := fun hnew =>
          hskip.elim (isNew_iff.mp hnew).1 (isNew_iff.mp hnew).2
        rw [List.filter_cons_of_neg hold]
        exact ⟨owners, howners, hlater (refl_of _ g) hall⟩
      next hnew =>
        rw [not_or] at hnew
        obtain ⟨value, t, hvalue, h⟩ := bind_eq_ok.mp h
        obtain ⟨others, t', hothers, h⟩ := bind_eq_ok.mp h
        obtain ⟨rfl, rfl⟩ := pure_eq_ok.mp h
        have hsame : SameButMemo g t := (moves_onScope_of (ScopeTree.moves_resolveAt _)).of_ok hvalue
        obtain ⟨owners, howners, hall⟩ := ih hothers
        refine ⟨owner :: owners, ?_, .cons ⟨⟨path, List.mem_cons_self, howner⟩, hnew.1, value, g, t,
          refl_of _ g, hvalue, (moves_linksInto _ _ _ _ _).of_ok hothers, rfl⟩ (hlater hsame hall)⟩
        have hfresh : isNew target seen owner.output = true := isNew_iff.mpr hnew
        rw [List.filter_cons_of_pos hfresh, List.eraseDups_cons, List.map_cons, howners, filter_isNew]
        obtain ⟨memo, -, rfl⟩ := hsame
        rfl

/-- Only references to outputs of other nodes make links. -/
theorem reference_of_linksInto {target : NodeId} {start : ScopeId} {parameter : Parameter}
    {seen : List (NodeId × String)} {paths : List (List String)} {g g' : Graph} {edges : List Edge}
    (h : linksInto target start parameter seen paths g = .ok edges g') {edge : Edge}
    (he : edge ∈ edges) : ∃ path ∈ paths, ∃ owner v, g.ownerAt? start path = some owner ∧
      owner.node.id ≠ target ∧ edge = linkEdge owner target parameter v := by
  obtain ⟨owners, -, hall⟩ := linksInto_spec h
  obtain ⟨owner, -, ⟨path, hpath, howner⟩, hother, v, _, _, -, -, -, rfl⟩ := exists_of_mem_right hall he
  exact ⟨path, hpath, owner, v, howner, hother, rfl⟩

/-- The links of a node are those into one parameter and then those into the others. -/
theorem linksOf_cons_eq_ok {node : Node} {start : ScopeId} {parameter : Parameter}
    {parameters : List Parameter} {g g' : Graph} {edges : List Edge}
    (h : linksOf node start (parameter :: parameters) g = .ok edges g') :
    ∃ found t others, SameButMemo g t ∧ linksOf node start parameters t = .ok others g' ∧
      edges = found ++ others ∧ ((found = [] ∧ (g.scope.forest.child? start parameter.name = none ∨
        node.configured? parameter.name = none)) ∨
      ∃ raw, node.configured? parameter.name = some raw ∧
        linksInto node.id start parameter [] raw.references g = .ok found t) := by
  rw [linksOf] at h
  obtain ⟨_, _, hget, h⟩ := bind_eq_ok.mp h
  obtain ⟨rfl, rfl⟩ := get_eq_ok.mp hget
  cases hchild : g.scope.forest.child? start parameter.name with
  | none =>
    simp only [hchild] at h
    obtain ⟨_, _, hnil, h⟩ := bind_eq_ok.mp h
    obtain ⟨rfl, rfl⟩ := pure_eq_ok.mp hnil
    obtain ⟨others, t, hothers, h⟩ := bind_eq_ok.mp h
    obtain ⟨rfl, rfl⟩ := pure_eq_ok.mp h
    exact ⟨[], g, others, refl_of _ _, hothers, rfl, .inl ⟨rfl, .inl rfl⟩⟩
  | some leaf =>
    cases hraw : node.configured? parameter.name with
    | none =>
      simp only [hchild, hraw] at h
      obtain ⟨_, _, hnil, h⟩ := bind_eq_ok.mp h
      obtain ⟨rfl, rfl⟩ := pure_eq_ok.mp hnil
      obtain ⟨others, t, hothers, h⟩ := bind_eq_ok.mp h
      obtain ⟨rfl, rfl⟩ := pure_eq_ok.mp h
      exact ⟨[], g, others, refl_of _ _, hothers, rfl, .inl ⟨rfl, .inr rfl⟩⟩
    | some raw =>
      simp only [hchild, hraw] at h
      obtain ⟨found, t, hfound, h⟩ := bind_eq_ok.mp h
      obtain ⟨others, t', hothers, h⟩ := bind_eq_ok.mp h
      obtain ⟨rfl, rfl⟩ := pure_eq_ok.mp h
      exact ⟨found, t, others, (moves_linksInto _ _ _ _ _).of_ok hfound, hothers, rfl,
        .inr ⟨raw, rfl, hfound⟩⟩

/-- A link of a node is one into a parameter whose value has references. -/
theorem exists_of_mem_linksOf {node : Node} {start : ScopeId} {parameters : List Parameter}
    {g g' : Graph} {edges : List Edge} (h : linksOf node start parameters g = .ok edges g') {edge : Edge}
    (he : edge ∈ edges) : ∃ parameter ∈ parameters, ∃ raw t found t',
      node.configured? parameter.name = some raw ∧ SameButMemo g t ∧
        linksInto node.id start parameter [] raw.references t = .ok found t' ∧ edge ∈ found := by
  induction parameters generalizing g edges with
  | nil =>
    obtain ⟨rfl, -⟩ := pure_eq_ok.mp h
    cases he
  | cons parameter parameters ih =>
    obtain ⟨found, t, others, hsame, hothers, rfl, hfound⟩ := linksOf_cons_eq_ok h
    rcases List.mem_append.mp he with he | he
    · rcases hfound with ⟨rfl, -⟩ | ⟨raw, hraw, hfound⟩
      · cases he
      · exact ⟨parameter, List.mem_cons_self, raw, g, found, t, hraw, refl_of _ g, hfound, he⟩
    · obtain ⟨other, hother, raw, u, found', u', hraw, hu, hlinks, hmem⟩ := ih hothers he
      exact ⟨other, List.mem_cons_of_mem _ hother, raw, u, found', u', hraw, trans_of _ hsame hu,
        hlinks, hmem⟩

/-- So it comes from an output of another node to which the parameter refers. -/
theorem reference_of_linksOf {node : Node} {start : ScopeId} {parameters : List Parameter}
    {g g' : Graph} {edges : List Edge} (h : linksOf node start parameters g = .ok edges g') {edge : Edge}
    (he : edge ∈ edges) : ∃ parameter ∈ parameters,
      ∃ raw, node.configured? parameter.name = some raw ∧ ∃ path ∈ raw.references, ∃ owner v,
        g.ownerAt? start path = some owner ∧ owner.node.id ≠ node.id ∧
          edge = linkEdge owner node.id parameter v := by
  obtain ⟨parameter, hp, raw, t, found, t', hraw, ⟨memo, -, rfl⟩, hlinks, hmem⟩ :=
    exists_of_mem_linksOf h he
  exact ⟨parameter, hp, raw, hraw, reference_of_linksInto hlinks hmem⟩

/-- Links of a node lead to it from nodes of the graph. -/
theorem ends_of_linksOf {node : Node} {start : ScopeId} {parameters : List Parameter}
    {g g' : Graph} {edges : List Edge} (h : linksOf node start parameters g = .ok edges g') :
    ∀ edge ∈ edges, edge.source ∈ g.nodes.map (·.id) ∧ edge.target = node.id := by
  intro edge he
  obtain ⟨_, -, _, -, _, -, owner, v, howner, -, rfl⟩ := reference_of_linksOf h he
  obtain ⟨leaf, -, hleaf⟩ := Option.bind_eq_some_iff.mp howner
  exact ⟨List.mem_map_of_mem ((outputOwner?_spec hleaf).1), rfl⟩

/-- Edges that join nodes may be added. -/
theorem WellFormed.of_addsEdges {g g' : Graph} (h : AddsEdges g g') (hw : g.WellFormed)
    (hnew : ∀ edge ∈ g'.edges, edge ∈ g.edges ∨
      edge.source ∈ g.nodes.map (·.id) ∧ edge.target ∈ g.nodes.map (·.id)) : g'.WellFormed := by
  refine ⟨by simpa only [h.nodes, h.nextId] using hw.below, by simpa only [h.nodes] using hw.nodup,
    fun edge he => ?_⟩
  rw [h.nodes]
  exact (hnew edge he).elim (hw.closed edge) id

/-- The edges into a node that its parameters refer to are added behind the others. -/
theorem findDependencies_eq_ok {id : NodeId} {u : Unit} {g g' : Graph}
    (h : findDependencies id g = .ok u g') : ∃ node, g.node? id = some node ∧
      ((g.scopeOf? id = none ∧ g' = g) ∨ ∃ start links t, g.scopeOf? id = some start ∧
        linksOf node start node.spec.parameters g = .ok links t ∧ g' = t.addEdges links) := by
  obtain ⟨node, _, hat, h⟩ := bind_eq_ok.mp h
  obtain ⟨hnode, rfl⟩ := nodeAt_eq_ok.mp hat
  obtain ⟨_, _, hget, h⟩ := bind_eq_ok.mp h
  obtain ⟨rfl, rfl⟩ := get_eq_ok.mp hget
  cases hscope : g.scopeOf? id with
  | none =>
    simp only [hscope] at h
    obtain ⟨-, rfl⟩ := pure_eq_ok.mp h
    exact ⟨node, hnode, .inl ⟨rfl, rfl⟩⟩
  | some start =>
    simp only [hscope] at h
    obtain ⟨links, t, hlinks, h⟩ := bind_eq_ok.mp h
    exact ⟨node, hnode, .inr ⟨start, links, t, rfl, hlinks, (modify_eq_ok.mp h).symm⟩⟩

/-- The edges that a node asks for join nodes. -/
theorem wellFormed_findDependencies {id : NodeId} {u : Unit} {g g' : Graph} (hw : g.WellFormed)
    (h : findDependencies id g = .ok u g') : g'.WellFormed := by
  obtain ⟨node, hnode, ⟨-, rfl⟩ | ⟨start, links, t, -, hlinks, rfl⟩⟩ := findDependencies_eq_ok h
  · exact hw
  · have hends := ends_of_linksOf hlinks
    have hsame := (moves_linksOf _ _ _).of_ok hlinks
    have hadds := trans_of AddsEdges hsame.addsEdges (addsEdges_addEdges t links)
    obtain ⟨memo, -, rfl⟩ := hsame
    refine WellFormed.of_addsEdges hadds hw fun edge he => ?_
    rcases List.mem_append.mp he with he | he
    · exact .inl he
    · obtain ⟨hs, ht⟩ := hends edge he
      exact .inr ⟨hs, ht ▸ List.mem_map_of_mem (List.mem_of_find?_eq_some hnode)⟩

/-- What happens for one of the jobs that a job comes after. -/
theorem afterEdge_eq_ok {job : Job} {target : NodeId} {after : String} {u : Unit} {g g' : Graph}
    (h : (do
      match (← get).find? after with
      | some source => modify (·.addEdges [.after source.id target])
      | none => throw (.unknownJob job.id after) : GraphM Unit) g = .ok u g') :
    ∃ source, g.find? after = some source ∧ g' = g.addEdges [.after source.id target] := by
  obtain ⟨_, _, hget, h⟩ := bind_eq_ok.mp h
  obtain ⟨rfl, rfl⟩ := get_eq_ok.mp hget
  cases hsource : g.find? after with
  | none =>
    simp only [hsource] at h
    exact absurd h throw_ne_ok
  | some source =>
    simp only [hsource] at h
    exact ⟨source, rfl, (modify_eq_ok.mp h).symm⟩

/-- The edges for the order to a job join nodes. -/
theorem wellFormed_afterEdges {job : Job} {target : NodeId} {u : Unit} {g g' : Graph}
    (ht : target ∈ g.nodes.map (·.id)) (hw : g.WellFormed)
    (h : afterEdges job target g = .ok u g') : g'.WellFormed := by
  refine (forM_keeps (P := fun t => AddsEdges g t ∧ t.WellFormed) ?_ ⟨refl_of _ _, hw⟩ h).2
  rintro after - t v t' ⟨hadds, hwt⟩ hstep
  obtain ⟨source, hsource, rfl⟩ := afterEdge_eq_ok hstep
  have hstep := addsEdges_addEdges t [.after source.id target]
  refine ⟨trans_of _ hadds hstep, WellFormed.of_addsEdges hstep hwt fun edge he => ?_⟩
  rcases List.mem_append.mp he with he | he
  · exact .inl he
  · obtain rfl := List.mem_singleton.mp he
    refine .inr ⟨List.mem_map_of_mem (List.mem_of_find?_eq_some hsource), ?_⟩
    rwa [hadds.nodes]

/-- Whoever the definition of a job names gets an edge to it. -/
theorem mem_edges_of_afterEdges {job : Job} {target : NodeId} {u : Unit} {g g' : Graph}
    (h : afterEdges job target g = .ok u g') {after : String} (ha : after ∈ job.after) :
    ∃ source, g.find? after = some source ∧ Edge.after source.id target ∈ g'.edges := by
  obtain ⟨t, v, t', hbefore, hstep, hbehind⟩ :=
    exists_of_forM (fun after _ => moves_afterEdge job target after) h ha
  obtain ⟨source, hsource, rfl⟩ := afterEdge_eq_ok hstep
  refine ⟨source, by rwa [find?, ← hbefore.nodes], hbehind.edges.subset ?_⟩
  exact List.mem_append_right _ (List.mem_singleton_self _)

/-- Putting in what all jobs may refer to changes scopes only. -/
theorem moves_addGlobals (pipeline : Pipeline) : Moves SameButScope (addGlobals pipeline) := by
  refine (Moves.forM fun entry _ => (moves_onScope _).bind fun _ => .pure _).bind fun _ => ?_
  refine Moves.forM fun parameter _ => ?_
  split
  · exact (moves_onScope _).bind fun _ => .pure _
  · exact .pure _

/-- A node comes after those of the jobs that its own job comes after by definition. -/
def Linked (graph : Graph) : Prop :=
  ∀ first ∈ graph.nodes, ∀ second ∈ graph.nodes, first.spec.id ∈ second.spec.after →
    Edge.after first.id second.id ∈ graph.edges

/-- The nodes of a pipeline, with nothing between them yet. -/
structure Seeded (jobs : List Job) (ids : List NodeId) (graph : Graph) : Prop where
  /-- The handles are those of the nodes. -/
  ids_eq : ids = graph.nodes.map (·.id)
  /-- There is a node for each job. -/
  nodes : List.Forall₂ (fun job node => node = Node.ofJob node.id job) jobs graph.nodes
  /-- There are no edges. -/
  edges : graph.edges = []
  /-- Handles fit together. -/
  wellFormed : graph.WellFormed

/-- Nodes as they are made have the jobs and go by their names. -/
theorem specs_of_ofJob {jobs : List Job} {nodes : List Node}
    (h : List.Forall₂ (fun job node => node = Node.ofJob node.id job) jobs nodes) :
    nodes.map (·.spec) = jobs ∧ ∀ node ∈ nodes, node.spec ∈ jobs ∧ node.name = node.spec.id := by
  induction h with
  | nil => simp
  | @cons job node jobs nodes hnode _ ih =>
    obtain ⟨hspecs, hnames⟩ := ih
    refine ⟨?_, fun other ho => ?_⟩
    · rw [List.map_cons, hspecs, hnode, Node.ofJob]
    · rcases List.mem_cons.mp ho with rfl | ho
      · rw [hnode, Node.ofJob]
        exact ⟨List.mem_cons_self, rfl⟩
      · exact ⟨List.mem_cons_of_mem _ (hnames other ho).1, (hnames other ho).2⟩

/-- Adding the edges that definitions ask for links every node to those it comes after. -/
theorem linked_of_afterEdges {jobs : List Job} {ids : List NodeId} {u : Unit} {g g' : Graph}
    (hseed : Seeded jobs ids g) (hnames : (jobs.map (·.id)).Nodup)
    (h : (jobs.zip ids).forM (fun entry => afterEdges entry.1 entry.2) g = .ok u g') :
    AddsEdges g g' ∧ g'.WellFormed ∧ g'.Linked := by
  have hmoves : ∀ entry ∈ jobs.zip ids, Moves AddsEdges (afterEdges entry.1 entry.2) :=
    fun entry _ => moves_afterEdges entry.1 entry.2
  have hadds : AddsEdges g g' := (Moves.forM hmoves).of_ok h
  obtain ⟨hspecs, hnamed⟩ := specs_of_ofJob hseed.nodes
  have hzip : jobs.zip ids = g.nodes.map fun node => (node.spec, node.id) := by
    rw [← hspecs, hseed.ids_eq, List.zip_map']
  have hnodup : (g.nodes.map (·.name)).Nodup := by
    rw [← hspecs, List.map_map] at hnames
    rwa [List.map_congr_left fun node hn => (hnamed node hn).2]
  refine ⟨hadds, ?_, ?_⟩
  · refine (forM_keeps (P := fun t => AddsEdges g t ∧ t.WellFormed) ?_
      ⟨refl_of _ _, hseed.wellFormed⟩ h).2
    rintro ⟨job, id⟩ hentry t v t' ⟨ht, hw⟩ hstep
    refine ⟨trans_of _ ht ((moves_afterEdges job id).of_ok hstep), ?_⟩
    refine wellFormed_afterEdges ?_ hw hstep
    rw [ht.nodes, ← hseed.ids_eq]
    exact (List.of_mem_zip hentry).2
  · intro first hfirst second hsecond hmem
    rw [hadds.nodes] at hfirst hsecond
    have hentry : (second.spec, second.id) ∈ jobs.zip ids := hzip ▸ List.mem_map_of_mem hsecond
    obtain ⟨t, v, t', hbefore, hstep, hbehind⟩ := exists_of_forM hmoves h hentry
    obtain ⟨source, hsource, hedge⟩ := mem_edges_of_afterEdges hstep hmem
    have hin : source ∈ g.nodes := hbefore.nodes ▸ List.mem_of_find?_eq_some hsource
    have hname : source.name = first.name := by
      rw [(hnamed first hfirst).2]
      simpa using List.find?_some hsource
    obtain rfl := List.inj_on_of_nodup_map hnodup hin hfirst hname
    exact hbehind.edges.subset hedge

/-- What a graph goes through when it is built. -/
theorem build_eq_ok {pipeline : Pipeline} {graph : Graph} (h : build pipeline = .ok graph) :
    ∃ g₁ ids g₂ g₃, Structure.findings pipeline = [] ∧
      addGlobals pipeline (initial pipeline) = .ok () g₁ ∧
      pipeline.jobs.mapM (fun job => addNode (Node.ofJob 0 job)) g₁ = .ok ids g₂ ∧
      (pipeline.jobs.zip ids).forM (fun entry => afterEdges entry.1 entry.2) g₂ = .ok () g₃ ∧
      ids.forM findDependencies g₃ = .ok () graph := by
  rw [build] at h
  cases hfindings : Structure.findings pipeline with
  | cons finding findings => simp [hfindings] at h
  | nil =>
    simp only [hfindings] at h
    cases hconstruct : construct pipeline (initial pipeline) with
    | error e g => simp [hconstruct] at h
    | ok u g =>
      obtain rfl : g = graph := by simpa [hconstruct] using h
      obtain ⟨_, g₁, hglobals, h⟩ := bind_eq_ok.mp hconstruct
      obtain ⟨ids, g₂, hnodes, h⟩ := bind_eq_ok.mp h
      obtain ⟨_, g₃, hafter, hdeps⟩ := bind_eq_ok.mp h
      exact ⟨g₁, ids, g₂, g₃, rfl, hglobals, hnodes, hafter, hdeps⟩

/-- The nodes of a pipeline are put into its graph, one for each job. -/
theorem seeded_of_addNodes {pipeline : Pipeline} {scope : ScopeTree} {ids : List NodeId}
    {g : Graph} (h : pipeline.jobs.mapM (fun job => addNode (Node.ofJob 0 job))
      { initial pipeline with scope } = .ok ids g) : Seeded pipeline.jobs ids g := by
  have hempty : ({ initial pipeline with scope } : Graph).WellFormed :=
    ⟨by simp [initial], by simp [initial], by simp [initial, Closed]⟩
  obtain ⟨added, hextends, hall, hids⟩ := @extends_of_mapM _ _ _ _
    (fun job node => node = Node.ofJob node.id job) id (fun job _ t b t' hadd => by
      obtain ⟨hid, hadds⟩ := adds_of_addNode hadd
      exact ⟨_, rfl, rfl, hadds⟩) _ _ _ h
  have hw := hextends.wellFormed hempty
  obtain ⟨-, scope, rfl⟩ := hextends
  exact ⟨by rwa [List.map_id] at hids, hall, rfl, hw⟩

/-- The graph of a pipeline as it is built: a node for each job, in their order, well-formed, and
with the edges that the definitions of the jobs ask for. -/
theorem build_spec {pipeline : Pipeline} {graph : Graph} (h : build pipeline = .ok graph) :
    List.Forall₂ (fun job node => node = Node.ofJob node.id job) pipeline.jobs graph.nodes ∧
      graph.WellFormed ∧ graph.Linked ∧ (pipeline.jobs.map (·.id)).Nodup := by
  obtain ⟨g₁, ids, g₂, g₃, hfindings, hglobals, hnodes, hafter, hdeps⟩ := build_eq_ok h
  have hnames := Structure.nodup_of_findings hfindings
  obtain ⟨tree, rfl⟩ := (moves_addGlobals pipeline).of_ok hglobals
  have hseed := seeded_of_addNodes hnodes
  obtain ⟨hadds, hw, hlinked⟩ := linked_of_afterEdges hseed hnames hafter
  have hmore : AddsEdges g₃ graph := (Moves.forM fun id _ => moves_findDependencies id).of_ok hdeps
  refine ⟨by rw [hmore.nodes, hadds.nodes]; exact hseed.nodes, ?_, ?_, hnames⟩
  · exact forM_keeps (fun id _ _ _ _ ht hstep => wellFormed_findDependencies ht hstep) hw hdeps
  · intro first hfirst second hsecond hmem
    rw [hmore.nodes] at hfirst hsecond
    exact hmore.edges.subset (hlinked first hfirst second hsecond hmem)

/-- The nodes of a pipeline come from its jobs, and none is a repetition. -/
theorem nodes_of_build {pipeline : Pipeline} {built : Graph} (h : build pipeline = .ok built) :
    ∀ node ∈ built.nodes, node.spec ∈ pipeline.jobs ∧ node.name = node.spec.id ∧
      node.overrides = ∅ ∧ ¬ node.isReplica := by
  intro node hn
  obtain ⟨hall, -⟩ := build_spec h
  obtain ⟨job, -, hjob⟩ := exists_of_mem_right hall hn
  obtain ⟨hspec, hname⟩ := (specs_of_ofJob hall).2 node hn
  refine ⟨hspec, hname, ?_, ?_⟩
  · rw [hjob]
    rfl
  · rw [hjob]
    exact Bool.false_ne_true

/-- A node as it is built has what the definition of its job gives it. -/
theorem configured?_of_build {pipeline : Pipeline} {built : Graph} (h : build pipeline = .ok built)
    {node : Node} (hn : node ∈ built.nodes) (key : String) :
    node.configured? key = node.declared? key := by
  rw [Node.configured?, (nodes_of_build h node hn).2.2.1, Settings.get?_empty, Option.none_or,
    Node.declared?]

end Graph

end Pipework
