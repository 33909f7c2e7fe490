import Pipework.Proofs.Replication
import Pipework.Proofs.SubstitutedNodes

/-!
# Graphs after pipelines inside jobs are put in their place

A node with a pipeline of its own gives way to the nodes of the graph that this pipeline was
prepared as. That graph has no circle, because values could be handed on in it. So neither does
the graph as a whole get one, and what was connected without a detour stays connected.
-/

namespace Pipework.Graph

open Step

/-- An edge leads somewhere in two lists of edges if it does so in one of them. -/
theorem leads_append {edges more : List Edge} {u v : NodeId} :
    Leads (edges ++ more) u v ↔ Leads edges u v ∨ Leads more u v := by
  simp only [Leads, List.mem_append, or_and_right, exists_or]

/-- Without the edges of a node, edges lead from other nodes to other nodes. -/
theorem leads_removed {edges : List Edge} {id u v : NodeId} :
    Leads (edges.filter (!·.touches id)) u v ↔ Leads edges u v ∧ u ≠ id ∧ v ≠ id := by
  constructor
  · rintro ⟨edge, he, rfl, rfl⟩
    obtain ⟨he, hfree⟩ := List.mem_filter.mp he
    exact ⟨leads_of_mem he, by simpa [Edge.touches] using hfree⟩
  · rintro ⟨⟨edge, he, rfl, rfl⟩, hs, ht⟩
    exact leads_of_mem (List.mem_filter.mpr ⟨he, by simp [Edge.touches, hs, ht]⟩)

/-- Edges for the order that are made for pairs lead just where the pairs do. -/
theorem leads_afterPairs {pairs : List (NodeId × NodeId)} {u v : NodeId} :
    Leads (pairs.eraseDups.map fun pair => .after pair.1 pair.2) u v ↔ (u, v) ∈ pairs := by
  constructor
  · rintro ⟨edge, he, rfl, rfl⟩
    obtain ⟨pair, hpair, rfl⟩ := List.mem_map.mp he
    exact List.mem_eraseDups.mp hpair
  · intro h
    exact ⟨_, List.mem_map_of_mem (List.mem_eraseDups.mpr h), rfl, rfl⟩

/-- Nodes are connected if one led to the job or it led to one, and the other is at the right end
of those in its place. -/
theorem mem_neighbourPairs {graph : Graph} {id u v : NodeId} {inner : List NodeId}
    {edges : List Edge} :
    (u, v) ∈ graph.neighbourPairs id inner edges ↔
      (Leads graph.edges u id ∧ v ∈ inner ∧ ∀ w, ¬ Leads edges w v) ∨
        (Leads graph.edges id v ∧ u ∈ inner ∧ ∀ w, ¬ Leads edges u w) := by
  have hbefore : ∀ w, w ∈ (graph.edges.filter (·.target == id)).map (·.source) ↔
      Leads graph.edges w id := by
    intro w
    simp only [List.mem_map, List.mem_filter, beq_iff_eq, Leads, and_assoc, and_comm]
  have hbehind : ∀ w, w ∈ (graph.edges.filter (·.source == id)).map (·.target) ↔
      Leads graph.edges id w := by
    intro w
    simp only [List.mem_map, List.mem_filter, beq_iff_eq, Leads, and_assoc]
  have hentry : ∀ w, (edges.all (·.target != w)) = true ↔ ∀ x, ¬ Leads edges x w := by
    intro w
    simp only [List.all_eq_true, bne_iff_ne]
    exact ⟨fun h x ⟨edge, he, _, ht⟩ => h edge he ht,
      fun h edge he ht => h edge.source (ht ▸ leads_of_mem he)⟩
  have hexit : ∀ w, (edges.all (·.source != w)) = true ↔ ∀ x, ¬ Leads edges w x := by
    intro w
    simp only [List.all_eq_true, bne_iff_ne]
    exact ⟨fun h x ⟨edge, he, hs, _⟩ => h edge he hs,
      fun h edge he hs => h edge.target (hs ▸ leads_of_mem he)⟩
  simp only [neighbourPairs, List.mem_append, List.mem_flatMap, hbefore, hbehind]
  simp only [List.mem_map, List.mem_filter, hentry, hexit, Prod.mk.injEq]
  grind

/-- An edge as it is between the nodes that take the place of those it was between. -/
structure Transferred (handles : List (NodeId × NodeId)) (old edge : Edge) : Prop where
  /-- It starts where the old one started. -/
  source : handles.lookup old.source = some edge.source
  /-- It ends where the old one ended. -/
  target : handles.lookup old.target = some edge.target
  /-- It hands on the same. -/
  kind : edge.kind = old.kind

/-- Each edge that is taken over joins the nodes that the nodes it joined have become. -/
theorem forall₂_of_adoptEdges {handles : List (NodeId × NodeId)} {edges between : List Edge}
    {g g' : Graph} (h : edges.mapM (adoptEdge handles) g = .ok between g') :
    List.Forall₂ (Transferred handles) edges between := by
  have hmoves : ∀ edge ∈ edges, Moves SameButMemo (adoptEdge handles edge) := fun _ _ =>
    (moves_ofOption _).bind fun _ => (moves_ofOption _).bind fun _ => .pure _
  refine (forall₂_of_mapM hmoves h).imp fun old edge hmade => ?_
  obtain ⟨t, t', -, hstep⟩ := hmade
  obtain ⟨source, _, hat, hstep⟩ := bind_eq_ok.mp hstep
  obtain ⟨hsource, rfl⟩ := ofOption_eq_ok.mp hat
  obtain ⟨target, _, hat, hstep⟩ := bind_eq_ok.mp hstep
  obtain ⟨htarget, rfl⟩ := ofOption_eq_ok.mp hat
  obtain ⟨rfl, -⟩ := pure_eq_ok.mp hstep
  exact ⟨hsource, htarget, rfl⟩

/-- What is found under a handle stands in the list. -/
theorem mem_of_lookup {handles : List (NodeId × NodeId)} {a b : NodeId}
    (h : handles.lookup a = some b) : (a, b) ∈ handles := by
  obtain ⟨before, behind, rfl, -⟩ := List.lookup_eq_some_iff.mp h
  simp

/-- The edges between nodes that take the place of others lead as those between the others do. -/
theorem leads_of_adoptEdge {handles : List (NodeId × NodeId)} {edges between : List Edge}
    {g g' : Graph} (h : edges.mapM (adoptEdge handles) g = .ok between g') {u v : NodeId}
    (hl : Leads between u v) : ∃ a b, (a, u) ∈ handles ∧ (b, v) ∈ handles ∧ Leads edges a b := by
  obtain ⟨edge, he, rfl, rfl⟩ := hl
  obtain ⟨old, hold, hsource, htarget, -⟩ := exists_of_mem_right (forall₂_of_adoptEdges h) he
  exact ⟨old.source, old.target, mem_of_lookup hsource, mem_of_lookup htarget, leads_of_mem hold⟩

/-- No circle comes about when edges are taken over under different handles. -/
theorem acyclic_of_adoptEdge {handles : List (NodeId × NodeId)} {edges between : List Edge}
    {g g' : Graph} (h : edges.mapM (adoptEdge handles) g = .ok between g')
    (hnodup : (handles.map (·.2)).Nodup) (ha : Acyclic edges) : Acyclic between := by
  have hunique : ∀ {a b u : NodeId}, (a, u) ∈ handles → (b, u) ∈ handles → a = b := by
    intro a b u ha hb
    exact congrArg Prod.fst (List.inj_on_of_nodup_map hnodup ha hb rfl)
  have hpath : ∀ u v, Reaches between u v →
      ∃ a b, (a, u) ∈ handles ∧ (b, v) ∈ handles ∧ Reaches edges a b := by
    intro u v hr
    induction hr with
    | single hl =>
      obtain ⟨a, b, ha, hb, hl⟩ := leads_of_adoptEdge h hl
      exact ⟨a, b, ha, hb, .single hl⟩
    | tail _ hl ih =>
      obtain ⟨a, b, ha, hb, hr⟩ := ih
      obtain ⟨b', c, hb', hc, hl⟩ := leads_of_adoptEdge h hl
      obtain rfl := hunique hb hb'
      exact ⟨a, c, ha, hc, hr.tail hl⟩
  intro v hr
  obtain ⟨a, b, hav, hbv, hr⟩ := hpath v v hr
  obtain rfl := hunique hav hbv
  exact ha a hr

/-- Graphs prepared in this way have handles that fit together and no circle. -/
def PreparesAcyclic (prepare : GraphM Unit) : Prop :=
  ∀ (pipeline : Pipeline) (graph graph' : Graph) (u : Unit), build pipeline = .ok graph →
    prepare graph = .ok u graph' → graph'.WellFormed ∧ Acyclic graph'.edges

/-- A node has given way to fresh ones. -/
structure GivesWay (id : NodeId) (fresh : List NodeId) (g g' : Graph) : Prop where
  /-- The fresh handles are the ones that were still to be given out. -/
  fresh_eq : fresh = List.range' g.nextId fresh.length
  /-- The other nodes stay, and behind them stand those with fresh handles. -/
  nodes : ∃ added : List Node, added.map (·.id) = fresh ∧
    g'.nodes = g.nodes.filter (·.id ≠ id) ++ added
  /-- Handles fit together. -/
  wellFormed : g'.WellFormed
  /-- Edges lead as they do when a node gives way to others without a circle among them. -/
  edges : ∃ between, Acyclic between ∧ Closed fresh between ∧
    Substituted id fresh between g.edges g'.edges

/-- The pipeline inside a job is prepared as a graph of its own, and the graph around it stays. -/
theorem prepareInner_eq_ok {prepare : GraphM Unit} {pipeline : Pipeline} {inner g g' : Graph} :
    prepareInner prepare pipeline g = .ok inner g' ↔
      g = g' ∧ ∃ built u, build pipeline = .ok built ∧ prepare built = .ok u inner := by
  rw [prepareInner]
  cases build pipeline with
  | error e => exact iff_of_false throw_ne_ok (by simp)
  | ok built =>
    dsimp only
    cases hprepare : prepare built with
    | error e t => exact iff_of_false throw_ne_ok (by simp [hprepare])
    | ok u t =>
      refine pure_eq_ok.trans ?_
      simp [hprepare, and_comm]

/-- The pipeline inside a job is not prepared since its graph is not built, or since that graph is not
prepared. The graph around it stays as it is. -/
theorem prepareInner_eq_error {prepare : GraphM Unit} {pipeline : Pipeline} {g g' : Graph}
    {e : GraphError} : prepareInner prepare pipeline g = .error e g' ↔
      g = g' ∧ (build pipeline = .error e ∨
        ∃ built left, build pipeline = .ok built ∧ prepare built = .error e left) := by
  rw [prepareInner]
  cases build pipeline with
  | error cause => exact throw_eq_error.trans (by simp [and_comm])
  | ok built =>
    dsimp only
    cases hprepare : prepare built with
    | error cause left => exact throw_eq_error.trans (by simp [hprepare, and_comm])
    | ok u inner => exact iff_of_false nofun (by simp [hprepare])

/-- The node was added for one of the pipeline inside a job of this name. -/
structure AdoptedFor (owner : String) (old node : Node) : Prop where
  /-- It is called after both. -/
  name : node.name = owner ++ "_" ++ old.name
  /-- It is the same job. -/
  spec : node.spec = old.spec
  /-- It is a repetition if the other is one. -/
  isReplica : node.isReplica = old.isReplica
  /-- It has what values were resolved to for its own. -/
  overrides : node.overrides = old.resolved?.getD old.overrides

/-- Nodes are taken over one by one, under new handles. -/
theorem extends_of_adoptNodes {owner : String} {nodes : List Node} {g g' : Graph}
    {handles : List (NodeId × NodeId)} (h : nodes.mapM (adoptNode owner) g = .ok handles g') :
    ∃ added, Extends added g g' ∧ List.Forall₂ (AdoptedFor owner) nodes added ∧
      handles.map (·.2) = added.map (·.id) :=
  extends_of_mapM (·.2) (fun node _ t handle t' hstep => by
    obtain ⟨id, _, hadd, hstep⟩ := bind_eq_ok.mp hstep
    obtain ⟨rfl, rfl⟩ := pure_eq_ok.mp hstep
    refine ⟨_, ?_, ?_, (adds_of_addNode hadd).2⟩
    · exact ⟨rfl, rfl, rfl, rfl⟩
    · rfl) h

/-- The handles that nodes had stand in front of those that they are given. -/
theorem handles_of_adoptNodes {owner : String} {nodes : List Node} {g g' : Graph}
    {handles : List (NodeId × NodeId)} (h : nodes.mapM (adoptNode owner) g = .ok handles g') :
    handles.map (·.1) = nodes.map (·.id) := by
  induction nodes generalizing g g' handles with
  | nil =>
    obtain ⟨rfl, -⟩ := pure_eq_ok.mp h
    rfl
  | cons node nodes ih =>
    rw [List.mapM_cons] at h
    obtain ⟨handle, t, hstep, h⟩ := bind_eq_ok.mp h
    obtain ⟨rest, t', hrest, h⟩ := bind_eq_ok.mp h
    obtain ⟨rfl, -⟩ := pure_eq_ok.mp h
    obtain ⟨id, _, -, hstep⟩ := bind_eq_ok.mp hstep
    obtain ⟨rfl, -⟩ := pure_eq_ok.mp hstep
    rw [List.map_cons, List.map_cons, ih hrest]

/-- Each node is given a handle. -/
theorem exists_handle {R : Node → Node → Prop} {handles : List (NodeId × NodeId)}
    {nodes added : List Node} (h : List.Forall₂ R nodes added)
    (hfirst : handles.map (·.1) = nodes.map (·.id)) (hsecond : handles.map (·.2) = added.map (·.id))
    {old : Node} (hold : old ∈ nodes) : ∃ node ∈ added, R old node ∧ (old.id, node.id) ∈ handles := by
  induction h generalizing handles with
  | nil => cases hold
  | @cons first node nodes added hr _ ih =>
    cases handles with
    | nil => cases hfirst
    | cons handle handles =>
      obtain ⟨heq, hfirst⟩ := List.cons.inj hfirst
      obtain ⟨heq', hsecond⟩ := List.cons.inj hsecond
      rcases List.mem_cons.mp hold with rfl | hold
      · have hhandle : (old.id, node.id) = handle := Prod.ext heq.symm heq'.symm
        exact ⟨node, List.mem_cons_self, hr, hhandle ▸ List.mem_cons_self⟩
      · obtain ⟨other, ho, hother, hmem⟩ := ih hfirst hsecond hold
        exact ⟨other, List.mem_cons_of_mem _ ho, hother, List.mem_cons_of_mem _ hmem⟩

/-- Taking over edges only reads. -/
theorem moves_adoptEdges (handles : List (NodeId × NodeId)) (edges : List Edge) :
    Moves SameButMemo (edges.mapM (adoptEdge handles)) :=
  .mapM fun _ _ => (moves_ofOption _).bind fun _ => (moves_ofOption _).bind fun _ => .pure _

/-- What replacing a node by the nodes of the pipeline inside it comes to. -/
inductive Expands (prepare : GraphM Unit) (id : NodeId) (g : Graph) : Graph → Prop
  | plain {owner : Node} (hn : g.node? id = some owner) (hnested : owner.spec.nested? = none) :
      Expands prepare id g g
  | replaced {owner : Node} {nested : Pipeline} {settings : Settings} {built inner t t' more : Graph}
      {handles : List (NodeId × NodeId)} {between : List Edge} (hn : g.node? id = some owner)
      (hnested : owner.spec.nested? = some nested)
      (hsettings : configuration owner.name g = .ok settings t)
      (hbuild : build { nested with configuration := nested.configuration.overlay settings } =
        .ok built)
      (hprepare : prepare built = .ok () inner)
      (hadopt : inner.nodes.mapM (adoptNode owner.name) t = .ok handles t')
      (hbetween : inner.edges.mapM (adoptEdge handles) t' = .ok between more) :
      Expands prepare id g ((more.removeNode id).addEdges (between ++
        (more.neighbourPairs id (handles.map (·.2)) between).eraseDups.map
          fun pair => .after pair.1 pair.2))

/-- What putting the pipeline inside a node in its place comes to. -/
theorem expands_of_expandNode {prepare : GraphM Unit} {id : NodeId} {g g' : Graph} {u : Unit}
    (h : expandNode prepare id g = .ok u g') : Expands prepare id g g' := by
  obtain ⟨owner, _, hat, h⟩ := bind_eq_ok.mp h
  obtain ⟨hn, rfl⟩ := nodeAt_eq_ok.mp hat
  cases hnested : owner.spec.nested? with
  | none =>
    simp only [hnested] at h
    obtain ⟨-, rfl⟩ := pure_eq_ok.mp h
    exact .plain hn hnested
  | some nested =>
    simp only [hnested] at h
    obtain ⟨settings, t, hsettings, h⟩ := bind_eq_ok.mp h
    obtain ⟨inner, _, hinner, h⟩ := bind_eq_ok.mp h
    obtain ⟨rfl, built, v, hbuilt, hprepared⟩ := prepareInner_eq_ok.mp hinner
    obtain ⟨handles, t', hhandles, h⟩ := bind_eq_ok.mp h
    obtain ⟨between, more, hbetween, h⟩ := bind_eq_ok.mp h
    obtain ⟨_, _, hget, h⟩ := bind_eq_ok.mp h
    obtain ⟨rfl, rfl⟩ := get_eq_ok.mp hget
    obtain rfl := modify_eq_ok.mp h
    exact .replaced hn hnested hsettings hbuilt hprepared hhandles hbetween

/-- A prepared graph was taken over: its nodes stand behind the others under fresh handles, and its
edges were moved to them but are still to be put in. -/
structure TakesOver (inner : Graph) (added : List Node) (between : List Edge) (g more : Graph) :
    Prop where
  /-- The nodes stand behind the others. -/
  nodes : more.nodes = g.nodes ++ added
  /-- They have the handles that were still to be given out. -/
  fresh : added.map (·.id) = List.range' g.nextId added.length
  /-- These handles are used up. -/
  nextId : more.nextId = g.nextId + added.length
  /-- There are no edges yet. -/
  edges : more.edges = g.edges
  /-- Handles go on to fit together. -/
  wellFormed : g.WellFormed → more.WellFormed
  /-- The edges that were moved make no circle if those before did not. -/
  acyclic : Acyclic inner.edges → Acyclic between
  /-- They join nodes that were added. -/
  closed : Closed (added.map (·.id)) between

/-- A node with a pipeline of its own is replaced by taking over the prepared graph of that pipeline
and joining it to what the node was joined to. -/
theorem takesOver_of_expandNode {prepare : GraphM Unit} {id : NodeId} {g g' : Graph} {u : Unit}
    (hn : ∃ node, g.node? id = some node ∧ node.spec.nested?.isSome)
    (h : expandNode prepare id g = .ok u g') : ∃ pipeline built inner v added between more,
    build pipeline = .ok built ∧ prepare built = .ok v inner ∧
      TakesOver inner added between g more ∧
      g' = (more.removeNode id).addEdges (between ++
        (more.neighbourPairs id (added.map (·.id)) between).eraseDups.map
          fun pair => .after pair.1 pair.2) := by
  obtain ⟨node, hnode, hsome⟩ := hn
  cases expands_of_expandNode h with
  | plain hsame hnone =>
    obtain rfl := Option.some.inj (hnode.symm.trans hsame)
    rw [hnone] at hsome
    cases hsome
  | @replaced _ _ _ built inner t t' more handles between _ _ hsettings hbuilt hprepared hadopt
    hbetween =>
    have hsame : SameButMemo g t := (moves_configuration _).of_ok hsettings
    have hsame' : SameButMemo t' more := (moves_adoptEdges _ _).of_ok hbetween
    obtain ⟨added, hextends, -, hids⟩ := extends_of_adoptNodes hadopt
    have hwell : g.WellFormed → more.WellFormed := fun hw => hsame'.sameOutline.wellFormed
      (hextends.wellFormed (hsame.sameOutline.wellFormed hw))
    refine ⟨_, built, inner, (), added, between, more, hbuilt, hprepared, ?_, by rw [hids]⟩
    obtain ⟨memo, -, rfl⟩ := hsame
    obtain ⟨hfresh, scope, rfl⟩ := hextends
    obtain ⟨memo', -, rfl⟩ := hsame'
    refine ⟨rfl, hfresh, rfl, rfl, hwell, fun ha => ?_, fun edge he => ?_⟩
    · refine acyclic_of_adoptEdge hbetween ?_ ha
      rw [hids, hfresh]
      exact List.nodup_range'
    · obtain ⟨a, b, hs, ht, -⟩ := leads_of_adoptEdge hbetween (leads_of_mem he)
      rw [← hids]
      exact ⟨List.mem_map_of_mem hs, List.mem_map_of_mem ht⟩

/-- What happens when a node with a pipeline of its own is replaced. -/
theorem givesWay_of_expandNode {prepare : GraphM Unit} {id : NodeId} {g g' : Graph} {u : Unit}
    (hprepare : PreparesAcyclic prepare) (hw : g.WellFormed) (ha : Acyclic g.edges)
    (hn : ∃ node, g.node? id = some node ∧ node.spec.nested?.isSome)
    (h : expandNode prepare id g = .ok u g') :
    GivesWay id (List.range' g.nextId (g'.nextId - g.nextId)) g g' := by
  obtain ⟨_, built, inner, v, added, between, more, hbuilt, hprepared, hover, rfl⟩ :=
    takesOver_of_expandNode hn h
  obtain ⟨-, hai⟩ := hprepare _ _ _ _ hbuilt hprepared
  have hlt : id < g.nextId := by
    obtain ⟨node, hnode, -⟩ := hn
    obtain ⟨hin, rfl⟩ := id_of_node? hnode
    exact hw.below _ (List.mem_map_of_mem hin)
  have hnew : ∀ v, v ∈ added.map (·.id) → v ≠ id := by
    intro v hv
    rw [hover.fresh] at hv
    exact (hlt.trans_le (List.mem_range'_1.mp hv).1).ne'
  have hloop : ∀ u v, Leads g.edges u v → u ≠ v := fun u v hl heq => ha u (.single (heq ▸ hl))
  have hcount : more.nextId - g.nextId = added.length := by
    rw [hover.nextId]
    exact Nat.add_sub_cancel_left _ _
  simp only [addEdges, removeNode, hcount]
  rw [← hover.fresh]
  refine ⟨by rw [List.length_map, hover.fresh], ⟨added, rfl, ?_⟩, ?_, between,
    hover.acyclic hai, hover.closed, ?_⟩
  · have hkept : added.filter (·.id ≠ id) = added := List.filter_eq_self.mpr fun node hn => by
      simpa using hnew node.id (List.mem_map_of_mem hn)
    rw [hover.nodes, List.filter_append, hkept]
  · refine (hover.wellFormed hw).replaceEdges fun edge he => ?_
    have hends : ∀ v, (v ∈ g.nodes.map (·.id) ∧ v ≠ id) ∨ v ∈ added.map (·.id) →
        v ∈ more.nodes.map (·.id) ∧ v ≠ id := by
      intro v hv
      rw [hover.nodes, List.map_append, List.mem_append]
      exact ⟨hv.imp_left And.left, hv.elim And.right (hnew v)⟩
    rcases List.mem_append.mp he with he | he
    · exact ⟨hends _ (.inr (hover.closed edge he).1), hends _ (.inr (hover.closed edge he).2)⟩
    · have hpair := leads_afterPairs.mp (leads_of_mem he)
      rw [mem_neighbourPairs, hover.edges] at hpair
      rcases hpair with ⟨hl, hv, -⟩ | ⟨hl, hv, -⟩
      · have hold := (hl.mem_closed hw.closed).1
        exact ⟨hends _ (.inl ⟨hold, hloop _ _ hl⟩), hends _ (.inr hv)⟩
      · have hold := (hl.mem_closed hw.closed).2
        exact ⟨hends _ (.inr hv), hends _ (.inl ⟨hold, (hloop _ _ hl).symm⟩)⟩
  · intro u v
    rw [leads_append, leads_append, leads_removed, leads_afterPairs, mem_neighbourPairs,
      hover.edges]
    have hbefore : Leads g.edges u id → u ≠ id := hloop u id
    have hbehind : Leads g.edges id v → v ≠ id := fun hl => (hloop id v hl).symm
    grind

/-- For nodes that are replaced one after another, given by their handles, the nodes that take the
place of each. -/
def expansions (prepare : GraphM Unit) : List NodeId → Graph → List (NodeId × List NodeId)
  | [], _ => []
  | id :: ids, graph =>
    match expandNode prepare id graph with
    | .ok _ graph' =>
      (id, (graph'.nodes.map (·.id)).filter (graph.nextId ≤ ·)) :: expansions prepare ids graph'
    | .error _ _ => []

/-- The nodes that stand in the place of a node: the node itself unless it was replaced. -/
def standIns (table : List (NodeId × List NodeId)) (id : NodeId) : List NodeId :=
  (table.lookup id).getD [id]

/-- A node without a pipeline inside stands for itself. -/
theorem standIns_expansions_of_not_mem {prepare : GraphM Unit} {ids : List NodeId} {g : Graph}
    {id : NodeId} (h : id ∉ ids) : standIns (expansions prepare ids g) id = [id] := by
  have hnone : (expansions prepare ids g).lookup id = none := by
    induction ids generalizing g with
    | nil => rfl
    | cons first ids ih =>
      rw [List.mem_cons, not_or] at h
      obtain ⟨hne, hrest⟩ := h
      rw [expansions]
      cases expandNode prepare first g with
      | error e t => rfl
      | ok u t => simp only [List.lookup_cons, beq_false_of_ne hne, ih hrest]
  rw [standIns, hnone, Option.getD_none]

/-- The handles afterwards are those of the other nodes and the new ones. -/
theorem GivesWay.ids {id : NodeId} {fresh : List NodeId} {g g' : Graph}
    (h : GivesWay id fresh g g') {v : NodeId} :
    v ∈ g'.nodes.map (·.id) ↔ (v ∈ g.nodes.map (·.id) ∧ v ≠ id) ∨ v ∈ fresh := by
  obtain ⟨added, rfl, hnodes⟩ := h.nodes
  rw [hnodes, List.map_append, List.mem_append]
  refine or_congr_left ?_
  simp only [List.mem_map, List.mem_filter, decide_eq_true_eq]
  constructor
  · rintro ⟨node, ⟨hn, hne⟩, rfl⟩
    exact ⟨⟨node, hn, rfl⟩, hne⟩
  · rintro ⟨⟨node, hn, rfl⟩, hne⟩
    exact ⟨node, ⟨hn, hne⟩, rfl⟩

/-- The nodes that a node gives way to have new handles. -/
theorem GivesWay.nextId_le {id : NodeId} {fresh : List NodeId} {g g' : Graph}
    (h : GivesWay id fresh g g') {v : NodeId} (hv : v ∈ fresh) : g.nextId ≤ v := by
  rw [h.fresh_eq] at hv
  exact (List.mem_range'_1.mp hv).1

/-- No edge touched a handle that a fresh node has got. -/
theorem GivesWay.not_fresh {id : NodeId} {fresh : List NodeId} {g g' : Graph}
    (h : GivesWay id fresh g g') (hw : g.WellFormed) {u v : NodeId} (hl : Leads g.edges u v) :
    u ∉ fresh ∧ v ∉ fresh := by
  obtain ⟨edge, he, rfl, rfl⟩ := hl
  have hlt := hw.lt_nextId he
  exact ⟨fun hm => (h.nextId_le hm).not_gt hlt.1, fun hm => (h.nextId_le hm).not_gt hlt.2⟩

/-- No circle comes about when a node gives way. -/
theorem GivesWay.acyclic {id : NodeId} {fresh : List NodeId} {g g' : Graph}
    (h : GivesWay id fresh g g') (hw : g.WellFormed) (ha : Acyclic g.edges) :
    Acyclic g'.edges := by
  obtain ⟨between, hb, hc, hs⟩ := h.edges
  exact hs.acyclic ha hb hc fun _ _ => h.not_fresh hw

/-- The fresh handles are those of the nodes that were added. -/
theorem GivesWay.filter_ids {id : NodeId} {fresh : List NodeId} {g g' : Graph}
    (h : GivesWay id fresh g g') (hw : g.WellFormed) :
    (g'.nodes.map (·.id)).filter (g.nextId ≤ ·) = fresh := by
  obtain ⟨added, hadded, hnodes⟩ := h.nodes
  rw [hnodes, List.map_append, List.filter_append, hadded]
  have hold : ((g.nodes.filter (·.id ≠ id)).map (·.id)).filter (g.nextId ≤ ·) = [] := by
    refine List.filter_eq_nil_iff.mpr fun v hv => ?_
    obtain ⟨node, hn, rfl⟩ := List.mem_map.mp hv
    have hlt := hw.below _ (List.mem_map_of_mem (List.mem_of_mem_filter hn))
    simpa using hlt
  have hnew : fresh.filter (g.nextId ≤ ·) = fresh :=
    List.filter_eq_self.mpr fun v hv => by simpa using h.nextId_le hv
  rw [hold, hnew, List.nil_append]

/-- What is kept while nodes with these handles wait to be replaced. -/
structure Awaits (ids : List NodeId) (graph : Graph) : Prop where
  /-- Handles fit together. -/
  wellFormed : graph.WellFormed
  /-- There is no circle. -/
  acyclic : Acyclic graph.edges
  /-- The nodes that wait have pipelines of their own. -/
  nested : ∀ id ∈ ids, ∃ node ∈ graph.nodes, node.id = id ∧ node.spec.nested?.isSome
  /-- They are different ones. -/
  nodup : ids.Nodup

theorem Awaits.step {prepare : GraphM Unit} {id : NodeId} {ids : List NodeId} {g g' : Graph}
    {u : Unit} (ha : Awaits (id :: ids) g) (hprepare : PreparesAcyclic prepare)
    (h : expandNode prepare id g = .ok u g') :
    ∃ fresh, GivesWay id fresh g g' ∧ Awaits ids g' ∧ (∀ v ∈ fresh, v ∉ ids) ∧
      expansions prepare (id :: ids) g = (id, fresh) :: expansions prepare ids g' := by
  obtain ⟨hfirst, hnodup⟩ := List.nodup_cons.mp ha.nodup
  obtain ⟨node, hn, rfl, hnested⟩ := ha.nested id (by simp)
  have hgives := givesWay_of_expandNode hprepare ha.wellFormed ha.acyclic
    ⟨node, ha.wellFormed.node?_eq_some.mpr hn, hnested⟩ h
  refine ⟨_, hgives, ⟨hgives.wellFormed, hgives.acyclic ha.wellFormed ha.acyclic,
    fun other ho => ?_, hnodup⟩, fun v hv hm => ?_, ?_⟩
  · obtain ⟨waiting, hwaiting, rfl, hw⟩ := ha.nested other (List.mem_cons_of_mem _ ho)
    obtain ⟨added, -, hnodes⟩ := hgives.nodes
    refine ⟨waiting, ?_, rfl, hw⟩
    rw [hnodes]
    refine List.mem_append_left _ (List.mem_filter.mpr ⟨hwaiting, ?_⟩)
    have hne : waiting.id ≠ node.id := fun heq => hfirst (heq ▸ ho)
    simpa using hne
  · obtain ⟨waiting, hwaiting, rfl, -⟩ := ha.nested v (List.mem_cons_of_mem _ hm)
    exact (hgives.nextId_le hv).not_gt (ha.wellFormed.below _ (List.mem_map_of_mem hwaiting))
  · rw [expansions, h]
    simp only [hgives.filter_ids ha.wellFormed]

/-- When the first ones have been replaced, the others still wait. -/
theorem Awaits.forM {prepare : GraphM Unit} {first rest : List NodeId} {g g' : Graph} {u : Unit}
    (ha : Awaits (first ++ rest) g) (hprepare : PreparesAcyclic prepare)
    (h : first.forM (expandNode prepare) g = .ok u g') : Awaits rest g' := by
  induction first generalizing g with
  | nil =>
    obtain ⟨-, rfl⟩ := pure_eq_ok.mp h
    exact ha
  | cons id first ih =>
    obtain ⟨_, t, hstep, h⟩ := bind_eq_ok.mp h
    obtain ⟨_, -, hawaits, -⟩ := ha.step hprepare hstep
    exact ih hawaits h

section Step

variable {prepare : GraphM Unit} {id : NodeId} {ids fresh : List NodeId} {g t : Graph}
  (ha : Awaits (id :: ids) g) (hgives : GivesWay id fresh g t)
  (htable : expansions prepare (id :: ids) g = (id, fresh) :: expansions prepare ids t)
  (hnew : ∀ v ∈ fresh, v ∉ ids)

include ha hgives in
/-- When the first node has been replaced, the nodes are the heirs of those before. -/
theorem mem_heirs_iff {v : NodeId} : v ∈ t.nodes.map (·.id) ↔
    ∃ u ∈ g.nodes.map (·.id), v ∈ heirs id fresh u := by
  rw [hgives.ids]
  constructor
  · rintro (⟨hv, hne⟩ | hv)
    · exact ⟨v, hv, by rw [heirs_of_ne hne]; exact List.mem_singleton_self v⟩
    · obtain ⟨node, hn, rfl, -⟩ := ha.nested id List.mem_cons_self
      exact ⟨node.id, List.mem_map_of_mem hn, by rwa [heirs_self]⟩
  · rintro ⟨u, hu, hv⟩
    by_cases heq : u = id
    · rw [heq, heirs_self] at hv
      exact .inr hv
    · rw [heirs_of_ne heq, List.mem_singleton] at hv
      exact .inl (hv ▸ ⟨hu, heq⟩)

include htable hnew in
/-- What stands in the place of a node in the end stands there for one of its heirs. -/
theorem mem_standIns_iff {u v : NodeId} : v ∈ standIns (expansions prepare (id :: ids) g) u ↔
    ∃ w ∈ heirs id fresh u, v ∈ standIns (expansions prepare ids t) w := by
  by_cases heq : u = id
  · rw [heq, heirs_self, htable, standIns, List.lookup_cons_self, Option.getD_some]
    refine ⟨fun hv => ⟨v, hv, ?_⟩, fun ⟨w, hw, hv⟩ => ?_⟩
    · rw [standIns_expansions_of_not_mem (hnew v hv)]
      exact List.mem_singleton_self v
    · rw [standIns_expansions_of_not_mem (hnew w hw), List.mem_singleton] at hv
      exact hv ▸ hw
  · rw [heirs_of_ne heq, htable, standIns, List.lookup_cons, beq_false_of_ne heq]
    exact ⟨fun hv => ⟨u, List.mem_singleton_self u, hv⟩, fun ⟨w, hw, hv⟩ => List.mem_singleton.mp hw ▸ hv⟩

include ha hgives hnew in
/-- A passage between two nodes becomes passages between their heirs. -/
theorem passage_of_heirs {u v : NodeId} (hu : u ∈ g.nodes.map (·.id)) (hv : v ∈ g.nodes.map (·.id))
    (hne : u ≠ v) (hp : Passage (id :: ids) g.edges u v) {m n : NodeId} (hm : m ∈ heirs id fresh u)
    (hn : n ∈ heirs id fresh v) : m ≠ n ∧ Passage ids t.edges m n := by
  obtain ⟨between, hb, hc, hs⟩ := hgives.edges
  have hwaits : id ∈ id :: ids := List.mem_cons_self
  have hrest : ids ⊆ id :: ids := List.subset_cons_self id ids
  have hold : ∀ v ∈ g.nodes.map (·.id), v ∉ fresh := fun v hv hm =>
    (hgives.nextId_le hm).not_gt (ha.wellFormed.below v hv)
  by_cases hui : u = id
  · subst hui
    have hvi : v ≠ u := Ne.symm hne
    rw [heirs_self] at hm
    rw [heirs_of_ne hvi, List.mem_singleton] at hn
    subst hn
    exact ⟨fun heq => hold n hv (heq ▸ hm), hp.outOf hs hwaits hrest hb hc hnew hvi hm⟩
  · rw [heirs_of_ne hui, List.mem_singleton] at hm
    subst hm
    by_cases hvi : v = id
    · subst hvi
      rw [heirs_self] at hn
      exact ⟨fun heq => hold m hu (heq ▸ hn), hp.into hs hwaits hrest hb hc hnew hui hn⟩
    · rw [heirs_of_ne hvi, List.mem_singleton] at hn
      subst hn
      exact ⟨hne, hp.substituted hs hwaits hrest hui hvi⟩

end Step

/-- The result of replacing nodes one after another. The nodes are those that stand in the place of
the ones before, and those in the place of connected nodes come one after the other. -/
theorem expanded_of_forM {prepare : GraphM Unit} {ids : List NodeId} {g g' : Graph} {x : Unit}
    (hprepare : PreparesAcyclic prepare) (ha : Awaits ids g)
    (h : ids.forM (expandNode prepare) g = .ok x g') :
    Awaits [] g' ∧
      (∀ v, v ∈ g'.nodes.map (·.id) ↔
        ∃ u ∈ g.nodes.map (·.id), v ∈ standIns (expansions prepare ids g) u) ∧
      ∀ u ∈ g.nodes.map (·.id), ∀ v ∈ g.nodes.map (·.id), u ≠ v → Passage ids g.edges u v →
        ∀ m ∈ standIns (expansions prepare ids g) u, ∀ n ∈ standIns (expansions prepare ids g) v,
          Reaches g'.edges m n := by
  induction ids generalizing g with
  | nil =>
    obtain ⟨-, rfl⟩ := pure_eq_ok.mp h
    refine ⟨ha, fun v => by simp [expansions, standIns], fun u _ v _ _ hp m hm n hn => ?_⟩
    obtain rfl : m = u := by simpa [expansions, standIns] using hm
    obtain rfl : n = v := by simpa [expansions, standIns] using hn
    exact hp.reaches
  | cons id ids ih =>
    obtain ⟨y, t, hstep, h⟩ := bind_eq_ok.mp h
    obtain ⟨fresh, hgives, hawaits, hnew, htable⟩ := ha.step hprepare hstep
    obtain ⟨hend, hids, hpaths⟩ := ih hawaits h
    refine ⟨hend, fun v => ?_, fun u hu v hv hne hp m hm n hn => ?_⟩
    · rw [hids]
      constructor
      · rintro ⟨w, hw, hvw⟩
        obtain ⟨u, hu, hwu⟩ := (mem_heirs_iff ha hgives).mp hw
        exact ⟨u, hu, (mem_standIns_iff htable hnew).mpr ⟨w, hwu, hvw⟩⟩
      · rintro ⟨u, hu, hvu⟩
        obtain ⟨w, hwu, hvw⟩ := (mem_standIns_iff htable hnew).mp hvu
        exact ⟨w, (mem_heirs_iff ha hgives).mpr ⟨u, hu, hwu⟩, hvw⟩
    · obtain ⟨a, hau, hma⟩ := (mem_standIns_iff htable hnew).mp hm
      obtain ⟨b, hbv, hnb⟩ := (mem_standIns_iff htable hnew).mp hn
      obtain ⟨hab, hpassage⟩ := passage_of_heirs ha hgives hnew hu hv hne hp hau hbv
      exact hpaths a ((mem_heirs_iff ha hgives).mpr ⟨u, hu, hau⟩) b
        ((mem_heirs_iff ha hgives).mpr ⟨v, hv, hbv⟩) hab hpassage m hma n hnb

end Pipework.Graph
