import Pipework.Proofs.Links

/-!
# Edges are made once

However often a parameter refers to an output, one edge is made for that: no two edges of a graph as
it is built hand on the same output to the same parameter.
-/

namespace Pipework

open Step

/-- Both edges hand on the same output to the same parameter. -/
def Edge.Twins (edge edge' : Edge) : Prop :=
  edge.source = edge'.source ∧ edge.target = edge'.target ∧ ∃ link link',
    edge.kind = .data link ∧ edge'.kind = .data link' ∧
      link.sourceProperty = link'.sourceProperty ∧ link.targetProperty = link'.targetProperty

theorem Edge.not_twins_of_fills {edge edge' : Edge} {key key' : String} (hk : edge.Fills key)
    (hk' : edge'.Fills key') (hne : key ≠ key') : ¬ edge.Twins edge' := by
  rintro ⟨-, -, link, link', hkind, hkind', -, hsame⟩
  obtain ⟨found, hfound, rfl⟩ := hk
  obtain ⟨found', hfound', rfl⟩ := hk'
  obtain rfl : link = found := EdgeKind.data.inj (hkind.symm.trans hfound)
  obtain rfl : link' = found' := EdgeKind.data.inj (hkind'.symm.trans hfound')
  exact hne hsame

/-- Whether the value of the parameter has a reference in it. -/
def Job.asks (job : Job) (parameter : Parameter) : Bool :=
  (job.declared? parameter.name).any fun value => !value.references.isEmpty

theorem Job.asks_congr {job : Job} {parameter parameter' : Parameter}
    (h : parameter.name = parameter'.name) : job.asks parameter = job.asks parameter' := by
  rw [asks, asks, h]

/-- Where all parameters have names of their own, so have those with a reference. -/
theorem Job.nodup_asks {job : Job} (h : (job.parameters.map (·.name)).Nodup) :
    ((job.parameters.filter job.asks).map (·.name)).Nodup :=
  (List.filter_sublist.map _).nodup h

namespace Graph

/-- References make no two edges from one output. -/
theorem apart_of_linksInto {target : NodeId} {start : ScopeId} {parameter : Parameter}
    {seen : List (NodeId × String)} {paths : List (List String)} {g g' : Graph} {edges : List Edge}
    (h : linksInto target start parameter seen paths g = .ok edges g') :
    edges.Pairwise (fun edge edge' => ¬ edge.Twins edge') := by
  obtain ⟨owners, houtputs, hlinks⟩ := linksInto_spec h
  have hnodup : (owners.map (·.output)).Nodup := houtputs ▸ nodup_eraseDups _
  -- Edges tell of the outputs that they come from.
  let tells (edge : Edge) : Option (NodeId × String) :=
    edge.kind.link?.map fun link => (edge.source, link.sourceProperty)
  have htells : edges.map tells = (owners.map (·.output)).map some := by
    rw [← List.forall₂_eq_eq_eq, List.map_map, List.forall₂_map_left_iff, List.forall₂_map_right_iff]
    refine hlinks.flip.imp fun edge owner hlink => ?_
    obtain ⟨v, -, -, -, -, -, rfl⟩ := hlink.made
    rfl
  have hapart : (edges.map tells).Nodup := htells ▸ hnodup.map (Option.some_injective _)
  refine (List.pairwise_map.mp hapart).imp fun hne htwins => hne ?_
  obtain ⟨hsource, -, link, link', hk, hk', hproperty, -⟩ := htwins
  simp only [tells, EdgeKind.link?, hk, hk', hsource, hproperty, Option.map_some]

/-- Parameters without a reference make no edge, so only the others need names of their own. -/
theorem apart_of_linksOf {node : Node} (hdeclared : ∀ key, node.configured? key = node.declared? key)
    {start : ScopeId} {parameters : List Parameter}
    (hnames : ((parameters.filter node.spec.asks).map (·.name)).Nodup) {g g' : Graph}
    {edges : List Edge} (h : linksOf node start parameters g = .ok edges g') :
    edges.Pairwise (fun edge edge' => ¬ edge.Twins edge') := by
  induction parameters generalizing g edges with
  | nil =>
    obtain ⟨rfl, -⟩ := pure_eq_ok.mp h
    exact .nil
  | cons parameter parameters ih =>
    obtain ⟨found, t, others, -, hothers, rfl, hfound⟩ := linksOf_cons_eq_ok h
    by_cases hasks : node.spec.asks parameter = true
    · rw [List.filter_cons_of_pos hasks, List.map_cons] at hnames
      obtain ⟨hnew, hnames⟩ := List.nodup_cons.mp hnames
      rcases hfound with ⟨rfl, -⟩ | ⟨raw, -, hfound⟩
      · exact ih hnames hothers
      · refine List.pairwise_append.mpr ⟨(apart_of_linksInto hfound), ih hnames hothers, ?_⟩
        intro edge he edge' he'
        obtain ⟨other, hother, hfills⟩ := fills_of_linksOf hothers edge' he'
        refine Edge.not_twins_of_fills (fills_of_linksInto hfound edge he) hfills fun heq => hnew ?_
        exact List.mem_map.mpr
          ⟨other, List.mem_filter.mpr ⟨hother, (Job.asks_congr heq).symm.trans hasks⟩, heq.symm⟩
    · rw [List.filter_cons_of_neg hasks] at hnames
      rcases hfound with ⟨rfl, -⟩ | ⟨raw, hraw, hfound⟩
      · exact ih hnames hothers
      · have hnone : raw.references = [] := by
          rw [hdeclared, Node.declared?] at hraw
          simpa [Job.asks, hraw] using hasks
        rw [hnone] at hfound
        obtain ⟨rfl, -⟩ := pure_eq_ok.mp hfound
        exact ih hnames hothers

/-- No two edges hand on the same output to the same parameter, and to nodes that still ask for edges there
lead edges for the order only. -/
structure ApartBefore (waiting : List NodeId) (g : Graph) : Prop where
  /-- No two edges hand on the same. -/
  apart : g.edges.Pairwise fun edge edge' => ¬ edge.Twins edge'
  /-- Nodes that still ask for edges are handed nothing. -/
  ordered : ∀ edge ∈ g.edges, edge.target ∈ waiting → edge.kind = .after

/-- An edge for the order only hands on what no other edge does. -/
theorem not_twins_of_after {edge edge' : Edge} (h : edge.kind = .after) : ¬ edge.Twins edge' := by
  rintro ⟨-, -, link, -, hk, -⟩
  rw [h] at hk
  cases hk

/-- A node that gets the edges that it asks for gets no two that hand on the same. -/
theorem ApartBefore.step {id : NodeId} {waiting : List NodeId} {g g' : Graph} {u : Unit}
    (ha : ApartBefore (id :: waiting) g) (hnew : id ∉ waiting)
    (hdeclared : ∀ node ∈ g.nodes, ∀ key, node.configured? key = node.declared? key)
    (hnames : ∀ node ∈ g.nodes, ((node.spec.parameters.filter node.spec.asks).map (·.name)).Nodup)
    (h : findDependencies id g = .ok u g') : ApartBefore waiting g' := by
  have hbefore : ∀ edge ∈ g.edges, edge.target ∈ waiting → edge.kind = .after := fun edge he hin =>
    ha.ordered edge he (List.mem_cons_of_mem _ hin)
  obtain ⟨node, hnode, ⟨-, rfl⟩ | ⟨start, links, t, -, hlinks, rfl⟩⟩ := findDependencies_eq_ok h
  · exact ⟨ha.apart, hbefore⟩
  · obtain ⟨hin, rfl⟩ := id_of_node? hnode
    have hlinked : links.Pairwise (fun edge edge' => ¬ edge.Twins edge') :=
      apart_of_linksOf (hdeclared node hin) (hnames node hin) hlinks
    have hends : ∀ edge ∈ links, edge.target = node.id := fun edge he =>
      (ends_of_linksOf hlinks edge he).2
    obtain ⟨memo, -, rfl⟩ := (moves_linksOf _ _ _).of_ok hlinks
    refine ⟨List.pairwise_append.mpr ⟨ha.apart, hlinked, fun edge he edge' he' htwins => ?_⟩,
      fun edge he hin' => ?_⟩
    · have htarget : edge.target = node.id := htwins.2.1.trans (hends edge' he')
      exact not_twins_of_after (ha.ordered edge he (htarget ▸ List.mem_cons_self)) htwins
    · rcases List.mem_append.mp he with he | he
      · exact hbefore edge he hin'
      · exact absurd (hends edge he ▸ hin') hnew

/-- So do nodes one after the other. -/
theorem ApartBefore.forM {waiting : List NodeId} {g g' : Graph} {u : Unit} (ha : ApartBefore waiting g)
    (hnodup : waiting.Nodup)
    (hdeclared : ∀ node ∈ g.nodes, ∀ key, node.configured? key = node.declared? key)
    (hnames : ∀ node ∈ g.nodes, ((node.spec.parameters.filter node.spec.asks).map (·.name)).Nodup)
    (h : waiting.forM findDependencies g = .ok u g') : ApartBefore [] g' := by
  induction waiting generalizing g with
  | nil =>
    obtain ⟨-, rfl⟩ := pure_eq_ok.mp h
    exact ha
  | cons id waiting ih =>
    obtain ⟨hnew, hrest⟩ := List.nodup_cons.mp hnodup
    obtain ⟨_, t, hstep, h⟩ := bind_eq_ok.mp h
    have hsame : t.nodes = g.nodes := ((moves_findDependencies id).of_ok hstep : AddsEdges g t).nodes
    exact ih (ha.step hnew hdeclared hnames hstep) hrest (hsame ▸ hdeclared) (hsame ▸ hnames) h

/-- No two edges of a graph as it is built hand on the same output to the same parameter. -/
theorem apart_of_build {pipeline : Pipeline} {g : Graph} (h : build pipeline = .ok g)
    (hnames : ∀ node ∈ g.nodes, ((node.spec.parameters.filter node.spec.asks).map (·.name)).Nodup) :
    g.edges.Pairwise (fun edge edge' => ¬ edge.Twins edge') := by
  have hdeclared : ∀ node ∈ g.nodes, ∀ key, node.configured? key = node.declared? key :=
    fun node hn => configured?_of_build h hn
  have hnodup : (g.nodes.map (·.id)).Nodup := (build_spec h).2.1.nodup
  obtain ⟨g₁, ids, g₂, g₃, -, hglobals, hnodes, hafter, hdeps⟩ := build_eq_ok h
  obtain ⟨tree, rfl⟩ := (moves_addGlobals pipeline).of_ok hglobals
  have hseed := seeded_of_addNodes hnodes
  have hkinds : ∀ edge ∈ g₃.edges, edge.kind = .after := forM_keeps
    (P := fun t => ∀ edge ∈ t.edges, edge.kind = .after)
    (fun entry _ t v t' ht hstep => after_of_afterEdges ht hstep) (by simp [hseed.edges]) hafter
  have hadds : AddsEdges g₂ g₃ := (Moves.forM fun entry _ => moves_afterEdges _ _).of_ok hafter
  have hmore : AddsEdges g₃ g := (Moves.forM fun id _ => moves_findDependencies id).of_ok hdeps
  have hids : ids = g.nodes.map (·.id) := by rw [hmore.nodes, hadds.nodes, hseed.ids_eq]
  have hstart : ApartBefore ids g₃ := ⟨List.pairwise_of_forall_mem_list fun edge he edge' _ =>
    not_twins_of_after (hkinds edge he), fun edge he _ => hkinds edge he⟩
  exact (hstart.forM (hids ▸ hnodup) (hmore.nodes ▸ hdeclared) (hmore.nodes ▸ hnames) hdeps).apart

end Graph

end Pipework
