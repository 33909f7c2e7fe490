import Pipework.Proofs.Depth
import Pipework.Proofs.Portions

/-!
# Pipelines inside jobs are put in as they are

When a node with a pipeline of its own is replaced, the graph that the pipeline was prepared as is put
in as it is. Its nodes stand there under other handles and longer names, with what their values came
to, and the edges among them are those of that graph, one for one. What is replaced before or
afterwards leaves them alone. When all values are resolved once more, those without references stay;
others are looked into again, and come to what they find in the place where they stand then.
-/

namespace Pipework

open Step

/-- Whether both ends of the edge have one of these handles. -/
def Edge.among (ids : List NodeId) (edge : Edge) : Bool :=
  decide (edge.source ∈ ids) && decide (edge.target ∈ ids)

/-- An edge is among nodes if it joins two of them. -/
theorem Edge.among_iff {ids : List NodeId} {edge : Edge} :
    edge.among ids = true ↔ edge.source ∈ ids ∧ edge.target ∈ ids := by
  rw [Edge.among, Bool.and_eq_true, decide_eq_true_eq, decide_eq_true_eq]

namespace Graph

/-- The nodes of one graph stand in another one, under other handles and after the name of a job. -/
structure Transplanted (owner : String) (handles : List (NodeId × NodeId)) (inner g : Graph) :
    Prop where
  /-- Each node stands there with what its values came to. -/
  nodes : ∀ old ∈ inner.nodes, ∃ node ∈ g.nodes, AdoptedFor owner old node ∧ (old.id, node.id) ∈ handles
  /-- Each has one handle there. -/
  keys : (handles.map (·.1)).Nodup
  /-- Different nodes have different ones. -/
  values : (handles.map (·.2)).Nodup
  /-- The handles have been given out. -/
  below : ∀ handle ∈ handles, handle.2 < g.nextId
  /-- The edges among these nodes are the ones that there were, in the same order. -/
  edges : List.Forall₂ (Transferred handles) inner.edges
    (g.edges.filter (Edge.among (handles.map (·.2))))

/-- Where no edge joins two of the nodes, there is none among them. -/
theorem filter_among_eq_nil {ids : List NodeId} {edges : List Edge}
    (h : ∀ edge ∈ edges, edge.source ∉ ids ∨ edge.target ∉ ids) :
    edges.filter (Edge.among ids) = [] := by
  refine List.filter_eq_nil_iff.mpr fun edge he hamong => ?_
  obtain ⟨hs, ht⟩ := Edge.among_iff.mp hamong
  exact (h edge he).elim (· hs) (· ht)

/-- When another node gives way, the edges among some nodes are those that there were and those that
were moved. -/
theorem filter_among_replaced {more : Graph} {id : NodeId} {ids fresh : List NodeId}
    {between : List Edge} (hid : id ∉ ids)
    (hpairs : ∀ u v, (u, v) ∈ more.neighbourPairs id fresh between → u ∉ ids ∨ v ∉ ids) :
    ((more.removeNode id).addEdges (between ++ (more.neighbourPairs id fresh between).eraseDups.map
      fun pair => .after pair.1 pair.2)).edges.filter (Edge.among ids) =
      more.edges.filter (Edge.among ids) ++ between.filter (Edge.among ids) := by
  have hkept : (more.edges.filter (!·.touches id)).filter (Edge.among ids) =
      more.edges.filter (Edge.among ids) := by
    rw [List.filter_filter]
    refine List.filter_congr fun edge _ => ?_
    cases hamong : edge.among ids with
    | false => rfl
    | true =>
      obtain ⟨hs, ht⟩ := Edge.among_iff.mp hamong
      have hstart : edge.source ≠ id := fun heq => hid (heq ▸ hs)
      have hend : edge.target ≠ id := fun heq => hid (heq ▸ ht)
      simp [Edge.touches, hstart, hend]
  have hafter : ((more.neighbourPairs id fresh between).eraseDups.map
      fun pair => Edge.after pair.1 pair.2).filter (Edge.among ids) = [] :=
    filter_among_eq_nil fun edge he => hpairs _ _ (leads_afterPairs.mp (leads_of_mem he))
  simp only [addEdges, removeNode, List.filter_append, hkept, hafter, List.append_nil]

section Step

variable {prepare : GraphM Unit} {g g' : Graph} {u : Unit}

/-- The replaced node gives way to the nodes of its pipeline. -/
theorem transplanted_of_expandNode {t : Graph} {owner : Node} {nested : Pipeline} {settings : Settings}
    (hprepare : PreparesAcyclic prepare) (hw : g.WellFormed) (hn : g.node? owner.id = some owner)
    (hnested : owner.spec.nested? = some nested)
    (hsettings : configuration owner.name g = .ok settings t)
    (h : expandNode prepare owner.id g = .ok u g') : ∃ built inner handles,
      build { nested with configuration := nested.configuration.overlay settings } = .ok built ∧
      prepare built = .ok () inner ∧ (∀ handle ∈ handles, g.nextId ≤ handle.2) ∧
      Transplanted owner.name handles inner g' := by
  cases expands_of_expandNode h with
  | plain hn' hnone =>
    obtain rfl := Option.some.inj (hn.symm.trans hn')
    rw [hnested] at hnone
    cases hnone
  | @replaced _ _ _ built inner _ t' more handles between hn' hnested' hsettings' hbuild hinner hadopt
    hbetween =>
    obtain rfl := Option.some.inj (hn.symm.trans hn')
    obtain rfl := Option.some.inj (hnested.symm.trans hnested')
    obtain ⟨rfl, rfl⟩ := EStateM.Result.ok.inj (hsettings.symm.trans hsettings')
    have hids : (inner.nodes.map (·.id)).Nodup := (hprepare _ _ _ _ hbuild hinner).1.nodup
    have hfirst := handles_of_adoptNodes hadopt
    obtain ⟨memo, -, rfl⟩ := (moves_configuration _).of_ok hsettings
    obtain ⟨added, ⟨hadded, scope, rfl⟩, hall, hsecond⟩ := extends_of_adoptNodes hadopt
    obtain ⟨memo', -, rfl⟩ := (moves_adoptEdges _ _).of_ok hbetween
    have hrange : ∀ id ∈ handles.map (·.2), g.nextId ≤ id ∧ id < g.nextId + added.length := by
      intro id hid
      rw [hsecond, hadded] at hid
      exact List.mem_range'_1.mp hid
    have hlt : owner.id < g.nextId := hw.below _ (List.mem_map_of_mem (id_of_node? hn).1)
    have hold : ∀ {id}, id < g.nextId → id ∉ handles.map (·.2) := fun hlt hid =>
      absurd hlt (Nat.not_lt.mpr (hrange _ hid).1)
    refine ⟨built, inner, handles, hbuild, hinner,
      fun handle hin => (hrange _ (List.mem_map_of_mem hin)).1, fun old ho => ?_,
      hfirst ▸ hids, hsecond ▸ hadded ▸ List.nodup_range',
      fun handle hin => (hrange _ (List.mem_map_of_mem hin)).2, ?_⟩
    · obtain ⟨node, hnode, hadopted, hhandle⟩ := exists_handle hall hfirst hsecond ho
      refine ⟨node, List.mem_filter.mpr ⟨List.mem_append_right _ hnode, ?_⟩, hadopted, hhandle⟩
      have hfresh := (hrange node.id (List.mem_map_of_mem hhandle)).1
      simpa using (hlt.trans_le hfresh).ne'
    · -- Only the edges that were moved are among the new nodes.
      have hmoved := forall₂_of_adoptEdges hbetween
      have hbetween' : between.filter (Edge.among (handles.map (·.2))) = between := by
        refine List.filter_eq_self.mpr fun edge he => ?_
        obtain ⟨old, -, hedge⟩ := exists_of_mem_right hmoved he
        exact Edge.among_iff.mpr ⟨List.mem_map_of_mem (mem_of_lookup hedge.source),
          List.mem_map_of_mem (mem_of_lookup hedge.target)⟩
      have hbefore : g.edges.filter (Edge.among (handles.map (·.2))) = [] :=
        filter_among_eq_nil fun edge he => .inl (hold (hw.lt_nextId he).1)
      rw [filter_among_replaced (hold hlt) fun first second hpair => ?_, hbefore, hbetween',
        List.nil_append]
      · exact hmoved
      · rcases mem_neighbourPairs.mp hpair with ⟨⟨edge, he, hs, -⟩, -, -⟩ | ⟨⟨edge, he, -, ht⟩, -, -⟩
        · exact .inl (hs ▸ hold (hw.lt_nextId he).1)
        · exact .inr (ht ▸ hold (hw.lt_nextId he).2)

variable {owner : String} {handles : List (NodeId × NodeId)} {inner : Graph}

/-- When another node is replaced the transplanted nodes and the edges among them stay. -/
theorem Transplanted.expandNode {id : NodeId} (h : Transplanted owner handles inner g)
    (hne : ∀ handle ∈ handles, id ≠ handle.2) (hstep : Graph.expandNode prepare id g = .ok u g') :
    Transplanted owner handles inner g' where
  nodes old ho := by
    obtain ⟨node, hnode, hadopted, hhandle⟩ := h.nodes old ho
    exact ⟨node, (mem_of_expandNode hstep).2.2 node hnode (hne _ hhandle).symm, hadopted, hhandle⟩
  keys := h.keys
  values := h.values
  below handle hin := (h.below handle hin).trans_le (mem_of_expandNode hstep).1
  edges := by
    cases expands_of_expandNode hstep with
    | plain _ _ => exact h.edges
    | @replaced _ _ _ _ _ _ _ _ more between _ _ hsettings _ _ hadopt hbetween =>
      obtain ⟨memo, -, rfl⟩ := (moves_configuration _).of_ok hsettings
      obtain ⟨added, ⟨hadded, scope, rfl⟩, -, hsecond⟩ := extends_of_adoptNodes hadopt
      obtain ⟨memo', -, rfl⟩ := (moves_adoptEdges _ _).of_ok hbetween
      have hid : id ∉ handles.map (·.2) := fun hin => by
        obtain ⟨handle, hhandle, rfl⟩ := List.mem_map.mp hin
        exact hne handle hhandle rfl
      have hnew : ∀ {v}, v ∈ more.map (·.2) → v ∉ handles.map (·.2) := fun hv hin => by
        obtain ⟨handle, hhandle, rfl⟩ := List.mem_map.mp hin
        rw [hsecond, hadded] at hv
        exact absurd (h.below handle hhandle) (Nat.not_lt.mpr (List.mem_range'_1.mp hv).1)
      have hbetween' : between.filter (Edge.among (handles.map (·.2))) = [] := by
        refine filter_among_eq_nil fun edge he => ?_
        obtain ⟨old, -, hedge⟩ := exists_of_mem_right (forall₂_of_adoptEdges hbetween) he
        exact .inl (hnew (List.mem_map_of_mem (mem_of_lookup hedge.source)))
      rw [filter_among_replaced hid fun first second hpair => ?_, hbetween', List.append_nil]
      · exact h.edges
      · rcases mem_neighbourPairs.mp hpair with ⟨-, hv, -⟩ | ⟨-, hu, -⟩
        · exact .inr (hnew hv)
        · exact .inl (hnew hu)

/-- What was put in stays as it is when further pipelines are put in. -/
theorem Transplanted.forM {ids : List NodeId} (h : Transplanted owner handles inner g)
    (hne : ∀ id ∈ ids, ∀ handle ∈ handles, id ≠ handle.2)
    (hrun : ids.forM (Graph.expandNode prepare) g = .ok u g') : Transplanted owner handles inner g' :=
  forM_keeps (P := Transplanted owner handles inner)
    (fun id hid _ _ _ ht hstep => ht.expandNode (hne id hid) hstep) h hrun

/-- A node was taken over from another one, whatever it keeps of its values. -/
theorem AdoptedFor.of_pending {name : String} {old node last : Node} (h : AdoptedFor name old node)
    (hpending : last.pending = node.pending) : AdoptedFor name old last :=
  ⟨(congrArg Node.name hpending).trans h.name, (congrArg Node.spec hpending).trans h.spec,
    (congrArg Node.isReplica hpending).trans h.isReplica,
    (congrArg Node.overrides hpending).trans h.overrides⟩

/-- When values are resolved nothing is moved. -/
theorem Transplanted.finalize (h : Transplanted owner handles inner g)
    (hrun : Graph.finalize g = .ok u g') : Transplanted owner handles inner g' where
  nodes old ho := by
    obtain ⟨node, hnode, hadopted, hhandle⟩ := h.nodes old ho
    have hmem : node.pending ∈ g'.nodes.map Node.pending :=
      (pending_of_finalize hrun).2 ▸ List.mem_map_of_mem hnode
    obtain ⟨last, hlast, hpending⟩ := List.mem_map.mp hmem
    exact ⟨last, hlast, hadopted.of_pending hpending, (values_of_pending hpending).1 ▸ hhandle⟩
  keys := h.keys
  values := h.values
  below := (moves_finalize.of_ok hrun).nextId ▸ h.below
  edges := (moves_finalize.of_ok hrun).edges ▸ h.edges

/-- As many edges hand on values to a transplanted node as there were, or more. -/
theorem Transplanted.length_fed_le (h : Transplanted owner handles inner g) {old node : Node}
    (hmem : (old.id, node.id) ∈ handles) (key : String) :
    (inner.fed old.id key).length ≤ (g.fed node.id key).length := by
  have hmoved : List.Forall₂ (Transferred handles) (inner.fed old.id key)
      ((g.edges.filter (Edge.among (handles.map (·.2)))).filter (Edge.into node.id key)) := by
    refine List.rel_filter (fun first second hedge => ?_) h.edges
    have hends : first.target = old.id ↔ second.target = node.id := by
      constructor
      · intro heq
        exact congrArg Prod.snd (List.inj_on_of_nodup_map h.keys (mem_of_lookup hedge.target) hmem heq)
      · intro heq
        exact congrArg Prod.fst
          (List.inj_on_of_nodup_map h.values (mem_of_lookup hedge.target) hmem heq)
    have hkeys : first.Fills key ↔ second.Fills key := by rw [Edge.Fills, Edge.Fills, hedge.kind]
    exact Edge.into_iff.trans ((and_congr hends hkeys).trans Edge.into_iff.symm)
  rw [hmoved.length_eq]
  exact (List.filter_sublist.filter _).length_le

end Step

/-- The node has this pipeline inside when it is replaced, with what its values were resolved to on top
of what the definition gives. -/
def Houses (prepare : GraphM Unit) (filled : Graph) (owner : Node) (pipeline : Pipeline) : Prop :=
  ∃ before behind g t nested settings, filled.nestedIds = before ++ owner.id :: behind ∧
    before.forM (expandNode prepare) filled = .ok () g ∧ g.node? owner.id = some owner ∧
    owner.spec.nested? = some nested ∧ configuration owner.name g = .ok settings t ∧
    pipeline = { nested with configuration := nested.configuration.overlay settings }

section Houses

variable {prepare : GraphM Unit} {filled expanded prepared : Graph} {owner : Node} {u v : Unit}

/-- The pipeline that a job houses has the jobs of the one inside it. -/
theorem Houses.jobs {pipeline nested : Pipeline} (h : Houses prepare filled owner pipeline)
    (hnested : owner.spec.nested? = some nested) : pipeline.jobs = nested.jobs := by
  obtain ⟨_, _, _, _, other, _, -, -, -, hother, -, rfl⟩ := h
  obtain rfl := Option.some.inj (hother.symm.trans hnested)
  rfl

variable (hprepare : PreparesAcyclic prepare) (hawaits : Awaits filled.nestedIds filled)
  (hexpand : filled.nestedIds.forM (expandNode prepare) filled = .ok u expanded)

include hprepare hawaits hexpand

/-- Every node with a pipeline of its own has one inside when its turn comes. -/
theorem exists_houses {nested : Pipeline} (ho : owner ∈ filled.nodes)
    (hnested : owner.spec.nested? = some nested) :
    ∃ pipeline, Houses prepare filled owner pipeline := by
  have hmem : owner.id ∈ filled.nestedIds :=
    List.mem_map_of_mem (List.mem_filter.mpr ⟨ho, Option.isSome_of_eq_some hnested⟩)
  obtain ⟨before, behind, heq⟩ := List.append_of_mem hmem
  have hnodup := hawaits.nodup
  rw [heq] at hexpand hnodup hawaits
  obtain ⟨g, hbefore, hrest⟩ := forM_append_eq_ok.mp hexpand
  obtain ⟨_, g', hstep, -⟩ := bind_eq_ok.mp hrest
  -- It is still there when its turn comes.
  have hnot : ∀ id ∈ before, owner.id ≠ id := fun id hid hsame =>
    (List.nodup_append.mp hnodup).2.2 id hid owner.id List.mem_cons_self hsame.symm
  have hin : owner ∈ g.nodes := forM_keeps (P := fun t => owner ∈ t.nodes)
    (fun id hid _ _ _ ht hstep => (mem_of_expandNode hstep).2.2 owner ht (hnot id hid)) ho hbefore
  have hn : g.node? owner.id = some owner :=
    (hawaits.forM hprepare hbefore).wellFormed.node?_eq_some.mpr hin
  cases expands_of_expandNode hstep with
  | plain hn' hnone =>
    obtain rfl := Option.some.inj (hn.symm.trans hn')
    rw [hnested] at hnone
    cases hnone
  | replaced hn' hnested' hsettings _ _ _ _ =>
    obtain rfl := Option.some.inj (hn.symm.trans hn')
    exact ⟨_, before, behind, g, _, _, _, heq, hbefore, hn, hnested', hsettings, rfl⟩

/-- The pipeline inside a node was built and prepared, and stands in its place in the end. -/
theorem Houses.transplanted (hfinalize : finalize expanded = .ok v prepared) {pipeline : Pipeline}
    (h : Houses prepare filled owner pipeline) : ∃ built inner handles, build pipeline = .ok built ∧
      prepare built = .ok () inner ∧ Transplanted owner.name handles inner prepared := by
  obtain ⟨before, behind, g, t, nested, settings, heq, hbefore, hn, hnested, hsettings, rfl⟩ := h
  rw [heq] at hexpand hawaits
  obtain ⟨g', hbefore', hrest⟩ := forM_append_eq_ok.mp hexpand
  obtain ⟨-, rfl⟩ := EStateM.Result.ok.inj (hbefore.symm.trans hbefore')
  obtain ⟨_, g', hstep, hbehind⟩ := bind_eq_ok.mp hrest
  have hturn : Awaits (owner.id :: behind) g := hawaits.forM hprepare hbefore
  obtain ⟨built, inner, handles, hbuild, hinner, hfresh, htransplanted⟩ :=
    transplanted_of_expandNode hprepare hturn.wellFormed hn hnested hsettings hstep
  refine ⟨built, inner, handles, hbuild, hinner,
    (htransplanted.forM (fun id hid handle hin => ?_) hbehind).finalize hfinalize⟩
  -- Those that are replaced later were there before.
  obtain ⟨node, hnode, rfl, -⟩ := hturn.nested id (List.mem_cons_of_mem _ hid)
  have hlt := hturn.wellFormed.below _ (List.mem_map_of_mem hnode)
  exact (hlt.trans_le (hfresh handle hin)).ne

end Houses

/-- A node that was taken over keeps what came out without references. -/
theorem AdoptedFor.outcome_eq {inner prepared : Graph} {owner : String} {old node : Node}
    (h : AdoptedFor owner old node) (hinner : inner.Mirrored) (hm : prepared.Mirrored)
    (hsettled : ∀ node ∈ prepared.nodes, prepared.Settled node) (hold : old ∈ inner.nodes)
    (hn : node ∈ prepared.nodes) {key : String} {value : Value}
    (hvalue : inner.outcome? old.id key = some value) (hplain : value.references = []) :
    prepared.outcome? node.id key = some value := by
  rw [outcome?, hinner.node?_eq_some hold, Option.bind_some] at hvalue
  obtain ⟨resolved, hresolved, hkey⟩ := Option.bind_eq_some_iff.mp hvalue
  refine outcome_of_no_references hm hsettled hn ?_ hplain
  rw [Node.configured?, h.overrides, hresolved, Option.getD_some, hkey, Option.some_or]

end Graph

end Pipework
