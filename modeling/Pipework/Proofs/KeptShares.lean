import Pipework.Proofs.SplitLists

/-!
# Dealing out a list

When the turn of a job comes, the elements of a list that comes in for one of its parameters are
dealt out to its repetitions. They keep their shares while the other nodes have their turns. Then
each repetition is handed the element that the list has at its place by that time, or the one that it
was dealt if the list has become too short.
-/

namespace Pipework

open Step

/-- What is there gives way to the value that is handed on. -/
def Merge.Yields (link : DataLink) (names : List String) (existing? : Option Value) : Prop :=
  ∀ value, fill link existing? value names = .ok (pick link value)

namespace Graph

/-- In a graph as it is built each job has one node. -/
theorem nodesOf_build {pipeline : Pipeline} {built : Graph} (h : build pipeline = .ok built)
    {job : Node} (hjob : job ∈ built.nodes) : built.nodesOf job.spec.id = [job] := by
  have hnodes := nodes_of_build h
  have hname : ∀ node ∈ built.nodes, (node.spec.id == job.spec.id) = (node.name == job.name) :=
    fun node hn => by rw [(hnodes node hn).2.1, (hnodes job hjob).2.1]
  rw [nodesOf, List.filter_congr hname]
  exact filter_eq_singleton_of_nodup (mirrored_build h).names hjob

/-- What a node is repeated for is found out when all nodes before it in the order have had their
turns. -/
theorem drivers_of_planned {built asked : Graph} {before behind : List Node} {job : Node}
    {plan : Drivers} (horder : built.topologicalOrder = .ok (before ++ job :: behind))
    (hnew : job.id ∉ before.map (·.id)) (h : planned job.id built = .ok plan asked) :
    ∃ g, before.forM (Graph.splitNode ·.id) built = .ok () g ∧ drivers job.id g = .ok plan asked := by
  obtain ⟨_, _, hget, h⟩ := bind_eq_ok.mp h
  obtain ⟨rfl, rfl⟩ := get_eq_ok.mp hget
  obtain ⟨order, _, hat, h⟩ := bind_eq_ok.mp h
  obtain ⟨hsame, rfl⟩ := ofExcept_eq_ok.mp hat
  obtain rfl := Except.ok.inj (horder.symm.trans hsame)
  obtain ⟨_, g, hbefore, hdrivers⟩ := bind_eq_ok.mp h
  rw [takeWhile_of_new hnew] at hbefore
  exact ⟨g, hbefore, hdrivers⟩

/-- Repetitions keep their shares during the turns of nodes that were built. -/
theorem Dealt.of_turns {jobs : List Job} {job : Node} {key out : String} {source : NodeId}
    {items : List Value} {nodes : List Node} {u : Unit} {g g' : Graph}
    (hd : Dealt job key source out items g) (ho : g.Orderly jobs)
    (h : nodes.forM (Graph.splitNode ·.id) g = .ok u g') (hlt : ∀ node ∈ nodes, node.id < g.nextId)
    (hother : ∀ node ∈ nodes, ∀ now ∈ g.nodes, now.id = node.id → now.spec.id ≠ job.spec.id)
    (hstays : source ∈ g'.nodes.map (·.id)) : Dealt job key source out items g' := by
  have hnodes := nodesOf_of_turns ho h hlt hother
  refine ⟨by rw [hnodes, hd.length], fun place replica hreplica => ?_⟩
  rw [hnodes] at hreplica
  obtain ⟨item, hitem, hspec, hname, hvalue, edge, hfed⟩ := hd.share place replica hreplica
  obtain ⟨hin, hjob⟩ := List.mem_filter.mp (List.mem_of_getElem? hreplica)
  have hne : ∀ node ∈ nodes, node.id ≠ replica.id := fun node hn heq =>
    hother node hn replica hin heq.symm (by simpa using hjob)
  refine ⟨item, hitem, hspec, hname, hvalue, edge, Eq.trans ?_ hfed⟩
  refine fed_of_turns ho h hne (ho.wellFormed.below _ (List.mem_map_of_mem hin)) fun _ he => ?_
  rw [hfed] at he
  rw [List.mem_singleton.mp he]
  exact hstays

/-- In its turn a job deals out a list of more than one element that comes in along the only edge to a
parameter. -/
theorem dealt_of_turn {jobs : List Job} {g g' asked : Graph} (ho : g.Orderly jobs) {job source : Node}
    (hjob : job ∈ g.nodes) (hs : source ∈ g.nodes) (hone : g.nodesOf job.spec.id = [job])
    {key : String} {edge : Edge} {link : DataLink} (hfed : g.fed job.id key = [edge])
    (hsource : edge.source = source.id) (hk : edge.kind = .data link)
    (hc : link.cardinality = .manyToOne)
    (hasks : ∀ p ∈ job.spec.parameters, p.name = key → p.expandValue? = none)
    (hpath : ¬ job.spec.IsPath key) {plan : Drivers} (hdrivers : drivers job.id g = .ok plan asked)
    {items : List Value}
    (hitems : asked.resolvedIn? source.name link.sourceProperty = some (.list items))
    (hmany : 1 < items.length) (h : splitNode job.id g = .ok () g') :
    Dealt job key source.id link.sourceProperty items g' := by
  have hne : items ≠ [] := by
    rintro rfl
    simp at hmany
  obtain ⟨place, -, honly, hinto⟩ := into_of_drivers hk hc hitems hne hfed
    (hsource ▸ ho.wellFormed.node?_eq_some.mpr hs) hdrivers
  have hsizes : (key, items.length) ∈ plan.sizes := by
    rw [Drivers.sizes]
    refine List.mem_append_left _ (List.mem_append_left _ ?_)
    exact List.mem_map.mpr ⟨_, mem_shares_of_into hinto, by simp [sharesAt]⟩
  have hrun : ∀ {plan' t}, drivers job.id g = .ok plan' t → plan' = plan ∧ t = asked := by
    intro plan' t hf
    rw [hdrivers] at hf
    exact ⟨(EStateM.Result.ok.inj hf).1.symm, (EStateM.Result.ok.inj hf).2.symm⟩
  cases turned_of_splitNode h with
  | absent hn =>
    rw [ho.wellFormed.node?_eq_some.mpr hjob] at hn
    cases hn
  | idle _ hf hsize =>
    obtain ⟨rfl, rfl⟩ := hrun hf
    rw [Drivers.size?] at hsize
    split at hsize
    next hnone => simp [hnone] at hsizes
    next => split at hsize <;> cases hsize
  | collapsed _ hf hsize _ =>
    obtain ⟨rfl, rfl⟩ := hrun hf
    have hcount : items.length = 1 := length_of_size? hsize _ hsizes
    omega
  | replaced hn hf hsize _ hr =>
    obtain rfl := List.inj_on_of_nodup_map ho.wellFormed.nodup (id_of_node? hn).1 hjob
      (id_of_node? hn).2
    obtain ⟨rfl, rfl⟩ := hrun hf
    obtain rfl : items.length = _ := length_of_size? hsize _ hsizes
    rw [hsource] at hinto
    exact dealt_of_replicate ho.wellFormed hjob hone (traced_of_drivers hf)
      ((moves_drivers _).of_ok hf) hinto honly hne hasks hpath hr

/-- Repeating nodes is cut at the turn of a job: others have their turns before and behind. -/
structure Cut (jobs : List Job) (built : Graph) (before : List Node) (g : Graph) (job : Node) (g' : Graph)
    (behind : List Node) (repeated : Graph) : Prop where
  /-- They stand in an order. -/
  order : built.topologicalOrder = .ok (before ++ job :: behind)
  /-- Some have their turns before. -/
  earlier : before.forM (Graph.splitNode ·.id) built = .ok () g
  /-- Then the job has its turn. -/
  turn : splitNode job.id g = .ok () g'
  /-- The others have theirs behind. -/
  later : behind.forM (Graph.splitNode ·.id) g' = .ok () repeated
  /-- The graph is as it should be when it was built. -/
  first : built.Orderly jobs
  /-- It is when the job has its turn. -/
  orderly : g.Orderly jobs
  /-- The others were built too. -/
  others : ∀ other ∈ before ++ behind, other ∈ built.nodes ∧ other.id ≠ job.id
  /-- No other node that was built has the job. -/
  apart : ∀ other ∈ before ++ behind, ∀ now ∈ built.nodes, now.id = other.id →
    now.spec.id ≠ job.spec.id
  /-- And one has it. -/
  single : built.nodesOf job.spec.id = [job]

namespace Cut

variable {jobs : List Job} {built g g' repeated : Graph} {before behind : List Node} {job : Node}
  (h : Cut jobs built before g job g' behind repeated)

include h

/-- Nodes other than the one whose turn it is have handles that were given out at first. -/
theorem below {other : Node} (ho : other ∈ before ++ behind) : other.id < built.nextId :=
  h.first.wellFormed.below _ (List.mem_map_of_mem (h.others other ho).1)

/-- After the turn nodes stand in the order of their jobs. -/
theorem orderly' : g'.Orderly jobs := orderly_splitNode h.orderly h.turn

theorem nextId_le : built.nextId ≤ g.nextId ∧ g.nextId ≤ g'.nextId :=
  ⟨(older_of_turns h.first h.earlier).1, (older_of_splitNode h.orderly h.turn).1⟩

/-- When its turn comes the job still has its one node. -/
theorem sole : g.nodesOf job.spec.id = [job] := by
  rw [nodesOf_of_turns h.first h.earlier (fun other ho => h.below (List.mem_append_left _ ho))
    (fun other ho => h.apart other (List.mem_append_left _ ho)), h.single]

/-- The node is there when its turn comes. -/
theorem mem : job ∈ g.nodes :=
  List.mem_of_mem_filter (h.sole ▸ List.mem_singleton_self job : job ∈ g.nodesOf job.spec.id)

/-- Those behind are none of the nodes that the job has after its turn. -/
theorem below' {other : Node} (ho : other ∈ behind) : other.id < g'.nextId :=
  (h.below (List.mem_append_right _ ho)).trans_le (h.nextId_le.1.trans h.nextId_le.2)

/-- The nodes whose turns are still to come are of other jobs. -/
theorem apart' {other : Node} (ho : other ∈ behind) : ∀ now ∈ g'.nodes, now.id = other.id →
    now.spec.id ≠ job.spec.id := by
  intro now hnow hid
  have hlt := h.below (List.mem_append_right _ ho)
  obtain ⟨mid, hmid, hout⟩ := (older_of_splitNode h.orderly h.turn).2 now hnow
    (hid ▸ hlt.trans_le h.nextId_le.1)
  obtain ⟨first, hfirst, hout'⟩ := (older_of_turns h.first h.earlier).2 mid hmid
    (id_of_outline hout ▸ hid ▸ hlt)
  have hboth := hout'.trans hout
  rw [← spec_of_outline hboth]
  exact h.apart other (List.mem_append_right _ ho) first hfirst ((id_of_outline hboth).trans hid)

end Cut

section Split

variable {pipeline : Pipeline} {built repeated : Graph} {u : Unit}
  (hbuild : build pipeline = .ok built) (hsplit : split built = .ok u repeated) {job : Node}
  (hjob : job ∈ built.nodes)

include hbuild hsplit hjob

/-- The repetition of all nodes can be cut at the turn of a job. -/
theorem cut_of_split : ∃ before g g' behind,
    Cut pipeline.jobs built before g job g' behind repeated := by
  obtain ⟨-, hw, hlinked, -⟩ := build_spec hbuild
  obtain ⟨order, horder, hsplit⟩ := split_eq_ok hsplit
  have ho := orderly_of_topologicalOrder hw hlinked (fun node hn => (nodes_of_build hbuild node hn).1)
    horder
  obtain ⟨hordered, hids, hsubset⟩ := ordered_of_topologicalOrder hw.closed horder
  obtain ⟨node, hnode, hid⟩ := List.mem_map.mp ((hids job.id).mpr (List.mem_map_of_mem hjob))
  obtain rfl : node = job := List.inj_on_of_nodup_map hw.nodup (hsubset hnode) hjob hid
  obtain ⟨before, behind, rfl⟩ := List.append_of_mem hnode
  have hnodup := hordered.nodup
  rw [List.map_append, List.map_cons, List.nodup_append, List.nodup_cons] at hnodup
  obtain ⟨-, ⟨hlast, -⟩, hapart⟩ := hnodup
  obtain ⟨g, hbefore, hrest⟩ := forM_append_eq_ok.mp hsplit
  obtain ⟨_, g', hturn, hbehind⟩ := bind_eq_ok.mp hrest
  have hothers : ∀ other ∈ before ++ behind, other ∈ built.nodes ∧ other.id ≠ node.id := by
    intro other hother
    rcases List.mem_append.mp hother with hmem | hmem
    · refine ⟨hsubset (List.mem_append_left _ hmem), fun heq => ?_⟩
      exact hapart _ (List.mem_map_of_mem hmem) node.id List.mem_cons_self heq
    · refine ⟨hsubset (List.mem_append_right _ (List.mem_cons_of_mem _ hmem)), fun heq => ?_⟩
      exact hlast (heq ▸ List.mem_map_of_mem hmem)
  refine ⟨before, g, g', behind, horder, hbefore, hturn, hbehind, ho,
    forM_keeps (fun node _ t v t' ht hstep => orderly_splitNode ht hstep) ho hbefore, hothers,
    fun other hother now hnow hsame heq => ?_, nodesOf_build hbuild hjob⟩
  have hnames : now.name = node.name := by
    rw [(nodes_of_build hbuild now hnow).2.1, (nodes_of_build hbuild node hjob).2.1, heq]
  obtain rfl := List.inj_on_of_nodup_map (mirrored_build hbuild).names hnow hjob hnames
  exact (hothers other hother).2 hsame.symm

/-- A job that is repeated for a list of more than one element, which comes in for one of its
parameters along the only edge to it, deals out these elements. -/
theorem dealt_of_split {source : Node} (hs : source ∈ built.nodes) {key : String} {edge : Edge}
    {link : DataLink} (hfed : built.fed job.id key = [edge]) (hsource : edge.source = source.id)
    (hk : edge.kind = .data link) (hc : link.cardinality = .manyToOne)
    (hstays : source.id ∈ repeated.nodes.map (·.id))
    (hasks : ∀ p ∈ job.spec.parameters, p.name = key → p.expandValue? = none)
    (hpath : ¬ job.spec.IsPath key) {plan : Drivers} {asked : Graph}
    (hplanned : planned job.id built = .ok plan asked) {items : List Value}
    (hitems : asked.resolvedIn? source.name link.sourceProperty = some (.list items))
    (hmany : 1 < items.length) : Dealt job key source.id link.sourceProperty items repeated := by
  obtain ⟨before, g, g', behind, hcut⟩ := cut_of_split hbuild hsplit hjob
  have hw := hcut.first.wellFormed
  have hturned : (job :: behind).forM (Graph.splitNode ·.id) g = .ok () repeated :=
    bind_eq_ok.mpr ⟨(), g', hcut.turn, hcut.later⟩
  obtain ⟨hnext, holder⟩ := older_of_turns hcut.first hcut.earlier
  have hin : source.id ∈ g.nodes.map (·.id) := mem_ids_of_turns hcut.orderly hturned hstays
    ((hw.below _ (List.mem_map_of_mem hs)).trans_le hnext)
  have hne : ∀ other ∈ before, other.id ≠ job.id := fun other hother =>
    (hcut.others other (List.mem_append_left _ hother)).2
  have hfed₁ : g.fed job.id key = [edge] := by
    rw [fed_of_turns hcut.first hcut.earlier hne (hw.below _ (List.mem_map_of_mem hjob)) ?_, hfed]
    rw [hfed]
    intro _ he
    rw [List.mem_singleton.mp he, hsource]
    exact hin
  obtain ⟨now, hnow, hid⟩ := List.mem_map.mp hin
  obtain ⟨old, hold, houtline⟩ :=
    holder now hnow (hid ▸ hw.below _ (List.mem_map_of_mem hs))
  obtain rfl : old = source := List.inj_on_of_nodup_map hw.nodup hold hs
    ((id_of_outline houtline).trans hid)
  have hname : now.name = old.name := (name_of_outline houtline).symm
  obtain ⟨g₁, hsame, hdrivers⟩ := drivers_of_planned hcut.order (fun hmem => by
    obtain ⟨other, hother, heq⟩ := List.mem_map.mp hmem
    exact hne other hother heq) hplanned
  obtain ⟨-, rfl⟩ := EStateM.Result.ok.inj (hcut.earlier.symm.trans hsame)
  have hdealt : Dealt job key old.id link.sourceProperty items g' := hid ▸ dealt_of_turn hcut.orderly
    hcut.mem hnow hcut.sole hfed₁ (hsource.trans hid.symm) hk hc hasks hpath hdrivers
    (hname ▸ hitems) hmany hcut.turn
  exact hdealt.of_turns hcut.orderly' hcut.later (fun other ho => hcut.below' ho)
    (fun other ho => hcut.apart' ho) hstays

end Split

/-- A value without references to the output gives way to what is handed on. -/
theorem yields_of_references {link : DataLink} {names : List String} {existing : Value}
    (h : ∀ path ∈ existing.references, Merge.fieldsOf? link.sourceProperty names path = none) :
    Merge.Yields link names (some existing) := by
  intro value
  cases existing with
  | str raw =>
    have hnone : ∀ path, Token.reference path ∈ Template.tokenize raw →
        Merge.fieldsOf? link.sourceProperty names path = none := fun path hpath =>
      h path (List.mem_filterMap.mpr ⟨_, hpath, rfl⟩)
    have hmention : (Template.tokenize raw).any (Merge.mentions link.sourceProperty names) =
        false := by
      refine List.any_eq_false.mpr fun token htoken => ?_
      cases token with
      | literal text => simp [Merge.mentions]
      | reference path => simp [Merge.mentions, hnone path htoken]
    rw [Merge.fill, Merge.substitute]
    generalize Template.tokenize raw = tokens at *
    match tokens with
    | [.reference path] => simp [hnone path]
    | [] | [.literal _] | .literal _ :: _ :: _ | .reference _ :: _ :: _ => simp [hmention]
  | bool _ | int _ | float _ | list _ => rfl

/-- A text that is one reference to the output and nothing else gives way to what is handed on. -/
theorem yields_of_singleReference? {link : DataLink} {names : List String} {text : String}
    {path : List String} (h : Template.singleReference? text = some path)
    (hfields : Merge.fieldsOf? link.sourceProperty names path = some []) :
    Merge.Yields link names (some (.str text)) := by
  intro value
  rw [Template.singleReference?] at h
  split at h
  next found htokens =>
    obtain rfl := Option.some.inj h
    rw [Merge.fill, Merge.substitute, htokens]
    simp only [hfields]
    rfl
  next => cases h

/-- What gives way is replaced by what is handed on. -/
theorem merge_of_yields {link : DataLink} (hc : link.cardinality = .oneToOne) {target : String}
    {value : Value} {existing? declared? merged : Option Value} {names : List String}
    (hyields : Merge.Yields link names existing?)
    (h : Merge.merge (.data link) target existing? declared? value names = .ok merged) :
    merged = some (Merge.pick link value) := by
  rw [Merge.merge, hc] at h
  simp only [hyields value] at h
  exact (Except.ok.inj h).symm

/-- Giving a node a value changes this node only. -/
theorem nodes_of_setNodeValue {id : NodeId} {key : String} {value : Value} {u : Unit} {g g' : Graph}
    (h : setNodeValue id key value g = .ok u g') :
    g'.nodes = (g.modifyNode id (·.set key value)).nodes := by
  obtain ⟨_, t, hmodify, h⟩ := bind_eq_ok.mp h
  obtain rfl := modify_eq_ok.mp hmodify
  obtain ⟨_, _, hget, h⟩ := bind_eq_ok.mp h
  obtain ⟨rfl, rfl⟩ := get_eq_ok.mp hget
  cases hscope : (g.modifyNode id (·.set key value)).scopeOf? id with
  | none =>
    simp only [hscope] at h
    obtain ⟨-, rfl⟩ := pure_eq_ok.mp h
    rfl
  | some scope =>
    simp only [hscope] at h
    obtain ⟨_, _, hput, h⟩ := bind_eq_ok.mp h
    obtain ⟨tree, -, rfl⟩ := onScope_eq_ok.mp hput
    obtain ⟨-, rfl⟩ := pure_eq_ok.mp h
    rfl

/-- A node is the one that was changed, or it was there before. -/
theorem mem_modifyNode {g : Graph} {id : NodeId} {change : Node → Node} {node : Node}
    (h : node ∈ (g.modifyNode id change).nodes) : ∃ old ∈ g.nodes,
      (old.id = id ∧ node = change old) ∨ (old.id ≠ id ∧ node = old) := by
  obtain ⟨old, hold, hnode⟩ := List.mem_map.mp h
  split at hnode
  next heq => exact ⟨old, hold, .inl ⟨heq, hnode.symm⟩⟩
  next hne => exact ⟨old, hold, .inr ⟨hne, hnode.symm⟩⟩

/-- Where none of the edges that have had their turn leads to, the node has what it had. -/
theorem Filled.exists_node {edges : List Edge} {places : List Nat} {g g' : Graph}
    (h : Filled edges places g g') (hids : (g.nodes.map (·.id)).Nodup) {node node' : Node}
    (hn : node ∈ g.nodes) (hn' : node' ∈ g'.nodes) (hid : node'.id = node.id) :
    node'.outline = node.outline ∧ ∀ key, (∀ place ∈ places, ¬ Feeds edges node.id key place) →
      node'.overrides.get? key = node.overrides.get? key := by
  obtain ⟨old, hold, houtline, -, hvalues⟩ := Spares.exists_node h hn'
  obtain rfl := List.inj_on_of_nodup_map hids hold hn ((id_of_outline houtline).symm.trans hid)
  refine ⟨houtline, fun key hno => hvalues key ?_⟩
  rintro ⟨place, hplace, hfeeds⟩
  exact hno place hplace hfeeds

/-- Handing on a value to a parameter whose value gives way, and that takes no files, puts it in the
place of that. -/
theorem Handed.exists_target {edge : Edge} {link : DataLink} {g g' : Graph} (h : Handed edge g g')
    (hids : (g.nodes.map (·.id)).Nodup) (hk : edge.kind = .data link)
    (hc : link.cardinality = .oneToOne) {target : Node} (ht : target ∈ g.nodes)
    (hid : target.id = edge.target)
    (hyields : ∀ source, g.node? edge.source = some source →
      Merge.Yields link [source.name, source.spec.id] (target.configured? link.targetProperty))
    (hfile : ∀ parameter ∈ target.parameter? link.targetProperty, parameter.isFile = false) :
    ∃ current t, propertyValue edge.source link.sourceProperty g = .ok current t ∧
      target.set link.targetProperty (Merge.pick link (current.getD link.value)) ∈ g'.nodes := by
  cases h with
  | order hk' => cases hk.symm.trans hk'
  | @value link' current source target' value t _ hk' hv hs ht' hmerge hset =>
    obtain rfl : link = link' := EdgeKind.data.inj (hk.symm.trans hk')
    obtain ⟨hin, hsame⟩ := id_of_node? ht'
    obtain rfl : target' = target :=
      List.inj_on_of_nodup_map hids hin ht (hsame.trans hid.symm)
    have hlocated : located source target' link (current.getD link.value) =
        current.getD link.value := by
      rw [located, if_neg]
      rw [Bool.not_eq_true, Option.any_eq_false]
      exact fun parameter hp => by rw [hfile parameter hp]
    rw [hlocated] at hmerge
    obtain rfl := Option.some.inj (merge_of_yields hc (hyields source hs) hmerge)
    refine ⟨current, t, hv, ?_⟩
    obtain ⟨memo, -, rfl⟩ := (moves_propertyValue _ _).of_ok hv
    rw [nodes_of_setNodeValue hset]
    exact List.mem_map.mpr ⟨target', ht, if_pos hid⟩

/-- The only edge that hands on a value to a parameter stands in one place. -/
theorem exists_place_of_fed {g : Graph} {id : NodeId} {key : String} {edge : Edge}
    (h : g.fed id key = [edge]) : ∃ place : Nat, g.edges[place]? = some edge ∧
      ∀ other, Feeds g.edges id key other → other = place := by
  obtain ⟨place, hplace, honly⟩ := exists_place_of_filter h
  refine ⟨place, hplace, ?_⟩
  rintro other ⟨found, hfound, hinto, hfills⟩
  exact honly other found hfound (Edge.into_iff.mpr ⟨hinto, hfills⟩)

section Configured

variable {job : Node} {key out : String} {source : NodeId} {items : List Value}
  {repeated filled : Graph} {u : Unit} (hw : repeated.WellFormed) (hm : repeated.Mirrored)
  (hd : Dealt job key source out items repeated) (h : configure repeated = .ok u filled)

include hw hm hd h

/-- Each repetition is handed what its share is by then, when everything has arrived at the source. -/
theorem handed_of_dealt
    (hfile : ∀ parameter ∈ job.spec.parameter? key, parameter.isFile = false)
    (hplain : ∀ item ∈ items, item.references = []) {place : Nat} {replica : Node}
    (hreplica : (repeated.nodesOf job.spec.id)[place]? = some replica) :
    ∃ (item : Value) (g t : Graph) (current : Option Value) (before later : List Nat),
      items[place]? = some item ∧ Midway repeated before g ∧
      propertyValue source out g = .ok current t ∧ Filled repeated.edges later g filled ∧
      InStep g filled ∧
      (∀ place ∈ later, ∀ key', ¬ Feeds repeated.edges source key' place) ∧
      ∀ node ∈ filled.nodes, node.id = replica.id → node.outline = replica.outline ∧
        node.overrides.get? key =
          some (Merge.pick ⟨.oneToOne, out, key, item, some place⟩ (current.getD item)) := by
  obtain ⟨item, hitem, hspec, -, hvalue, edge, hfed⟩ := hd.share place replica hreplica
  obtain ⟨at', hat, honce⟩ := exists_place_of_fed hfed
  obtain ⟨before, g, g', behind, hmid, hhanded, hready, hnew, hlast, happart, hfilled, hinStep⟩ :=
    moment_of_configure hw h hm hat
  have hin : replica ∈ repeated.nodes := List.mem_of_mem_filter (List.mem_of_getElem? hreplica)
  obtain ⟨now, hnow, hspared⟩ := exists_of_mem_left hmid.filled hin
  have hid : now.id = replica.id := id_of_outline hspared.outline
  have hkept : now.overrides.get? key = some item := by
    rw [hspared.values key, hvalue]
    rintro ⟨place, hplace, hfeeds⟩
    exact hnew (honce place hfeeds ▸ hplace)
  have hsame : now.spec = job.spec :=
    (spec_of_outline hspared.outline).trans hspec
  have hnowValue : now.configured? key = some item := by
    rw [Node.configured?, hkept, Option.some_or]
  obtain ⟨current, t, hv, htarget⟩ := hhanded.exists_target hmid.mirrored.ids rfl rfl hnow hid
    (fun source _ => hnowValue ▸ yields_of_references fun path hpath => by
      simp [hplain item (List.mem_of_getElem? hitem)] at hpath) (by
      rw [Node.parameter?, hsame]
      exact hfile)
  refine ⟨item, g, t, current, before, [at'] ++ behind, hitem, hmid, hv,
    (hhanded.filled hat).trans hfilled, trans_of InStep hhanded.inStep hinStep, ?_,
    fun node hn hnode => ?_⟩
  · rintro place hplace key' ⟨earlier, hearlier, harrives, -⟩
    have hbefore := hready place earlier hearlier harrives
    rcases List.mem_append.mp hplace with hplace | hplace
    · exact hnew (List.mem_singleton.mp hplace ▸ hbefore)
    · exact happart place hbefore hplace
  · obtain ⟨houtline, hvalues⟩ := hfilled.exists_node
      (hhanded.inStep hmid.mirrored).1.ids htarget hn (hnode.trans hid.symm)
    refine ⟨houtline.trans hspared.outline, ?_⟩
    rw [hvalues key fun place hplace hfeeds => ?_]
    · exact (Settings.get?_insert _ _ _ _).trans (if_pos rfl)
    · exact hlast (honce place (hid ▸ hfeeds) ▸ hplace)

end Configured

end Graph

end Pipework
