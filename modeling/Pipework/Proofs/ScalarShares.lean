import Pipework.Proofs.FlatGraphs
import Pipework.Proofs.KeptShares

/-!
# What repetitions are given

Where no list holds a list, the elements that are shared out among the repetitions of a node are
scalars. So all that nodes have of their own after nodes were repeated are scalars, as the definition
gives them nothing of their own.
-/

namespace Pipework

open Step Resolve Value

/-- All that a node is repeated for are scalars. -/
structure Graph.Drivers.Scalars (plan : Graph.Drivers) : Prop where
  /-- The elements of lists that come in along edges. -/
  shares : ∀ entry ∈ plan.shares, ∀ share ∈ entry.2, share.value.isList = false
  /-- The elements of lists that it has. -/
  lists : ∀ entry ∈ plan.lists, ∀ item ∈ entry.2, item.isList = false

namespace Graph

/-- Values of the nodes' own are scalars, and no list holds a list. -/
structure Level (g : Graph) : Prop where
  /-- The graph mirrors its nodes. -/
  mirrored : g.Mirrored
  /-- No list holds a list. -/
  flat : g.scope.Flat
  /-- Values of the nodes' own are scalars. -/
  own : ∀ node ∈ g.nodes, ∀ key v, node.overrides.get? key = some v → v.isList = false

/-- With no other nodes a graph stays level. -/
theorem Level.of_nodes {g g' : Graph} (h : g.Level) (hstep : InStep g g') (hflat : g'.scope.Flat)
    (hnodes : ∀ node ∈ g'.nodes, node ∈ g.nodes) : g'.Level where
  mirrored := (hstep h.mirrored).1
  flat := hflat
  own node hn := h.own node (hnodes node hn)

/-- A graph stays level when values are read. -/
theorem SameButMemo.level {g g' : Graph} (h : SameButMemo g g') (hg : g.Level) : g'.Level := by
  refine hg.of_nodes h.inStep (h.flat hg.flat) ?_
  obtain ⟨memo, -, rfl⟩ := h
  exact fun _ => id

/-- A graph stays level while it is found out what a node is repeated for. -/
theorem Plans.level {g g' : Graph} (h : Plans g g') (hg : g.Level) : g'.Level :=
  hg.of_nodes h.inStep (h.flat hg.flat) fun _ hn => h.nodes ▸ hn

/-- A graph stays level when a node is taken out and edges are added. -/
theorem level_replaceEdges (g : Graph) (id : NodeId) (edges : List Edge) :
    Keeps Level g ((g.removeNode id).addEdges edges) := fun hg =>
  hg.of_nodes (inStep_replaceEdges g id edges) hg.flat fun _ => List.mem_of_mem_filter

/-- A graph stays level when a node is given a scalar. -/
theorem level_setNodeValue {value : Value} (hvalue : value.isList = false) (id : NodeId)
    (key : String) : Moves (Keeps Level) (setNodeValue id key value) := by
  intro g hg
  obtain ⟨g', hset, hstep⟩ := setNodeValue_spec hg.mirrored id key value
  rw [hset]
  refine ⟨(hstep hg.mirrored).1,
    flat_of_setNodeValue hg.mirrored hg.flat (isFlat_of_scalar hvalue) hset, fun node hn k v hv => ?_⟩
  change node ∈ g'.nodes at hn
  rw [nodes_of_setNodeValue hset] at hn
  obtain ⟨old, hold, rfl⟩ := List.mem_map.mp hn
  split at hv
  · change (old.overrides.insert key value).get? k = some v at hv
    rw [Settings.get?_insert] at hv
    split at hv
    · exact Option.some.inj hv ▸ hvalue
    · exact hg.own old hold k v hv
  · exact hg.own old hold k v hv

/-- What a repetition gets of its own are scalars. -/
theorem isList_of_shareOut {node : Node} {plan : Drivers} {place : Nat} {settings : Settings}
    {g g' : Graph} (hplan : plan.Scalars)
    (hown : ∀ key v, node.overrides.get? key = some v → v.isList = false)
    (h : shareOut node plan place g = .ok settings g') {key : String} {v : Value}
    (hv : settings.get? key = some v) : v.isList = false := by
  obtain ⟨withLists, t, hlists, hshares⟩ := bind_eq_ok.mp h
  rcases get?_of_layOver (f := Share.value) hshares key with
    ⟨-, hsame⟩ | ⟨shares, share, hmem, hshare, hvalue⟩
  · rcases get?_of_layOver (f := id) hlists key with
      ⟨-, hold⟩ | ⟨items, item, hmem, hitem, hvalue⟩
    · exact hown key v (hold.symm.trans (hsame.symm.trans hv))
    · obtain rfl := Option.some.inj (hvalue.symm.trans (hsame.symm.trans hv))
      exact hplan.lists _ hmem _ (List.mem_of_getElem? hitem)
  · obtain rfl := Option.some.inj (hvalue.symm.trans hv)
    exact hplan.shares _ hmem _ (List.mem_of_getElem? hshare)

/-- A repetition has what its node had, unless it gets something else. -/
theorem overrides_of_shareOut {node : Node} {plan : Drivers} {place : Nat} {settings : Settings}
    {g g' : Graph} (h : shareOut node plan place g = .ok settings g') {key : String}
    (hnone : settings.get? key = none) :
    node.overrides.get? key = none ∧ key ∉ plan.lists.map (·.1) := by
  obtain ⟨withLists, t, hlists, hshares⟩ := bind_eq_ok.mp h
  rcases get?_of_layOver (f := Share.value) hshares key with
    ⟨-, hsame⟩ | ⟨shares, share, -, -, hvalue⟩
  · rcases get?_of_layOver (f := id) hlists key with ⟨hno, hold⟩ | ⟨items, item, -, -, hvalue⟩
    · exact ⟨hold.symm.trans (hsame.symm.trans hnone), hno⟩
    · rw [← hsame, hnone] at hvalue
      cases hvalue
  · rw [hnone] at hvalue
    cases hvalue

/-- A graph stays level when a repetition is added that is given scalars. -/
theorem level_addReplica {node : Node} {plan : Drivers} {serial : Bool} {place : Nat}
    {replica : NodeId} {g g' : Graph} (hplan : plan.Scalars)
    (hown : ∀ key v, node.overrides.get? key = some v → v.isList = false)
    (hflat : ∀ key v, node.configured? key = some v → v.isFlat = true)
    (h : addReplica node plan serial place g = .ok replica g') : Keeps Level g g' := by
  intro hg
  obtain ⟨overrides, t, hshare, hadd⟩ := bind_eq_ok.mp h
  have ht : t.Level := ((moves_shareOut node plan place).of_ok hshare).level hg
  obtain ⟨-, -, scope, hg'⟩ := adds_of_addNode hadd
  refine ⟨(inStep_addNode hadd ht.mirrored).1, flat_of_addNode ht.mirrored ht.flat ?_ hadd,
    fun other ho key v hv => ?_⟩
  · intro key v hv
    rcases Option.or_eq_some_iff.mp hv with hgiven | ⟨hnone, hdeclared⟩
    · exact isFlat_of_scalar (isList_of_shareOut hplan hown hshare hgiven)
    · refine hflat key v ?_
      rw [Node.configured?, (overrides_of_shareOut hshare hnone).1, Option.none_or]
      exact hdeclared
  · rw [hg'] at ho
    rcases List.mem_append.mp ho with ho | ho
    · exact ht.own other ho key v hv
    · obtain rfl := List.mem_singleton.mp ho
      exact isList_of_shareOut hplan hown hshare hv

section Planning

variable {g g' : Graph} {plan plan' : Drivers}

/-- The elements of a list that an edge brings are scalars. -/
theorem scalars_of_addDriver {place : Nat} (hg : g.scope.Flat)
    (hlink : ∀ edge ∈ g.edges, ∀ link, edge.kind = .data link → link.value.isFlat = true)
    (hplan : plan.Scalars) (h : addDriver plan place g = .ok plan' g') : plan'.Scalars := by
  obtain ⟨edge, hedge, hnoted⟩ := noted_of_addDriver h
  cases hnoted with
  | order _ => exact hplan
  | list _ _ => exact hplan
  | empty _ _ _ _ => exact hplan
  | strand _ _ _ => exact ⟨hplan.shares, hplan.lists⟩
  | @shares link current _ hk _ hv _ =>
    have hflat : (current.getD link.value).isFlat = true := by
      cases current with
      | none => exact hlink edge (List.mem_of_getElem? hedge) link hk
      | some v => exact flat_of_propertyValue hg hv v rfl
    have hnew : ∀ share ∈ sharesAt place edge.source link.sourceProperty
        (current.getD link.value).toList, share.value.isList = false := by
      intro share hshare
      obtain ⟨item, hitem, rfl⟩ := List.mem_map.mp hshare
      exact isList_of_mem_toList hflat (List.fst_mem_of_mem_zipIdx hitem)
    refine ⟨fun entry hentry share hshare => ?_, hplan.lists⟩
    rcases mem_of_mem_addShares hentry hshare with ⟨-, hshare⟩ | ⟨old, hold, -, hshare⟩
    · exact hnew share hshare
    · exact hplan.shares old hold share hshare

/-- What the lists of a node are shared out in are scalars. -/
theorem isList_of_listDrivers {node : Node} {linked : List String} {parameters : List Parameter}
    {found : List (String × List Value)} (hg : g.scope.Flat) (hnode : g.node? node.id = some node)
    (h : listDrivers node.id linked parameters g = .ok found g') :
    ∀ entry ∈ found, ∀ item ∈ entry.2, item.isList = false := by
  intro entry hentry item hitem
  obtain ⟨leaf, -, -, hlookup⟩ := listDrivers_spec hnode h entry hentry
  have hflat := ((moves_listDrivers _ _ _).of_ok h).flat hg
  exact isFlat_list.mp (hflat.memory leaf _ hlookup) item hitem

end Planning

section Replacing

variable {node : Node} {plan : Drivers} {g g' : Graph}

/-- A graph stays level when a node is repeated. -/
theorem level_replicate {count : Nat} {u : Unit} (hg : g.Level) (hn : node ∈ g.nodes)
    (hplan : plan.Scalars) (h : replicate node plan count g = .ok u g') : g'.Level :=
  relates_replicate (R := Keeps Level) (fun _ _ hsame => hsame.level) level_replaceEdges
    (fun _ _ _ _ _ => level_addReplica hplan (hg.own node hn)
      fun _ _ => flat_configured hg.mirrored hg.flat hn)
    (fun id p _ _ _ _ path =>
      level_setNodeValue (show (Value.str path).isList = false from rfl) id p.name) h hg

/-- A graph stays level when a node takes its one value. -/
theorem level_collapse {id : NodeId} (hplan : plan.Scalars) :
    Moves (Keeps Level) (collapse id plan) :=
  moves_collapse_of (R := Keeps Level) (fun _ _ h => h.level) fun entry hentry item hitem =>
    level_setNodeValue (hplan.lists entry hentry item hitem) id entry.1

end Replacing

/-- The graph of a pipeline without lists in lists is level as it is built. -/
theorem level_build {pipeline : Pipeline} {built : Graph} (hpipeline : pipeline.Flat)
    (h : build pipeline = .ok built) : built.Level where
  mirrored := mirrored_build h
  flat := flat_build hpipeline h
  own node hn key v hv := by
    rw [(nodes_of_build h node hn).2.2.1, Settings.get?_empty] at hv
    cases hv

end Graph

end Pipework
