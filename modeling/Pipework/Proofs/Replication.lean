import Pipework.Proofs.ReplicaEdges
import Pipework.Proofs.TopologicalOrder

/-!
# Graphs after their nodes are repeated

A node that is repeated is taken out, with its edges, when its repetitions have theirs. Edges for
the order only are moved to every repetition. So a node that comes after another by definition
does so for any repetitions of the two.
-/

namespace Pipework

open Step

namespace Graph

/-- What an edge of repetitions was made from: an edge to the node they replace, or one from it,
or two of the repetitions. -/
inductive Copied (before : List Edge) (id : NodeId) (replicas : List NodeId) (edge : Edge) : Prop
  | inward (old : Edge) (he : old ∈ before) (hid : old.target = id)
      (hs : edge.source = old.source) (ht : edge.target ∈ replicas)
      (hk : ∀ key, edge.Fills key → old.Fills key)
  | outward (old : Edge) (he : old ∈ before) (hid : old.source = id)
      (hs : edge.source ∈ replicas) (ht : edge.target = old.target)
      (hk : ∀ key, edge.Fills key → old.Fills key)
  | chain (hs : edge.source ∈ replicas) (ht : edge.target ∈ replicas)
      (hne : edge.source ≠ edge.target)

section Separating

variable {R : Graph → Graph → Prop} [Std.Refl R] [IsTrans Graph R]
  (hread : ∀ g g', SameButMemo g g' → R g g') {replicas : List NodeId}

include hread

/-- Telling apart one output of repetitions moves a graph as giving them this value does. -/
theorem moves_separateOutput (serial : Bool) {name : String}
    (hset : ∀ id ∈ replicas, ∀ path, Moves R (setNodeValue id name (.str path))) :
    Moves R (separateOutput serial replicas name) := by
  have hvalues : Moves R (replicas.mapM fun replica => propertyValue replica name) :=
    .mapM fun replica _ => (moves_propertyValue replica name).mono hread
  refine hvalues.bind fun values => ?_
  dsimp only
  split
  · exact .pure _
  · refine .forM fun entry hentry => ?_
    have hmem : entry.1.1 ∈ replicas :=
      (List.of_mem_zip (List.fst_mem_of_mem_zipIdx hentry)).1
    split
    · exact hset _ hmem _
    · exact .pure _

/-- Only the outputs of repetitions that are single paths are told apart, and of these only those that
nothing is brought to. -/
theorem moves_separateOutputs_of {node : Node} (drivers : Drivers) (serial : Bool)
    (hset : ∀ id ∈ replicas, ∀ p ∈ node.spec.parameters, p.isOutput → p.isFile → ¬ p.isList →
      p.name ∉ drivers.properties → ∀ path, Moves R (setNodeValue id p.name (.str path))) :
    Moves R (separateOutputs node drivers serial replicas) := by
  refine .forM fun p hp => ?_
  obtain ⟨hp, htest⟩ := List.mem_filter.mp hp
  simp only [Bool.and_eq_true, Bool.not_eq_true'] at htest
  obtain ⟨⟨⟨houtput, hfile⟩, hlist⟩, hfree⟩ := htest
  exact moves_separateOutput hread serial fun id hid =>
    hset id hid p hp houtput hfile (by simp [hlist]) (by simpa using hfree)

/-- Telling their outputs apart moves a graph as giving values of single paths does. -/
theorem moves_separateOutputs {node : Node} (drivers : Drivers) (serial : Bool)
    (hset : ∀ id ∈ replicas, ∀ p ∈ node.spec.parameters, p.isOutput → p.isFile → ¬ p.isList →
      ∀ path, Moves R (setNodeValue id p.name (.str path))) :
    Moves R (separateOutputs node drivers serial replicas) :=
  moves_separateOutputs_of hread drivers serial fun id hid p hp houtput hfile hlist _ =>
    hset id hid p hp houtput hfile hlist

end Separating

/-- Finding what is shared out at a place only reads. -/
theorem moves_shareOut (node : Node) (drivers : Drivers) (place : Nat) :
    Moves SameButMemo (shareOut node drivers place) := by
  refine (Moves.foldlM (fun _ _ _ => ?_) _).bind fun _ => .foldlM (fun _ _ _ => ?_) _
  · exact (moves_ofOption _).bind fun _ => .pure _
  · exact (moves_ofOption _).bind fun _ => .pure _

/-- The repetition of a node at a place, with its values. -/
def replicaOf (node : Node) (serial : Bool) (place : Nat) (overrides : Settings) (id : NodeId) :
    Node :=
  { node with
    id, overrides
    name := node.name ++ "_" ++ replicaSuffix serial place
    isReplica := true
    resolved? := none }

/-- A repetition is added under the next handle, with the values that it gets. -/
theorem adds_of_addReplica {node : Node} {drivers : Drivers} {serial : Bool} {place : Nat}
    {g g' : Graph} {replica : NodeId} (h : addReplica node drivers serial place g =
      .ok replica g') :
    ∃ overrides t, shareOut node drivers place g = .ok overrides t ∧
      Adds (replicaOf node serial place overrides replica) g g' := by
  obtain ⟨overrides, t, hshare, h⟩ := bind_eq_ok.mp h
  obtain ⟨memo, -, rfl⟩ := (moves_shareOut node drivers place).of_ok hshare
  obtain ⟨-, hid, scope, rfl⟩ := adds_of_addNode h
  exact ⟨overrides, _, hshare, hid, scope, rfl⟩

/-- The graph with repetitions in the place of a node. -/
structure Repeats (node : Node) (replicas : List NodeId) (g g' : Graph) : Prop where
  /-- The repetitions have the job of the node, and the others stay. -/
  nodes : ∀ other ∈ g'.nodes,
    (∃ old ∈ g.nodes, old.id = other.id ∧ old.spec = other.spec ∧ old.id ≠ node.id) ∨
      other.id ∈ replicas ∧ other.spec = node.spec
  /-- The repetitions have handles that were still to be given out. -/
  fresh : ∀ replica ∈ replicas, g.nextId ≤ replica
  /-- Handles are given out one after another. -/
  nextId : g.nextId ≤ g'.nextId
  /-- No other node receives values for more keys. -/
  fills : ∀ edge ∈ g'.edges, edge.target ∉ replicas → ∀ key, edge.Fills key →
    ∃ old ∈ g.edges, old.target = edge.target ∧ old.Fills key
  /-- Handles fit together. -/
  wellFormed : g'.WellFormed
  /-- No edge leads back to where it starts. -/
  loopless : ∀ edge ∈ g'.edges, edge.source ≠ edge.target
  /-- Edges for the order only between others stay. -/
  stay : ∀ source target, .after source target ∈ g.edges → source ≠ node.id → target ≠ node.id →
    .after source target ∈ g'.edges
  /-- Edges for the order only to the node lead to all repetitions. -/
  inward : ∀ source, .after source node.id ∈ g.edges → ∀ replica ∈ replicas,
    .after source replica ∈ g'.edges
  /-- Edges for the order only from the node lead from all repetitions. -/
  outward : ∀ target, .after node.id target ∈ g.edges → ∀ replica ∈ replicas,
    .after replica target ∈ g'.edges

/-- Edges that join nodes join different ones if they do so when they are copied. -/
theorem Copied.ends {g : Graph} {node : Node} {replicas : List NodeId} {edge : Edge}
    (h : Copied g.edges node.id replicas edge) (hw : g.WellFormed)
    (hloop : ∀ edge ∈ g.edges, edge.source ≠ edge.target) (hn : node ∈ g.nodes)
    (hfresh : ∀ replica ∈ replicas, g.nextId ≤ replica) :
    ((edge.source ∈ g.nodes.map (·.id) ∨ edge.source ∈ replicas) ∧ edge.source ≠ node.id) ∧
      ((edge.target ∈ g.nodes.map (·.id) ∨ edge.target ∈ replicas) ∧ edge.target ≠ node.id) ∧
      edge.source ≠ edge.target := by
  have hid : node.id < g.nextId := hw.below _ (List.mem_map_of_mem hn)
  have hnew : ∀ replica ∈ replicas, replica ≠ node.id := fun replica hr =>
    (hid.trans_le (hfresh replica hr)).ne'
  cases h with
  | inward old he hold hs ht _ =>
    have hne : old.source ≠ node.id := fun heq => hloop old he (heq.trans hold.symm)
    have hin := (hw.closed old he).1
    have hlt := (hw.below _ hin).trans_le (hfresh _ ht)
    rw [hs]
    exact ⟨⟨.inl hin, hne⟩, ⟨.inr ht, hnew _ ht⟩, hlt.ne⟩
  | outward old he hold hs ht _ =>
    have hne : old.target ≠ node.id := fun heq => hloop old he (hold.trans heq.symm)
    have hin := (hw.closed old he).2
    have hlt := (hw.below _ hin).trans_le (hfresh _ hs)
    rw [ht]
    exact ⟨⟨.inr hs, hnew _ hs⟩, ⟨.inl hin, hne⟩, hlt.ne'⟩
  | chain hs ht hne => exact ⟨⟨.inr hs, hnew _ hs⟩, ⟨.inr ht, hnew _ ht⟩, hne⟩

/-- A node that was added as the repetition at one of these places. -/
def IsReplica (node : Node) (drivers : Drivers) (serial : Bool) (place : Nat) (added : Node) :
    Prop :=
  ∃ overrides t t', shareOut node drivers place t = .ok overrides t' ∧
    added = replicaOf node serial place overrides added.id

/-- There is one repetition for each place, in the order of the places. -/
theorem extends_of_addReplicas {node : Node} {drivers : Drivers} {serial : Bool}
    {places : List Nat} {g g' : Graph} {replicas : List NodeId}
    (h : places.mapM (addReplica node drivers serial) g = .ok replicas g') :
    ∃ added, Extends added g g' ∧ replicas = added.map (·.id) ∧
      List.Forall₂ (IsReplica node drivers serial) places added := by
  obtain ⟨added, hextends, hall, hids⟩ := @extends_of_mapM _ _ _ _
    (IsReplica node drivers serial) id
    (fun place _ t replica t' hstep => by
      obtain ⟨overrides, u, hshare, hadds⟩ := adds_of_addReplica hstep
      exact ⟨_, ⟨overrides, t, u, hshare, rfl⟩, rfl, hadds⟩) _ _ _ h
  exact ⟨added, hextends, by rwa [List.map_id] at hids, hall⟩

/-- A repetition is of the job of the node. -/
theorem IsReplica.spec {node added : Node} {drivers : Drivers} {serial : Bool} {place : Nat}
    (h : IsReplica node drivers serial place added) : added.spec = node.spec := by
  obtain ⟨overrides, t, t', -, heq⟩ := h
  rw [heq]
  rfl

/-- Repeating a node adds repetitions, tells their outputs apart, and gives them edges before the
node is taken out. -/
theorem replicate_eq_ok {g g' : Graph} {node : Node} {drivers : Drivers} {count : Nat} {u : Unit}
    (h : replicate node drivers count g = .ok u g') :
    ∃ serial added t t₁ t₂ edges, isSerial node = .ok serial ∧ Extends added g t ∧
      List.Forall₂ (IsReplica node drivers serial) (List.range count) added ∧
      separateOutputs node drivers serial (added.map (·.id)) t = .ok () t₁ ∧
      replicaEdges node drivers serial (t₁.incoming node.id) (t₁.outgoing node.id) 0 none
        (added.map (·.id)) t₁ = .ok edges t₂ ∧
      g' = (t₂.removeNode node.id).addEdges edges := by
  obtain ⟨serial, _, hat, h⟩ := bind_eq_ok.mp h
  obtain ⟨hserial, rfl⟩ := ofExcept_eq_ok.mp hat
  obtain ⟨replicas, t, hreplicas, h⟩ := bind_eq_ok.mp h
  obtain ⟨_, t₁, houtputs, h⟩ := bind_eq_ok.mp h
  obtain ⟨_, _, hget, h⟩ := bind_eq_ok.mp h
  obtain ⟨rfl, rfl⟩ := get_eq_ok.mp hget
  obtain ⟨edges, t₂, hedges, h⟩ := bind_eq_ok.mp h
  obtain rfl := modify_eq_ok.mp h
  obtain ⟨added, hextends, rfl, hadded⟩ := extends_of_addReplicas hreplicas
  exact ⟨serial, added, t, t₁, t₂, edges, hserial, hextends, hadded, houtputs, hedges, rfl⟩

/-- The graph with repetitions in the place of a node, and the edges of each of them. -/
structure Replicated (node : Node) (drivers : Drivers) (serial : Bool) (added : List Node)
    (parts : List (List Edge)) (g g' : Graph) : Prop where
  /-- The repetitions stand behind the other nodes. -/
  nodes : g'.nodes.map Node.outline =
    (g.nodes.filter (·.id ≠ node.id) ++ added).map Node.outline
  /-- They have the handles that were still to be given out. -/
  ids : added.map (·.id) = List.range' g.nextId added.length
  /-- Those are given out now. -/
  nextId : g'.nextId = g.nextId + added.length
  /-- They have the job of the node. -/
  specs : ∀ replica ∈ added, replica.spec = node.spec
  /-- What the node was repeated for came in along edges to it. -/
  traced : Traced g.edges node.id drivers
  /-- Edges that do not touch the node stay, and those of the repetitions stand behind them. -/
  edges : ∃ base, EdgesKept g.edges base ∧
    g'.edges = base.filter (!·.touches node.id) ++ parts.flatten
  /-- Each repetition has edges. -/
  length : parts.length = added.length
  /-- They are made from those of the node. -/
  owned : ∀ place replica own, (added.map (·.id))[place]? = some replica →
    parts[place]? = some own → Owned g.edges node.id drivers serial place
      (previousOf none (added.map (·.id)) place) replica own

/-- Edges that are kept end and start where they did. -/
theorem mem_placesWhere_of_kept {before : List Edge} {g : Graph} (hkept : EdgesKept before g.edges)
    {tip : Edge → NodeId} (htip : ∀ edge edge' : Edge, edge.Keeps edge' → tip edge' = tip edge)
    {id : NodeId} (place : Nat) : place ∈ g.placesWhere (tip · == id) ↔
      ∃ old, before[place]? = some old ∧ tip old = id := by
  rw [mem_placesWhere]
  constructor
  · rintro ⟨edge, hedge, htest⟩
    obtain ⟨old, hold, hkeeps⟩ := hkept.before hedge
    exact ⟨old, hold, htip old edge hkeeps ▸ by simpa using htest⟩
  · rintro ⟨old, hold, htest⟩
    obtain ⟨edge, hedge, hkeeps⟩ := hkept.behind hold
    exact ⟨edge, hedge, by simpa [htip old edge hkeeps] using htest⟩

/-- What repeating a node comes to: repetitions with their edges, and nothing else new. -/
theorem replicated_of_replicate {g t g' : Graph} {node : Node} {drivers : Drivers} {count : Nat}
    {u : Unit} (hid : node.id < g.nextId) (hf : Traced g.edges node.id drivers)
    (hr : Retains g t) (h : replicate node drivers count t = .ok u g') :
    ∃ serial added parts, isSerial node = .ok serial ∧
      List.Forall₂ (IsReplica node drivers serial) (List.range count) added ∧
      Replicated node drivers serial added parts g g' := by
  obtain ⟨serial, added, t₁, t₂, t₃, edges, hserial, hextends, hadded, houtputs, hedges, rfl⟩ :=
    replicate_eq_ok h
  have hsame : SameOutline t₁ t₂ := (moves_separateOutputs (fun _ _ h => h.sameOutline) _ _
    fun _ _ _ _ _ _ _ _ => moves_setNodeValue _ _ _).of_ok houtputs
  have hmemo : SameButMemo t₂ t₃ := (moves_replicaEdges _ _ _ _ _ _ _ _).of_ok hedges
  have houtline := trans_of SameOutline hsame hmemo.sameOutline
  have hspecs : ∀ replica ∈ added, replica.spec = node.spec := fun replica hreplica => by
    obtain ⟨place, -, hmade⟩ := exists_of_mem_right hadded hreplica
    exact hmade.spec
  obtain ⟨hids, scope, rfl⟩ := hextends
  rw [hr.nextId] at hids
  have hbase : EdgesKept g.edges t₂.edges := hsame.edges ▸ hr.edges
  obtain ⟨parts, rfl, hlength, howned⟩ := parts_of_replicaEdges hf hbase
    (mem_placesWhere_of_kept hbase fun _ _ hkeeps => hkeeps.2.1)
    (mem_placesWhere_of_kept hbase fun _ _ hkeeps => hkeeps.1) hedges
  refine ⟨serial, added, parts, hserial, hadded, ?_, hids, ?_, hspecs, hf,
    ⟨t₂.edges, hbase, by rw [← hmemo.edges]; rfl⟩, by simpa using hlength, ?_⟩
  · have hkept : added.filter (fun replica => decide (replica.id ≠ node.id)) = added :=
      List.filter_eq_self.mpr fun replica hreplica => by
        have hmem : replica.id ∈ added.map (·.id) := List.mem_map_of_mem hreplica
        rw [hids] at hmem
        exact decide_eq_true (hid.trans_le (List.mem_range'_1.mp hmem).1).ne'
    have hfilter : ∀ nodes : List Node,
        (nodes.filter fun other => decide (other.id ≠ node.id)).map Node.outline =
          (nodes.map Node.outline).filter fun other => decide (other.id ≠ node.id) :=
      fun nodes => by
        rw [List.filter_map]
        rfl
    calc ((t₃.nodes.filter fun other => decide (other.id ≠ node.id)).map Node.outline)
      _ = (t₃.nodes.map Node.outline).filter fun other => decide (other.id ≠ node.id) := hfilter _
      _ = ((t.nodes ++ added).map Node.outline).filter fun other => decide (other.id ≠ node.id) := by
        rw [houtline.map_nodes Node.outline fun _ => rfl]
      _ = _ := by
        rw [← hfilter, List.filter_append, hkept, List.map_append, List.map_append, hfilter,
          hr.nodes, hfilter]
  · rw [← hr.nextId]
    exact houtline.nextId
  · simpa using howned

/-- If there are edges for each repetition, an edge is among those of one of them. -/
theorem exists_part {added : List Node} {parts : List (List Edge)}
    (hlength : parts.length = added.length) {edge : Edge} (he : edge ∈ parts.flatten) :
    ∃ (place : Nat) (replica : NodeId) (own : List Edge),
      (added.map (·.id))[place]? = some replica ∧ parts[place]? = some own ∧ edge ∈ own := by
  obtain ⟨own, hown, he⟩ := List.mem_flatten.mp he
  obtain ⟨place, hplace⟩ := List.mem_iff_getElem?.mp hown
  have hlt : place < (added.map (·.id)).length := by
    rw [List.length_map, ← hlength]
    exact (List.getElem?_eq_some_iff.mp hplace).1
  exact ⟨place, _, own, List.getElem?_eq_getElem hlt, hplace, he⟩

section Replicating

variable {g g' : Graph} {node : Node} {drivers : Drivers} {serial : Bool} {added : List Node}
  {parts : List (List Edge)} (h : Replicated node drivers serial added parts g g')

include h

/-- Repetitions have new handles. -/
theorem Replicated.fresh {replica : NodeId} (hr : replica ∈ added.map (·.id)) :
    g.nextId ≤ replica := by
  rw [h.ids] at hr
  exact (List.mem_range'_1.mp hr).1

/-- Repetitions have different handles. -/
theorem Replicated.nodup : (added.map (·.id)).Nodup := h.ids ▸ List.nodup_range'

/-- Each edge of repetitions belongs to one of them. -/
theorem Replicated.exists_owned {edge : Edge} (he : edge ∈ parts.flatten) :
    ∃ place replica own, (added.map (·.id))[place]? = some replica ∧ edge ∈ own ∧
      own ∈ parts ∧ Owned g.edges node.id drivers serial place
        (previousOf none (added.map (·.id)) place) replica own := by
  obtain ⟨place, replica, own, hreplica, hplace, he⟩ := exists_part h.length he
  exact ⟨place, replica, own, hreplica, he, List.mem_of_getElem? hplace,
    h.owned place replica own hreplica hplace⟩

/-- Each repetition has edges of its own. -/
theorem Replicated.exists_own {place : Nat} {replica : NodeId}
    (hr : (added.map (·.id))[place]? = some replica) :
    ∃ own ∈ parts, Owned g.edges node.id drivers serial place
      (previousOf none (added.map (·.id)) place) replica own := by
  have hlt : place < parts.length := by
    rw [h.length, ← List.length_map (·.id)]
    exact (List.getElem?_eq_some_iff.mp hr).1
  exact ⟨_, List.getElem_mem hlt, h.owned place replica _ hr (List.getElem?_eq_getElem hlt)⟩

/-- The repetition before another one is a different one. -/
theorem Replicated.previous_ne {place : Nat} {replica previous : NodeId}
    (hr : (added.map (·.id))[place]? = some replica)
    (hp : previous ∈ previousOf none (added.map (·.id)) place) :
    previous ∈ added.map (·.id) ∧ previous ≠ replica := by
  cases place with
  | zero => cases hp
  | succ place =>
    refine ⟨List.mem_of_getElem? hp, ?_⟩
    rintro rfl
    have hsame := (List.getElem?_inj (List.getElem?_eq_some_iff.mp hp).1 h.nodup).mp
      (hp.trans hr.symm)
    omega

/-- Edges of repetitions are made from those of the node. -/
theorem Replicated.copied {edge : Edge} (he : edge ∈ parts.flatten) :
    Copied g.edges node.id (added.map (·.id)) edge := by
  obtain ⟨place, replica, own, hr, he, -, howned⟩ := h.exists_owned he
  have hmem := List.mem_of_getElem? hr
  cases howned.made edge he with
  | inward old hold hid hs ht hk => exact .inward old hold hid hs (ht ▸ hmem) hk
  | outward old hold hid hs ht hk => exact .outward old hold hid (hs ▸ hmem) ht hk
  | chain _ hs ht =>
    obtain ⟨hp, hne⟩ := h.previous_ne hr hs
    exact .chain hp (ht ▸ hmem) (ht ▸ hne)

/-- Each node was there before, or is a repetition. -/
theorem Replicated.exists_node {other : Node} (ho : other ∈ g'.nodes) :
    ∃ old, old.outline = other.outline ∧
      ((old ∈ g.nodes ∧ old.id ≠ node.id) ∨ old ∈ added) := by
  have hmem : other.outline ∈ g'.nodes.map Node.outline := List.mem_map_of_mem ho
  rw [h.nodes] at hmem
  obtain ⟨old, hold, houtline⟩ := List.mem_map.mp hmem
  refine ⟨old, houtline, (List.mem_append.mp hold).imp_left fun hfilter => ?_⟩
  simpa using List.mem_filter.mp hfilter

/-- The handles afterwards are those of the other nodes and those of the repetitions. -/
theorem Replicated.ids_eq : g'.nodes.map (·.id) =
    (g.nodes.filter (·.id ≠ node.id)).map (·.id) ++ added.map (·.id) := by
  have hmap := congrArg (List.map Node.id) h.nodes
  rw [List.map_map, List.map_map, List.map_append] at hmap
  exact hmap

/-- A handle is that of another node or that of a repetition. -/
theorem Replicated.mem_ids {id : NodeId} : id ∈ g'.nodes.map (·.id) ↔
    (id ∈ g.nodes.map (·.id) ∧ id ≠ node.id) ∨ id ∈ added.map (·.id) := by
  rw [h.ids_eq, List.mem_append]
  refine or_congr_left ⟨?_, ?_⟩
  · intro hid
    obtain ⟨old, hold, rfl⟩ := List.mem_map.mp hid
    obtain ⟨hold, hne⟩ := List.mem_filter.mp hold
    exact ⟨List.mem_map_of_mem hold, of_decide_eq_true hne⟩
  · rintro ⟨hid, hne⟩
    obtain ⟨old, hold, rfl⟩ := List.mem_map.mp hid
    exact List.mem_map_of_mem (List.mem_filter.mpr ⟨hold, decide_eq_true hne⟩)

variable (hw : g.WellFormed) (hloop : ∀ edge ∈ g.edges, edge.source ≠ edge.target)
  (hn : node ∈ g.nodes)

include hw hloop hn

/-- Handles still fit together when a node is repeated. -/
theorem Replicated.wellFormed : g'.WellFormed where
  below id hid := by
    rw [h.nextId]
    rcases h.mem_ids.mp hid with ⟨hid, -⟩ | hid
    · exact (hw.below id hid).trans_le (Nat.le_add_right _ _)
    · rw [h.ids] at hid
      exact (List.mem_range'_1.mp hid).2
  nodup := by
    rw [h.ids_eq]
    refine ((List.filter_sublist.map _).nodup hw.nodup).append h.nodup fun id hid hnew => ?_
    obtain ⟨old, hold, rfl⟩ := List.mem_map.mp hid
    have hlt := hw.below _ (List.mem_map_of_mem (List.mem_of_mem_filter hold))
    exact absurd (h.fresh hnew) (Nat.not_le.mpr hlt)
  closed edge he := by
    obtain ⟨base, hbase, hedges⟩ := h.edges
    rw [h.mem_ids, h.mem_ids]
    rcases List.mem_append.mp (hedges ▸ he) with he | he
    · obtain ⟨he, hfree⟩ := List.mem_filter.mp he
      obtain ⟨old, hold, hs, ht, -⟩ := hbase.exists_edge he
      obtain ⟨hins, hint⟩ := hw.closed old hold
      have hfree : edge.source ≠ node.id ∧ edge.target ≠ node.id := by
        simpa [Edge.touches] using hfree
      exact ⟨.inl ⟨hs ▸ hins, hfree.1⟩, .inl ⟨ht ▸ hint, hfree.2⟩⟩
    · obtain ⟨⟨hs, hs'⟩, ⟨ht, ht'⟩, -⟩ := (h.copied he).ends hw hloop hn fun _ => h.fresh
      exact ⟨hs.imp_left fun hin => ⟨hin, hs'⟩, ht.imp_left fun hin => ⟨hin, ht'⟩⟩

/-- Repeating a node leaves its repetitions in its place. -/
theorem Replicated.repeats : Repeats node (added.map (·.id)) g g' := by
  obtain ⟨base, hbase, hedges⟩ := h.edges
  have hfree : ∀ {source target}, source ≠ node.id → target ≠ node.id →
      (!(Edge.after source target).touches node.id) = true := fun hs ht => by
    simp [Edge.touches, Edge.after, hs, ht]
  refine ⟨fun other ho => ?_, fun _ => h.fresh, ?_, fun edge he hother key hkey => ?_,
    h.wellFormed hw hloop hn, fun edge he => ?_, fun source target he hs ht => ?_,
    fun source he replica hreplica => ?_, fun target he replica hreplica => ?_⟩
  · obtain ⟨old, houtline, hold⟩ := h.exists_node ho
    have hid : old.id = other.id := id_of_outline houtline
    have hspec : old.spec = other.spec := spec_of_outline houtline
    rcases hold with ⟨hold, hne⟩ | hnew
    · exact .inl ⟨old, hold, hid, hspec, hne⟩
    · exact .inr ⟨hid ▸ List.mem_map_of_mem hnew, hspec ▸ h.specs old hnew⟩
  · exact h.nextId ▸ Nat.le_add_right _ _
  · rcases List.mem_append.mp (hedges ▸ he) with he | he
    · obtain ⟨old, hold, -, ht, hk⟩ := hbase.exists_edge (List.mem_of_mem_filter he)
      exact ⟨old, hold, ht.symm, hk key hkey⟩
    · cases h.copied he with
      | inward old hold hid hs ht _ => exact absurd ht hother
      | outward old hold hid hs ht hk => exact ⟨old, hold, ht.symm, hk key hkey⟩
      | chain hs ht hne => exact absurd ht hother
  · rcases List.mem_append.mp (hedges ▸ he) with he | he
    · obtain ⟨old, hold, hs, ht, -⟩ := hbase.exists_edge (List.mem_of_mem_filter he)
      rw [hs, ht]
      exact hloop old hold
    · exact ((h.copied he).ends hw hloop hn fun _ => h.fresh).2.2
  · rw [hedges]
    exact List.mem_append_left _ (List.mem_filter.mpr ⟨hbase.mem_after he, hfree hs ht⟩)
  · obtain ⟨place, hplace⟩ := List.mem_iff_getElem?.mp hreplica
    obtain ⟨own, hown, howned⟩ := h.exists_own hplace
    obtain ⟨other, hother⟩ := List.mem_iff_getElem?.mp he
    obtain ⟨edge, hedge, hs, ht, hk⟩ :=
      howned.inward other _ hother rfl (h.traced.not_consumes hother rfl)
    have hafter : edge = .after source replica := Edge.eq_after hs ht (hk rfl)
    rw [hedges]
    exact List.mem_append_right _ (List.mem_flatten.mpr ⟨own, hown, hafter ▸ hedge⟩)
  · obtain ⟨place, hplace⟩ := List.mem_iff_getElem?.mp hreplica
    obtain ⟨own, hown, howned⟩ := h.exists_own hplace
    obtain ⟨edge, hedge, hs, ht, hk⟩ := howned.outward _ he rfl
    have hafter : edge = .after replica target := Edge.eq_after hs ht (hk rfl)
    rw [hedges]
    exact List.mem_append_right _ (List.mem_flatten.mpr ⟨own, hown, hafter ▸ hedge⟩)

end Replicating

/-- Repeating a node puts repetitions in its place. -/
theorem repeats_of_replicate {g t t' : Graph} {node : Node} {drivers : Drivers} {count : Nat}
    {u : Unit} (hw : g.WellFormed) (hloop : ∀ edge ∈ g.edges, edge.source ≠ edge.target)
    (hn : node ∈ g.nodes) (hf : Traced g.edges node.id drivers) (hr : Retains g t)
    (h : replicate node drivers count t = .ok u t') : ∃ replicas, Repeats node replicas g t' := by
  obtain ⟨serial, added, parts, -, -, hreplicated⟩ :=
    replicated_of_replicate (hw.below _ (List.mem_map_of_mem hn)) hf hr h
  exact ⟨_, hreplicated.repeats hw hloop hn⟩

/-- What repeating nodes keeps of a graph of these jobs. -/
structure Orderly (jobs : List Job) (graph : Graph) : Prop where
  /-- Handles fit together. -/
  wellFormed : graph.WellFormed
  /-- No edge leads back to where it starts. -/
  loopless : ∀ edge ∈ graph.edges, edge.source ≠ edge.target
  /-- Each node comes after those that its job comes after by definition. -/
  linked : graph.Linked
  /-- Every node has one of the jobs. -/
  specs : ∀ node ∈ graph.nodes, node.spec ∈ jobs
  /-- No job comes after itself by definition. -/
  apart : ∀ node ∈ graph.nodes, node.spec.id ∉ node.spec.after

/-- While it is found out what a node is repeated for, nodes stay in the order of their jobs. -/
theorem Retains.orderly {jobs : List Job} {g g' : Graph} (h : Retains g g')
    (ho : g.Orderly jobs) : g'.Orderly jobs where
  wellFormed := h.wellFormed ho.wellFormed
  loopless edge' he' := by
    obtain ⟨edge, he, hs, ht, -⟩ := h.edges.exists_edge he'
    rw [hs, ht]
    exact ho.loopless edge he
  linked first hfirst second hsecond hafter := by
    obtain ⟨one, hone, hid₁, hspec₁⟩ := h.exists_node hfirst
    obtain ⟨two, htwo, hid₂, hspec₂⟩ := h.exists_node hsecond
    rw [← hspec₁, ← hspec₂] at hafter
    rw [← hid₁, ← hid₂]
    exact h.edges.mem_after (ho.linked one hone two htwo hafter)
  specs node hn := by
    obtain ⟨old, hold, -, hspec⟩ := h.exists_node hn
    exact hspec ▸ ho.specs old hold
  apart node hn := by
    obtain ⟨old, hold, -, hspec⟩ := h.exists_node hn
    exact hspec ▸ ho.apart old hold

/-- When a node is repeated, nodes stay in the order of their jobs. -/
theorem Repeats.orderly {jobs : List Job} {node : Node} {replicas : List NodeId} {g g' : Graph}
    (h : Repeats node replicas g g') (hn : node ∈ g.nodes) (ho : g.Orderly jobs) :
    g'.Orderly jobs where
  wellFormed := h.wellFormed
  loopless := h.loopless
  linked first hfirst second hsecond hafter := by
    rcases h.nodes first hfirst with ⟨one, hone, hid₁, hspec₁, hne₁⟩ | ⟨hid₁, hspec₁⟩ <;>
      rcases h.nodes second hsecond with ⟨two, htwo, hid₂, hspec₂, hne₂⟩ | ⟨hid₂, hspec₂⟩
    · rw [← hspec₁, ← hspec₂] at hafter
      rw [← hid₁, ← hid₂]
      exact h.stay _ _ (ho.linked one hone two htwo hafter) hne₁ hne₂
    · rw [← hspec₁, hspec₂] at hafter
      rw [← hid₁]
      exact h.inward _ (ho.linked one hone node hn hafter) _ hid₂
    · rw [hspec₁, ← hspec₂] at hafter
      rw [← hid₂]
      exact h.outward _ (ho.linked node hn two htwo hafter) _ hid₁
    · rw [hspec₁, hspec₂] at hafter
      exact absurd hafter (ho.apart node hn)
  specs other hother := by
    rcases h.nodes other hother with ⟨old, hold, -, hspec, -⟩ | ⟨-, hspec⟩
    · exact hspec ▸ ho.specs old hold
    · exact hspec ▸ ho.specs node hn
  apart other hother := by
    rcases h.nodes other hother with ⟨old, hold, -, hspec, -⟩ | ⟨-, hspec⟩
    · exact hspec ▸ ho.apart old hold
    · exact hspec ▸ ho.apart node hn

/-- What the turn of a node comes to. -/
inductive Turned (id : NodeId) (g : Graph) : Graph → Prop
  | absent (hn : g.node? id = none) : Turned id g g
  | idle {node : Node} {plan : Drivers} {t : Graph} (hn : g.node? id = some node)
      (hf : drivers id g = .ok plan t) (hs : plan.size? node.name = .ok none) : Turned id g t
  | collapsed {node : Node} {plan : Drivers} {t t' : Graph} (hn : g.node? id = some node)
      (hf : drivers id g = .ok plan t) (hs : plan.size? node.name = .ok (some 1))
      (hc : collapse id plan t = .ok () t') : Turned id g t'
  | replaced {node : Node} {plan : Drivers} {t t' : Graph} {count : Nat}
      (hn : g.node? id = some node) (hf : drivers id g = .ok plan t)
      (hs : plan.size? node.name = .ok (some count)) (hne : count ≠ 1)
      (hr : replicate node plan count t = .ok () t') : Turned id g t'

/-- In its turn a node is left alone, takes its one value or is repeated. -/
theorem turned_of_splitNode {id : NodeId} {g g' : Graph} {u : Unit}
    (h : splitNode id g = .ok u g') : Turned id g g' := by
  obtain ⟨_, _, hget, h⟩ := bind_eq_ok.mp h
  obtain ⟨rfl, rfl⟩ := get_eq_ok.mp hget
  cases hnode : g.node? id with
  | none =>
    simp only [hnode] at h
    obtain ⟨-, rfl⟩ := pure_eq_ok.mp h
    exact .absent hnode
  | some node =>
    simp only [hnode] at h
    obtain ⟨plan, t, hfound, h⟩ := bind_eq_ok.mp h
    obtain ⟨size?, _, hat, h⟩ := bind_eq_ok.mp h
    obtain ⟨hsize, rfl⟩ := ofExcept_eq_ok.mp hat
    match size?, hsize, h with
    | none, hsize, h =>
      obtain ⟨-, rfl⟩ := pure_eq_ok.mp h
      exact .idle hnode hfound hsize
    | some 1, hsize, h => exact .collapsed hnode hfound hsize h
    | some 0, hsize, h => exact .replaced hnode hfound hsize Nat.zero_ne_one h
    | some (count + 2), hsize, h => exact .replaced hnode hfound hsize (by simp) h

/-- A node that is found under a handle is there, and has it. -/
theorem id_of_node? {g : Graph} {id : NodeId} {node : Node} (h : g.node? id = some node) :
    node ∈ g.nodes ∧ node.id = id :=
  ⟨List.mem_of_find?_eq_some h, by simpa using List.find?_some h⟩

/-- The turn of a node leaves nodes in the order of their jobs. -/
theorem orderly_splitNode {jobs : List Job} {id : NodeId} {g g' : Graph} {u : Unit}
    (ho : g.Orderly jobs) (h : splitNode id g = .ok u g') : g'.Orderly jobs := by
  cases turned_of_splitNode h with
  | absent _ => exact ho
  | idle _ hf _ => exact ((moves_drivers id).of_ok hf).retains.orderly ho
  | collapsed _ hf _ hc =>
    refine (trans_of Retains ((moves_drivers id).of_ok hf).retains ?_).orderly ho
    exact (moves_collapse _ _).of_ok hc
  | replaced hn hf _ _ hr =>
    obtain ⟨hin, rfl⟩ := id_of_node? hn
    obtain ⟨replicas, hrepeats⟩ := repeats_of_replicate ho.wellFormed ho.loopless hin
      (traced_of_drivers hf) ((moves_drivers _).of_ok hf).retains hr
    exact hrepeats.orderly hin ho

/-- Nodes are repeated one after another, in an order of the graph. -/
theorem split_eq_ok {g g' : Graph} {u : Unit} (h : split g = .ok u g') :
    ∃ order, g.topologicalOrder = .ok order ∧ order.forM (Graph.splitNode ·.id) g = .ok u g' := by
  obtain ⟨_, _, hget, h⟩ := bind_eq_ok.mp h
  obtain ⟨rfl, rfl⟩ := get_eq_ok.mp hget
  obtain ⟨order, _, hat, h⟩ := bind_eq_ok.mp h
  obtain ⟨horder, rfl⟩ := ofExcept_eq_ok.mp hat
  exact ⟨order, horder, h⟩

/-- A graph that can be put in order and links its nodes is as it should be. -/
theorem orderly_of_topologicalOrder {jobs : List Job} {g : Graph} {order : List Node}
    (hw : g.WellFormed) (hlinked : g.Linked) (hspecs : ∀ node ∈ g.nodes, node.spec ∈ jobs)
    (horder : g.topologicalOrder = .ok order) : g.Orderly jobs := by
  have hacyclic := (rising_of_topologicalOrder hw.closed horder).acyclic
  have hloopless : ∀ edge ∈ g.edges, edge.source ≠ edge.target := fun edge he heq =>
    hacyclic edge.source (.single ⟨edge, he, rfl, heq.symm⟩)
  exact ⟨hw, hloopless, hlinked, hspecs, fun node hn hafter =>
    hloopless _ (hlinked node hn node hn hafter) rfl⟩

/-- It stays so when nodes are repeated. -/
theorem orderly_split {jobs : List Job} {g g' : Graph} {u : Unit} (hw : g.WellFormed)
    (hlinked : g.Linked) (hspecs : ∀ node ∈ g.nodes, node.spec ∈ jobs)
    (h : split g = .ok u g') : g'.Orderly jobs := by
  obtain ⟨order, horder, h⟩ := split_eq_ok h
  exact forM_keeps (fun node _ t v t' ht hstep => orderly_splitNode ht hstep)
    (orderly_of_topologicalOrder hw hlinked hspecs horder) h

end Graph

end Pipework
