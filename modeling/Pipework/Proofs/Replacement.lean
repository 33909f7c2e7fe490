import Pipework.Proofs.Laying
import Pipework.Proofs.Narrowing

/-!
# What is left behind when a node is repeated

A node that is brought several values for each parameter is taken out, and there are as many
repetitions of it as values. Each of them has its element of every list. Its edges are those that the
node had, save that of the edges which bring values it has only those with its own, and that it may
have to wait for the repetition before and take over values of it.
-/

namespace Pipework

open Step

/-- The edge as it ends at another node. -/
def Edge.toward (edge : Edge) (target : NodeId) : Edge := { edge with target }

namespace Graph

/-! ### The edges of a repetition -/

/-- An edge that started at a node, as it starts at a repetition and hands on the value of that. -/
def handedOn (last : Graph) (replica : NodeId) (edge : Edge) : Edge :=
  match edge.kind with
  | .after => { edge with source := replica }
  | .data link => .data replica edge.target
      { link with value := (last.valueOf? replica link.sourceProperty).getD link.value }

/-- The edges by which a repetition takes over values of the one before. -/
def carried (last : Graph) (previous current : NodeId) (parameters : List Parameter) : List Edge :=
  parameters.filterMap fun p => p.expandValue?.bind fun text =>
    (last.valueOf? previous (carriedProperty text)).map
      (carryEdge previous current (carriedProperty text) p.name)

/-- The edges by which it waits for the one before, if it has to. -/
def chained (last : Graph) (node : Node) (serial : Bool) (previous? : Option NodeId)
    (current : NodeId) : List Edge :=
  match serial, previous? with
  | true, some previous =>
    .after previous current :: last.carried previous current node.spec.parameters
  | _, _ => []

/-- The edges of the repetition at a place. They are made from the edges of a graph, and hand on what
values stand for in the last one. -/
def edgesOf (asked last : Graph) (node : Node) (plan : Drivers) (serial : Bool) (place : Nat)
    (previous? : Option NodeId) (replica : NodeId) : List Edge :=
  plan.shares.filterMap (fun entry => entry.2[place]?.map (shareEdge · replica entry.1)) ++
  plan.strands.filterMap (fun strand =>
    (strand.edges[place]?.bind (asked.edges[·]?)).map (·.toward replica)) ++
  ((asked.arrivals node.id).filter (!plan.consumes ·.2)).map (·.1.toward replica) ++
  (asked.edges.filter (·.source == node.id)).map (last.handedOn replica) ++
  last.chained node serial previous? replica

section Edges

variable {asked last t t' : Graph} {plan : Drivers} {place : Nat} {replica : NodeId}
  {edges : List Edge}

/-- A repetition gets an edge for each list that comes in, with the element at its place. -/
theorem shareEdges_eq (h : shareEdges plan place replica t = .ok edges t') :
    edges = plan.shares.filterMap fun entry =>
      entry.2[place]?.map (shareEdge · replica entry.1) := by
  refine (filterMap_of_forall₂ (forall₂_of_shareEdges h) ?_).symm
  rintro entry - edge ⟨share, hshare, rfl⟩
  rw [hshare]
  rfl

/-- A repetition gets the edge at its place of each strand. -/
theorem strandEdges_eq (hedges : t.edges = asked.edges)
    (h : strandEdges plan place replica t = .ok edges t') :
    edges = plan.strands.filterMap fun strand =>
      (strand.edges[place]?.bind (asked.edges[·]?)).map (·.toward replica) := by
  refine (filterMap_of_forall₂ (forall₂_of_strandEdges h) ?_).symm
  rintro strand - edge ⟨other, old, hother, hold, rfl⟩
  rw [hother, Option.bind_some, ← hedges, hold]
  rfl

/-- A repetition gets all edges to the node that bring nothing to be shared out. -/
theorem keptEdges_eq {id : NodeId} (hedges : t.edges = asked.edges)
    (h : keptEdges plan (asked.incoming id) replica t = .ok edges t') :
    edges = ((asked.arrivals id).filter (!plan.consumes ·.2)).map (·.1.toward replica) := by
  have hall := forall₂_of_keptEdges h
  rw [incoming_eq, List.filter_map, List.forall₂_map_left_iff, hedges] at hall
  rw [← List.filterMap_eq_map]
  refine (filterMap_of_forall₂ hall ?_).symm
  rintro ⟨old, place⟩ hentry edge ⟨current, hcurrent, rfl⟩
  have hold := (mem_arrivals.mp (List.mem_of_mem_filter hentry)).1
  obtain rfl := Option.some.inj (hold.symm.trans hcurrent)
  rfl

/-- Edges from the node are moved one after another. -/
theorem outgoingEdges_eq_of {places : List Nat} (hedges : t.edges = asked.edges)
    (hlast : Recollects last replica t') (h : outgoingEdges places replica t = .ok edges t') :
    edges = places.filterMap fun place => asked.edges[place]?.map (last.handedOn replica) := by
  rw [outgoingEdges_eq] at h
  induction places generalizing t edges with
  | nil =>
    obtain ⟨rfl, -⟩ := pure_eq_ok.mp h
    rfl
  | cons place places ih =>
    rw [List.mapM_cons] at h
    obtain ⟨edge, u, hstep, h⟩ := bind_eq_ok.mp h
    obtain ⟨others, u', hothers, h⟩ := bind_eq_ok.mp h
    obtain ⟨rfl, rfl⟩ := pure_eq_ok.mp h
    have hrest : SameButMemo u u' :=
      (Moves.mapM fun other _ => moves_outgoingEdge replica other).of_ok hothers
    have hu : u.edges = asked.edges := ((moves_outgoingEdge _ _).of_ok hstep).edges.trans hedges
    obtain ⟨old, _, hat, hstep⟩ := bind_eq_ok.mp hstep
    obtain ⟨hold, rfl⟩ := edgeAt_eq_ok.mp hat
    have hmade : edge = last.handedOn replica old := by
      cases hk : old.kind with
      | after =>
        simp only [hk] at hstep
        obtain ⟨rfl, -⟩ := pure_eq_ok.mp hstep
        simp only [handedOn, hk]
      | data link =>
        simp only [hk] at hstep
        obtain ⟨value?, _, hv, hstep⟩ := bind_eq_ok.mp hstep
        obtain ⟨rfl, rfl⟩ := pure_eq_ok.mp hstep
        simp only [handedOn, hk, (hlast.of_sameButMemo hrest).valueOf? hv]
    rw [hedges] at hold
    rw [List.filterMap_cons, hold, ih hu hothers]
    simp only [Option.map_some, hmade]

/-- A repetition gets an edge for each value that it takes over from the one before. -/
theorem carryEdges_eq {previous : NodeId} {parameters : List Parameter}
    (hlast : Recollects last previous t')
    (h : carryEdges previous replica parameters t = .ok edges t') :
    edges = last.carried previous replica parameters := by
  induction parameters generalizing t edges with
  | nil =>
    obtain ⟨rfl, -⟩ := pure_eq_ok.mp h
    rfl
  | cons parameter parameters ih =>
    obtain ⟨first, others, u, rfl, -, hothers, hfirst⟩ := carryEdges_cons_eq_ok h
    have hrest : SameButMemo u t' := (moves_carryEdges _ _ _).of_ok hothers
    rw [ih hothers, carried, carried, List.filterMap_cons]
    obtain ⟨hnone, rfl⟩ | ⟨text, value?, hexpand, hv, rfl⟩ := hfirst
    · simp [hnone]
    · rw [hexpand, Option.bind_some, (hlast.of_sameButMemo hrest).valueOf? hv]
      cases value? <;> rfl

/-- A repetition that waits gets an edge from the one before, and those for values it takes over. -/
theorem chainEdges_eq {node : Node} {serial : Bool} {previous? : Option NodeId}
    (hlast : ∀ previous ∈ previous?, Recollects last previous t')
    (h : chainEdges node serial previous? replica t = .ok edges t') :
    edges = last.chained node serial previous? replica := by
  cases serial with
  | false =>
    obtain ⟨rfl, -⟩ := pure_eq_ok.mp h
    rfl
  | true =>
    cases previous? with
    | none =>
      obtain ⟨rfl, -⟩ := pure_eq_ok.mp h
      rfl
    | some previous =>
      obtain ⟨others, _, hothers, h⟩ := bind_eq_ok.mp h
      obtain ⟨rfl, rfl⟩ := pure_eq_ok.mp h
      rw [carryEdges_eq (hlast previous rfl) hothers]
      rfl

/-- Edges that are looked up by their places are the edges with the property. -/
theorem filterMap_placesWhere (g : Graph) (test : Edge → Bool) (f : Edge → Edge) :
    ((g.placesWhere test).filterMap fun place => g.edges[place]?.map f) =
      (g.edges.filter test).map f := by
  have hmap := congrArg (List.filterMap (Option.map f)) (edges_placesWhere g test)
  rw [List.filterMap_map, List.filterMap_map] at hmap
  rw [← List.filterMap_eq_map]
  exact hmap

/-- The edges of a repetition are these, where values that they were made from are still remembered. -/
theorem ownEdges_eq {node : Node} {serial : Bool} {previous? : Option NodeId}
    (hedges : t.edges = asked.edges) (hreplica : Recollects last replica t')
    (hprevious : ∀ previous ∈ previous?, Recollects last previous t')
    (h : ownEdges node plan serial (asked.incoming node.id) (asked.outgoing node.id) place previous?
      replica t = .ok edges t') :
    edges = asked.edgesOf last node plan serial place previous? replica := by
  obtain ⟨shares, strands, kept, outward, chain, t₁, t₂, t₃, t₄, rfl, hshares, hstrands, hkept,
    houtward, hchain, h₁, h₂, h₃, -⟩ := ownEdges_eq_ok h
  have hlate : SameButMemo t₄ t' := (moves_chainEdges _ _ _ _).of_ok hchain
  rw [edgesOf, shareEdges_eq hshares, strandEdges_eq (h₁.edges.trans hedges) hstrands,
    keptEdges_eq (h₂.edges.trans hedges) hkept,
    outgoingEdges_eq_of (h₃.edges.trans hedges) (hreplica.of_sameButMemo hlate) houtward, outgoing,
    filterMap_placesWhere, chainEdges_eq hprevious hchain]

end Edges

/-! ### The values of a repetition -/

/-- A node is the repetition of another one at a place. -/
structure StandsIn (node : Node) (plan : Drivers) (serial : Bool) (place : Nat) (replica : Node) :
    Prop where
  /-- It is told apart by its place. -/
  name : replica.name = node.name ++ "_" ++ replicaSuffix serial place
  /-- It has the job of the node. -/
  spec : replica.spec = node.spec
  /-- It counts as a repetition. -/
  isReplica : replica.isReplica = true
  /-- It has its element of each list that a parameter has. -/
  lists : ∀ entry ∈ plan.lists, ∃ item, entry.2[place]? = some item ∧
    replica.overrides.get? entry.1 = some item
  /-- It has the value of its element of all that is brought along edges to a parameter. -/
  shares : ∀ entry ∈ plan.shares, ∃ share, entry.2[place]? = some share ∧
    replica.overrides.get? entry.1 = some share.value
  /-- No other value changes, save for paths that it writes to. -/
  others : ∀ key ∉ plan.lists.map (·.1), key ∉ plan.shares.map (·.1) → ¬ node.spec.IsPath key →
    replica.overrides.get? key = node.overrides.get? key

section Values

variable {g asked : Graph} {node : Node} {plan : Drivers} (h : Demands g node plan asked)

include h

/-- A repetition gets the element at its place of each list that the node has. -/
theorem Demands.get?_of_list {t t' : Graph} {place : Nat} {settings : Settings}
    (hshare : shareOut node plan place t = .ok settings t') {entry : String × List Value}
    (he : entry ∈ plan.lists) :
    ∃ item, entry.2[place]? = some item ∧ settings.get? entry.1 = some item := by
  have hkey : entry.1 ∉ plan.shares.map (·.1) := fun hmem => by
    obtain ⟨other, ho, heq⟩ := List.mem_map.mp hmem
    exact h.not_mem_lists ho (heq ▸ List.mem_map_of_mem he)
  rcases shareOut_spec hshare hkey with ⟨hno, -⟩ | ⟨item, ⟨items, hmem, hitem⟩, hvalue⟩
  · exact absurd (List.mem_map_of_mem he) hno
  · have hsame : items = entry.2 := Option.some.inj ((h.listOf?_eq hmem).symm.trans (h.listOf?_eq he))
    exact ⟨item, hsame ▸ hitem, hvalue⟩

/-- A repetition gets the element at its place of each list that comes in. -/
theorem Demands.get?_of_share {t t' : Graph} {place : Nat} {settings : Settings}
    (hshare : shareOut node plan place t = .ok settings t') {entry : String × List Share}
    (he : entry ∈ plan.shares) :
    ∃ share, entry.2[place]? = some share ∧ settings.get? entry.1 = some share.value := by
  obtain ⟨withLists, _, -, hshares⟩ := bind_eq_ok.mp hshare
  rcases get?_of_layOver (f := Share.value) hshares entry.1 with ⟨hno, -⟩ |
    ⟨shares, share, hmem, hitem, hvalue⟩
  · exact absurd (List.mem_map_of_mem he) hno
  · have hsame : (entry.1, shares) = entry := List.inj_on_of_nodup_map h.nodup hmem he rfl
    exact ⟨share, hsame ▸ hitem, hvalue⟩

/-- A repetition keeps what it was given when paths that it writes to are told apart. -/
theorem Demands.standsIn {serial : Bool} {place : Nat} {made replica : Node}
    {W : NodeId → String → Prop}
    (hW : ∀ key, W made.id key → node.spec.IsPath key ∧ key ∉ plan.properties)
    (hmade : IsReplica node plan serial place made) (hspared : Spared W made replica) :
    StandsIn node plan serial place replica := by
  obtain ⟨overrides, t, t', hshare, hmade⟩ := hmade
  have hown : ∀ key, ¬ (node.spec.IsPath key ∧ key ∉ plan.properties) →
      replica.overrides.get? key = overrides.get? key := fun key hkey => by
    rw [hspared.values key fun hw => hkey (hW key hw), hmade]
    rfl
  refine ⟨?_, ?_, ?_, fun entry he => ?_, fun entry he => ?_, fun key hlists hshares hpath => ?_⟩
  · rw [name_of_outline hspared.outline, hmade]
    rfl
  · rw [spec_of_outline hspared.outline, hmade]
    rfl
  · rw [isReplica_of_outline hspared.outline, hmade]
    rfl
  · have hin : entry.1 ∈ plan.properties := List.mem_map.mpr ⟨(entry.1, entry.2.length),
      List.mem_append_left _ (List.mem_append_right _ (List.mem_map_of_mem he)), rfl⟩
    rw [hown entry.1 fun hno => hno.2 hin]
    exact h.get?_of_list hshare he
  · have hin : entry.1 ∈ plan.properties := List.mem_map.mpr ⟨(entry.1, entry.2.length),
      List.mem_append_left _ (List.mem_append_left _ (List.mem_map_of_mem he)), rfl⟩
    rw [hown entry.1 fun hno => hno.2 hin]
    exact h.get?_of_share hshare he
  · rw [hown key fun hno => hpath hno.1]
    rcases shareOut_spec hshare hshares with ⟨-, hsame⟩ | ⟨item, ⟨items, hmem, -⟩, -⟩
    · exact hsame
    · exact absurd (List.mem_map_of_mem hmem) hlists

end Values

/-! ### The graph with repetitions in the place of a node -/

/-- A node has given way to so many repetitions of it. -/
structure Replaces (node : Node) (plan : Drivers) (count : Nat) (serial : Bool)
    (replicas : List Node) (asked last : Graph) : Prop where
  /-- They wait for each other just if a parameter asks for it. -/
  mode : serial = true ↔ ∃ p ∈ node.spec.parameters, p.expandMode = .serial
  /-- The node is gone, and the repetitions stand behind the others, which have not changed. -/
  nodes : last.nodes = asked.nodes.filter (·.id ≠ node.id) ++ replicas
  /-- They have the handles that were still to be given out. -/
  ids : replicas.map (·.id) = List.range' asked.nextId count
  /-- There is one for each place. -/
  standsIn : List.Forall₂ (StandsIn node plan serial) (List.range count) replicas
  /-- There is an edge for it in each strand. -/
  strands : ∀ strand ∈ plan.strands, ∀ place < count,
    ∃ edge, strand.edges[place]?.bind (asked.edges[·]?) = some edge
  /-- Edges that do not touch the node stay, and those of the repetitions stand behind them. -/
  edges : last.edges = asked.edges.filter (!·.touches node.id) ++
    replicas.zipIdx.flatMap fun entry => asked.edgesOf last node plan serial entry.2
      (previousOf none (replicas.map (·.id)) entry.2) entry.1.id

/-- A node is repeated serially if one of its parameters asks for that. -/
theorem mode_of_isSerial {node : Node} {serial : Bool} (h : isSerial node = .ok serial) :
    serial = true ↔ ∃ p ∈ node.spec.parameters, p.expandMode = .serial := by
  rw [isSerial] at h
  split at h
  · cases h
  · obtain rfl := Except.ok.inj h
    simp

/-- Nodes other than the one that is taken out are found as before. -/
theorem recollects_of_removeNode (t : Graph) (edges : List Edge) {removed id : NodeId}
    (hne : id ≠ removed) : Recollects ((t.removeNode removed).addEdges edges) id t := by
  refine ⟨?_, rfl, fun _ _ h => h⟩
  change (t.nodes.filter (·.id ≠ removed)).find? (·.id == id) = t.nodes.find? (·.id == id)
  rw [List.find?_filter]
  congr 1
  funext node
  by_cases heq : node.id = id
  · simp [heq, hne]
  · simp [heq]

/-- Where only the nodes that were added may get other values, these stand behind the others. -/
theorem exists_of_spares {W : NodeId → String → Prop} {nodes added : List Node} {u : Graph}
    (h : List.Forall₂ (Spared W) (nodes ++ added) u.nodes)
    (hno : ∀ old ∈ nodes, ∀ key, ¬ W old.id key) :
    ∃ replicas, u.nodes = nodes ++ replicas ∧ List.Forall₂ (Spared W) added replicas := by
  generalize u.nodes = all at h
  induction nodes generalizing all with
  | nil => exact ⟨all, rfl, h⟩
  | cons node nodes ih =>
    cases h with
    | @cons _ other _ all hspared hrest =>
      obtain ⟨replicas, rfl, hadded⟩ :=
        ih (fun old hold => hno old (List.mem_cons_of_mem _ hold)) _ hrest
      exact ⟨replicas, by rw [hspared.same (hno node List.mem_cons_self), List.cons_append], hadded⟩

/-- A strand has an edge for each place. -/
theorem Demands.exists_strand_edge {g asked : Graph} {node : Node} {plan : Drivers} {count : Nat}
    (h : Demands g node plan asked) (hall : ∀ entry ∈ plan.sizes, entry.2 = count) {strand : Strand}
    (hs : strand ∈ plan.strands) {place : Nat} (hplace : place < count) :
    ∃ edge, strand.edges[place]?.bind (asked.edges[·]?) = some edge := by
  have hlength : strand.edges.length = count := hall (strand.property, strand.edges.length)
    (List.mem_append_right _ (List.mem_map_of_mem hs))
  obtain ⟨spot, hspot⟩ : ∃ spot, strand.edges[place]? = some spot :=
    ⟨_, List.getElem?_eq_getElem (hlength ▸ hplace)⟩
  have hmem := List.mem_of_getElem? hspot
  rw [(h.strands strand hs).2] at hmem
  obtain ⟨edge, hedge, -⟩ := mem_placesWhere.mp hmem
  rw [hspot, Option.bind_some, h.edges, List.getElem?_map, hedge]
  exact ⟨_, rfl⟩

/-- The repetition before is a repetition. -/
theorem mem_of_previousOf {replicas : List NodeId} {place : Nat} {previous : NodeId}
    (h : previous ∈ previousOf none replicas place) : previous ∈ replicas := by
  cases place with
  | zero => cases h
  | succ place => exact List.mem_of_getElem? h

/-- If the repetitions got their edges in runs, one for each, these are their edges. -/
theorem parts_of_runs {asked t t' : Graph} {node : Node} {plan : Drivers} {serial : Bool}
    {replicas : List Node} {parts : List (List Edge)} (hedges : t.edges = asked.edges)
    (hne : ∀ id ∈ replicas.map (·.id), id ≠ node.id) (hlength : parts.length = replicas.length)
    (hruns : ∀ place replica own, (replicas.map (·.id))[place]? = some replica →
      parts[place]? = some own → ∃ u u', SameButMemo t u ∧ SameButMemo u' t' ∧
        ownEdges node plan serial (t.incoming node.id) (t.outgoing node.id) place
          (previousOf none (replicas.map (·.id)) place) replica u = .ok own u') :
    parts = replicas.zipIdx.map fun entry => asked.edgesOf
      ((t'.removeNode node.id).addEdges parts.flatten) node plan serial entry.2
        (previousOf none (replicas.map (·.id)) entry.2) entry.1.id := by
  refine List.ext_getElem (by simp [hlength]) fun place hlt hlt' => ?_
  have hin : place < replicas.length := hlength ▸ hlt
  have hreplica : (replicas.map (·.id))[place]? = some replicas[place].id := by
    rw [List.getElem?_map, List.getElem?_eq_getElem hin]
    rfl
  obtain ⟨u, u', hu, hu', hrun⟩ := hruns place _ _ hreplica (List.getElem?_eq_getElem hlt)
  rw [incoming_of_edges hedges, outgoing_of_edges hedges] at hrun
  have hread : ∀ id ∈ replicas.map (·.id),
      Recollects ((t'.removeNode node.id).addEdges parts.flatten) id u' := fun id hid =>
    (recollects_of_removeNode t' _ (hne id hid)).of_sameButMemo hu'
  rw [List.getElem_map, List.getElem_zipIdx, Nat.zero_add]
  exact ownEdges_eq (hu.edges.trans hedges) (hread _ (List.mem_of_getElem? hreplica))
    (fun previous hp => hread _ (mem_of_previousOf hp)) hrun

/-- Repeating a node for what it is brought puts the repetitions in its place. -/
theorem replaces_of_replicate {g asked last : Graph} {node : Node} {plan : Drivers} {count : Nat}
    (h : Demands g node plan asked) (hw : asked.WellFormed) (hn : node ∈ asked.nodes)
    (hall : ∀ entry ∈ plan.sizes, entry.2 = count)
    (hrun : replicate node plan count asked = .ok () last) :
    ∃ serial replicas, Replaces node plan count serial replicas asked last := by
  obtain ⟨serial, added, t₁, t₂, t₃, parts, hserial, ⟨hids, scope, rfl⟩, hadded, houtputs, hedges,
    hmemo, hlength, rfl, hruns⟩ := runs_of_replicate hrun
  have hcount : added.length = count := by simpa using hadded.length_eq.symm
  have hfresh : ∀ id ∈ added.map (·.id), ∀ old ∈ asked.nodes, id ≠ old.id := by
    intro id hid old hold
    rw [hids] at hid
    exact ((hw.below _ (List.mem_map_of_mem hold)).trans_le (List.mem_range'_1.mp hid).1).ne'
  let W : NodeId → String → Prop := fun id key =>
    id ∈ added.map (·.id) ∧ node.spec.IsPath key ∧ key ∉ plan.properties
  have hspares : Spares W _ t₂ := (moves_separateOutputs_of (fun _ _ h => h.spares) plan serial
    fun id hid p hp houtput hfile hlist hfree path =>
      spares_setNodeValue ⟨hid, ⟨p, hp, rfl, houtput, hfile, hlist⟩, hfree⟩ (.str path)).of_ok houtputs
  obtain ⟨replicas, hnodes, hreplicas⟩ := exists_of_spares hspares
    fun old hold key hkey => hfresh _ hkey.1 old hold rfl
  have hsame : replicas.map (·.id) = added.map (·.id) := by
    refine List.forall₂_eq_eq_eq ▸ List.forall₂_map_left_iff.mpr (List.forall₂_map_right_iff.mpr ?_)
    exact (hreplicas.imp fun _ _ hspared => (id_of_outline hspared.outline)).flip
  rw [← hsame] at hruns hfresh
  have hne : ∀ id ∈ replicas.map (·.id), id ≠ node.id := fun id hid => hfresh id hid node hn
  refine ⟨serial, replicas, mode_of_isSerial hserial, ?_, by rw [hsame, hids, hcount],
    forall₂_comp hadded hreplicas fun _ _ _ hmade => h.standsIn (fun _ hkey => hkey.2) hmade,
    fun strand hs place => h.exists_strand_edge hall hs, ?_⟩
  · have hkept : replicas.filter (fun replica => decide (replica.id ≠ node.id)) = replicas :=
      List.filter_eq_self.mpr fun replica hr => decide_eq_true (hne _ (List.mem_map_of_mem hr))
    change t₃.nodes.filter (fun other => decide (other.id ≠ node.id)) = _
    rw [hmemo.plans.nodes, hnodes, List.filter_append, hkept]
  · have hparts := parts_of_runs hedges hne (hlength.trans hreplicas.length_eq) hruns
    change t₃.edges.filter _ ++ parts.flatten = _
    rw [hmemo.edges, hedges, List.flatMap_def, ← hparts]

/-- The node that was repeated is no longer there. -/
theorem Replaces.node?_eq_none {node : Node} {plan : Drivers} {count : Nat} {serial : Bool}
    {replicas : List Node} {asked last : Graph}
    (h : Replaces node plan count serial replicas asked last) (hlt : node.id < asked.nextId) :
    last.node? node.id = none := by
  refine List.find?_eq_none.mpr fun other ho heq => ?_
  rw [h.nodes] at ho
  rcases List.mem_append.mp ho with ho | ho
  · exact of_decide_eq_true (List.mem_filter.mp ho).2 (beq_iff_eq.mp heq)
  · have hmem : other.id ∈ replicas.map (·.id) := List.mem_map_of_mem ho
    rw [h.ids, beq_iff_eq.mp heq] at hmem
    exact absurd (List.mem_range'_1.mp hmem).1 (Nat.not_le.mpr hlt)

/-! ### Turns one after another -/

/-- A node stays as it is while others have their turn. -/
theorem mem_of_splitNode {g g' : Graph} {id : NodeId} {u : Unit} (hw : g.WellFormed)
    (h : splitNode id g = .ok u g') {other : Node} (ho : other ∈ g.nodes) (hne : other.id ≠ id) :
    other ∈ g'.nodes := by
  cases turned_of_splitNode h with
  | absent _ => exact ho
  | idle _ hf _ => exact ((moves_drivers id).of_ok hf).nodes ▸ ho
  | collapsed _ hf _ hc =>
    have hspares : Spares (fun other _ => other = id) g g' :=
      trans_of (Spares _) ((moves_drivers id).of_ok hf).spares
        ((spares_collapse _ _ fun _ _ => rfl).of_ok hc)
    obtain ⟨found, hfound, hspared⟩ := exists_of_mem_left hspares ho
    rwa [hspared.same fun _ => hne] at hfound
  | replaced hn hf hs _ hr =>
    obtain ⟨hin, rfl⟩ := id_of_node? hn
    have hplans : Plans g _ := (moves_drivers _).of_ok hf
    obtain ⟨serial, replicas, hreplaces⟩ := replaces_of_replicate (demands_of_drivers hw hin hf)
      (hplans.retains.wellFormed hw) (hplans.nodes ▸ hin) (length_of_size? hs) hr
    rw [hreplaces.nodes, hplans.nodes]
    exact List.mem_append_left _ (List.mem_filter.mpr ⟨ho, decide_eq_true hne⟩)

/-- When the turn of a node comes, the node is still as it was, and the graph is sound. -/
theorem mem_of_turns {g t : Graph} {before : List Node} {node : Node} {u : Unit} (hg : g.Sturdy)
    (ha : g.Attuned) (hn : node ∈ g.nodes) (hno : node.id ∉ before.map (·.id))
    (h : before.forM (Graph.splitNode ·.id) g = .ok u t) :
    t.WellFormed ∧ t.Attuned ∧ node ∈ t.nodes := by
  have hkept := forM_keeps (P := fun t => t.Sturdy ∧ t.Attuned ∧ node ∈ t.nodes)
    (fun other ho t v t' ht hstep => ⟨ht.1.splitNode hstep,
      (covers_attuned.moves_splitNode other.id).of_ok hstep ht.2.1,
      mem_of_splitNode ht.1.wellFormed hstep ht.2.2 fun heq =>
        hno (heq ▸ List.mem_map_of_mem ho)⟩) ⟨hg, ha, hn⟩ h
  exact ⟨hkept.1.wellFormed, hkept.2⟩

/-- If the turn of a node fails, repeating nodes does. -/
theorem split_eq_error {g t t' : Graph} {before behind : List Node} {node : Node} {e : GraphError}
    (horder : g.topologicalOrder = .ok (before ++ node :: behind))
    (hbefore : before.forM (Graph.splitNode ·.id) g = .ok () t)
    (h : splitNode node.id t = .error e t') : split g = .error e t' := by
  refine bind_eq_error.mpr (.inr ⟨g, g, get_eq_ok.mpr ⟨rfl, rfl⟩, ?_⟩)
  refine bind_eq_error.mpr (.inr ⟨_, g, ofExcept_eq_ok.mpr ⟨horder, rfl⟩, ?_⟩)
  exact forM_append_eq_error hbefore (bind_eq_error.mpr (.inl h))

/-- The turn of a node is settled by how many values its parameters bring. -/
theorem splitNode_eq {t asked : Graph} {node : Node} {plan : Drivers}
    (hn : t.node? node.id = some node) (hplan : drivers node.id t = .ok plan asked) :
    splitNode node.id t =
      (match plan.size? node.name with
      | .error e => throw e
      | .ok none => pure ()
      | .ok (some 1) => collapse node.id plan
      | .ok (some count) => replicate node plan count : GraphM Unit) asked := by
  refine (bind_of_ok (get_eq_ok.mpr ⟨rfl, rfl⟩)).trans ?_
  simp only [hn]
  refine (bind_of_ok hplan).trans ?_
  match plan.size? node.name with
  | .error e => rfl
  | .ok none => rfl
  | .ok (some 0) => rfl
  | .ok (some 1) => rfl
  | .ok (some (count + 2)) => rfl

/-- **What the turn of a node leaves behind.** When its turn comes, a node is still as it was. Once it
has been found out what it is repeated for, nothing more happens if nothing was found. If not all
parameters bring as many values, nodes cannot be repeated, and the first parameter is told that brings
another number than the first of all. If each brings one value, the node takes these values. If all of
them bring a greater number, there are so many repetitions in the place of the node, as long as its turn
does not fail. -/
theorem turn_of_reachable {pipeline : Pipeline} {g t : Graph} {before behind : List Node}
    {node : Node} (hreach : Reachable pipeline g)
    (horder : g.topologicalOrder = .ok (before ++ node :: behind))
    (hbefore : before.forM (Graph.splitNode ·.id) g = .ok () t) :
    t.node? node.id = some node ∧ ∀ plan asked, drivers node.id t = .ok plan asked →
      Demands t node plan asked ∧
      (plan.sizes = [] → splitNode node.id t = .ok () asked) ∧
      ((∃ a ∈ plan.sizes, ∃ b ∈ plan.sizes, a.2 ≠ b.2) → ∃ expected parameter found,
        plan.sizes.head?.map (·.2) = some expected ∧
        plan.sizes.find? (·.2 != expected) = some (parameter, found) ∧
        split g = .error (.cardinalityMismatch node.name parameter expected found) asked) ∧
      (plan.sizes ≠ [] → (∀ entry ∈ plan.sizes, entry.2 = 1) →
        ∃ last, splitNode node.id t = .ok () last ∧ Collapses node plan asked last) ∧
      ∀ count, 1 < count → plan.sizes ≠ [] → (∀ entry ∈ plan.sizes, entry.2 = count) →
        ∀ last, splitNode node.id t = .ok () last → last.node? node.id = none ∧
          ∃ serial replicas, Replaces node plan count serial replicas asked last := by
  have hw := hreach.wellFormed
  obtain ⟨hordered, -, hsub⟩ := ordered_of_topologicalOrder hw.closed horder
  have hnodup := hordered.nodup
  rw [List.map_append, List.map_cons] at hnodup
  have hno : node.id ∉ before.map (·.id) := fun hmem =>
    (List.nodup_append.mp hnodup).2.2 _ hmem _ List.mem_cons_self rfl
  obtain ⟨htw, hta, hn⟩ := mem_of_turns (sturdy_of_topologicalOrder hw horder) hreach.attuned
    (hsub (List.mem_append_right _ List.mem_cons_self)) hno hbefore
  have hin := htw.node?_eq_some.mpr hn
  refine ⟨hin, fun plan asked hplan => ?_⟩
  have hplans : Plans t asked := (moves_drivers node.id).of_ok hplan
  have hdemands := demands_of_drivers htw hn hplan
  have hturn := splitNode_eq hin hplan
  refine ⟨hdemands, fun hnone => ?_, fun hdiffer => ?_, fun hsome hone => ?_,
    fun count hlt hsome hall last hlast => ?_⟩
  · have hsize : plan.size? node.name = .ok none := by rw [Drivers.size?, hnone]
    rw [hturn, hsize]
    rfl
  · obtain ⟨expected, parameter, found, hfirst, hother, hsize⟩ := size?_eq_error hdiffer node.name
    refine ⟨expected, parameter, found, hfirst, hother, split_eq_error horder hbefore ?_⟩
    rw [hturn, hsize]
    rfl
  · rw [hturn, size?_eq_some hsome hone]
    exact collapses_of_one hdemands (covers_attuned.plan _ _ hplans hta) hone
  · have hreplicate : replicate node plan count asked = .ok () last := by
      obtain ⟨others, rfl⟩ := Nat.exists_eq_add_of_le' hlt
      rw [hturn, size?_eq_some hsome hall] at hlast
      exact hlast
    obtain ⟨serial, replicas, hreplaces⟩ := replaces_of_replicate hdemands
      (hplans.retains.wellFormed htw) (hplans.nodes ▸ hn) hall hreplicate
    have hlt := hplans.retains.nextId ▸ htw.below _ (List.mem_map_of_mem hn)
    exact ⟨hreplaces.node?_eq_none hlt, serial, replicas, hreplaces⟩

/-- What is found about the turn of the node at a place in the order. -/
theorem exists_turn (pipeline : Pipeline) (place : Nat)
    (P : Node → Drivers → Graph → Prop) [∀ node plan last, Decidable (P node plan last)]
    (h : (match build pipeline with
      | .error _ => false
      | .ok built => match built.topologicalOrder with
        | .error _ => false
        | .ok order => match order.drop place, (order.take place).forM (splitNode ·.id) built with
          | node :: _, .ok _ t => match drivers node.id t, splitNode node.id t with
            | .ok plan _, .ok _ last => decide (P node plan last)
            | _, _ => false
          | _, _ => false) = true) :
    ∃ built before node behind t plan asked last, build pipeline = .ok built ∧
      built.topologicalOrder = .ok (before ++ node :: behind) ∧
      before.forM (splitNode ·.id) built = .ok () t ∧ drivers node.id t = .ok plan asked ∧
      splitNode node.id t = .ok () last ∧ P node plan last := by
  split at h
  next => cases h
  next built hbuild =>
    split at h
    next => cases h
    next order horder =>
      split at h
      next node behind _ t hdrop hbefore =>
        split at h
        next plan asked _ last hplan hturn =>
          refine ⟨built, order.take place, node, behind, t, plan, asked, last, hbuild, ?_, hbefore,
            hplan, hturn, of_decide_eq_true h⟩
          rw [horder, ← hdrop, List.take_append_drop]
        next => cases h
      next => cases h

/-- Three kinds of grain, from the mill and the garden, are baked one after another. -/
def baking : Pipeline where
  jobs := [
    { id := "mill"
      parameters := [{ name := "flour", isOutput := true, isList := true }]
      configuration := .ofList [("flour", .list [.str "rye", .str "oats"])] },
    { id := "pick"
      parameters := [{ name := "seeds", isOutput := true, isList := true }]
      configuration := .ofList [("seeds", .list [.str "flax"])] },
    { id := "bake"
      parameters := [{ name := "grain", expandMode := .serial }]
      configuration := .ofList [("grain",
        .list [.str "$\x7bmill.flour\x7d", .str "$\x7bpick.seeds\x7d"])] }]

/-- The first two loaves are of the grain that the mill has, and each waits for the one before. -/
theorem baked_one_by_one : ∃ built before node behind t plan asked last,
    Reachable baking built ∧ built.topologicalOrder = .ok (before ++ node :: behind) ∧
    before.forM (splitNode ·.id) built = .ok () t ∧ drivers node.id t = .ok plan asked ∧
    splitNode node.id t = .ok () last ∧ plan.sizes = [("grain", 3)] ∧
    last.nodes.map (·.name) = ["mill", "pick", "bake_seq_0", "bake_seq_1", "bake_seq_2"] ∧
    last.edges = [
      .data 0 3 ⟨.oneToOne, "flour", "grain", .str "rye", some 0⟩,
      .data 0 4 ⟨.oneToOne, "flour", "grain", .str "oats", some 1⟩,
      .after 3 4,
      .data 1 5 ⟨.oneToOne, "seeds", "grain", .str "flax", some 0⟩,
      .after 4 5] ∧
    Demands t node plan asked ∧
    ∃ serial replicas, Replaces node plan 3 serial replicas asked last := by
  obtain ⟨built, before, node, behind, t, plan, asked, last, hbuild, horder, hbefore, hplan, hturn,
      hsizes, hnames, hedges⟩ := exists_turn baking 2 (fun _ plan last =>
    plan.sizes = [("grain", 3)] ∧
    last.nodes.map (·.name) = ["mill", "pick", "bake_seq_0", "bake_seq_1", "bake_seq_2"] ∧
    last.edges = [
      .data 0 3 ⟨.oneToOne, "flour", "grain", .str "rye", some 0⟩,
      .data 0 4 ⟨.oneToOne, "flour", "grain", .str "oats", some 1⟩,
      .after 3 4,
      .data 1 5 ⟨.oneToOne, "seeds", "grain", .str "flax", some 0⟩,
      .after 4 5]) (by decide +kernel)
  have hreach : Reachable baking built := .built hbuild
  obtain ⟨hdemands, -, -, -, hreplaced⟩ :=
    (turn_of_reachable hreach horder hbefore).2 plan asked hplan
  refine ⟨built, before, node, behind, t, plan, asked, last, hreach, horder, hbefore, hplan, hturn,
    hsizes, hnames, hedges, hdemands, ?_⟩
  exact (hreplaced 3 (by decide) (by simp [hsizes]) (by simp [hsizes]) last hturn).2

end Graph

end Pipework
