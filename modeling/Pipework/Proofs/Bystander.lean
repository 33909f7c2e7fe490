import Pipework.Proofs.Links

/-!
# Nodes whose turn it is not

When a node is repeated, or takes the one value that it is given, nothing happens to the nodes of
other jobs. What their parameters are fed by stays too, save for edges from the node itself, which
go over to its repetitions.
-/

namespace Pipework

open Step

namespace Graph

/-- The nodes of a job, which are its repetitions once it was repeated. -/
def nodesOf (graph : Graph) (job : String) : List Node := graph.nodes.filter (·.spec.id == job)

/-- Parameters of other nodes are fed by the same edges. -/
def SameInto (id : NodeId) (g g' : Graph) : Prop :=
  ∀ other ≠ id, ∀ key, g'.fed other key = g.fed other key

instance (id : NodeId) : Std.Refl (SameInto id) := ⟨fun _ _ _ _ => rfl⟩

instance (id : NodeId) : IsTrans Graph (SameInto id) :=
  ⟨fun _ _ _ h h' other hne key => (h' other hne key).trans (h other hne key)⟩

/-- Where the edges are the same, other nodes are fed as before. -/
theorem sameInto_of_edges {id : NodeId} {g g' : Graph} (h : g'.edges = g.edges) :
    SameInto id g g' := fun _ _ _ => by rw [fed, h, fed]

/-- Changing an edge to a node leaves how other nodes are fed. -/
theorem sameInto_modifyEdge {g : Graph} {place : Nat} {edge : Edge} {change : Edge → Edge}
    (he : g.edges[place]? = some edge) (hc : (change edge).target = edge.target) :
    SameInto edge.target g (g.modifyEdge place change) := by
  intro other hne key
  have hno : ∀ changed : Edge, changed.target = edge.target → changed.into other key = false :=
    fun changed ht => eq_false_of_ne_true fun hinto =>
      hne ((Edge.into_iff.mp hinto).1.symm.trans ht)
  exact filter_modify he (hno edge rfl) (hno _ hc)

section Planning

variable {g t t' : Graph} {id : NodeId}

/-- Taking account of an edge to a node leaves how other nodes are fed. -/
theorem sameInto_addDriver {found found' : Drivers} {place : Nat}
    (hplace : ∀ edge, t.edges[place]? = some edge → edge.target = id)
    (h : addDriver found place t = .ok found' t') : SameInto id t t' := by
  obtain ⟨edge, hedge, hnoted⟩ := noted_of_addDriver h
  cases hnoted with
  | order _ | list _ _ | strand _ _ _ => exact refl_of (SameInto id) t
  | shares _ _ hv _ => exact sameInto_of_edges ((moves_propertyValue _ _).of_ok hv).edges
  | empty _ _ hv _ =>
    have hsame := ((moves_propertyValue _ _).of_ok hv).edges
    refine trans_of (SameInto id) (sameInto_of_edges hsame) ?_
    rw [← hplace edge hedge]
    exact sameInto_modifyEdge (hsame ▸ hedge) rfl

/-- At the places of the edges to a node there still stand edges to it. -/
theorem target_of_incoming {place : Nat} (hr : Retains g t) (hp : place ∈ g.incoming id)
    {edge : Edge} (he : t.edges[place]? = some edge) : edge.target = id := by
  obtain ⟨old, hold, htarget⟩ := mem_placesWhere.mp hp
  obtain ⟨before, hbefore, hkeeps⟩ := hr.edges.before he
  obtain rfl := Option.some.inj (hold.symm.trans hbefore)
  exact hkeeps.2.1.trans (by simpa using htarget)

/-- Finding out what a node is repeated for leaves how other nodes are fed. -/
theorem sameInto_drivers {plan : Drivers} (h : drivers id g = .ok plan t) : SameInto id g t := by
  obtain ⟨found, t₁, node, lists, hfold, -, hlists, -⟩ := drivers_eq_ok h
  have hfirst : Retains g t₁ ∧ SameInto id g t₁ := foldlM_keeps
    (P := fun (_ : Drivers) t => Retains g t ∧ SameInto id g t)
    (fun place hplace found t found' t' ht hstep =>
      ⟨trans_of Retains ht.1 ((moves_addDriver found place).of_ok hstep).retains,
        trans_of (SameInto id) ht.2
          (sameInto_addDriver (fun _ => target_of_incoming ht.1 hplace) hstep)⟩)
    ⟨refl_of Retains g, refl_of (SameInto id) g⟩ hfold
  refine trans_of (SameInto id) hfirst.2 ?_
  exact sameInto_of_edges ((moves_listDrivers _ _ _).of_ok hlists).edges

/-- A node that takes its one value leaves how other nodes are fed. -/
theorem sameInto_collapse {plan : Drivers} {u : Unit} (hf : Traced g.edges id plan)
    (hr : Retains g t) (h : collapse id plan t = .ok u t') : SameInto id t t' := by
  obtain ⟨_, t₁, hshares, hlists⟩ := bind_eq_ok.mp h
  have hstart : Retains g t ∧ SameInto id t t := ⟨hr, refl_of (SameInto id) t⟩
  have hshares : Retains g t₁ ∧ SameInto id t t₁ := by
    refine forM_keeps (P := fun t₁ => Retains g t₁ ∧ SameInto id t t₁) ?_ hstart hshares
    intro entry hentry t₁ v t₂ ht₁ hentries
    refine forM_keeps (P := fun t₁ => Retains g t₁ ∧ SameInto id t t₁) ?_ ht₁ hentries
    intro share hshare t₂ v t₃ ht₂ hstep
    refine ⟨trans_of Retains ht₂.1 ((moves_narrowEdge share).of_ok hstep).retains, ?_⟩
    refine trans_of (SameInto id) ht₂.2 ?_
    obtain rfl := modify_eq_ok.mp hstep
    obtain ⟨old, hold, htarget, -⟩ := hf.shares entry hentry share hshare
    obtain ⟨edge, hedge, hkeeps⟩ := ht₂.1.edges.behind hold
    rw [← htarget, ← hkeeps.2.1]
    refine sameInto_modifyEdge hedge ?_
    split <;> rfl
  have hlists : t'.edges = t₁.edges := forM_keeps (P := fun t₂ => t₂.edges = t₁.edges)
    (fun entry _ t₂ v t₃ ht₂ hstep => by
      obtain ⟨item, _, hat, hset⟩ := bind_eq_ok.mp hstep
      obtain ⟨-, rfl⟩ := ofOption_eq_ok.mp hat
      exact ((moves_setNodeValue _ _ _).of_ok hset).edges.trans ht₂) rfl hlists
  exact trans_of (SameInto id) hshares.2 (sameInto_of_edges hlists)

end Planning

/-- Repeating a node adds repetitions and tells their outputs apart, and each of them gets edges in
one run. -/
theorem runs_of_replicate {t g' : Graph} {node : Node} {drivers : Drivers} {count : Nat} {u : Unit}
    (h : replicate node drivers count t = .ok u g') :
    ∃ serial added t₁ t₂ t₃, ∃ parts : List (List Edge), isSerial node = .ok serial ∧
      Extends added t t₁ ∧ List.Forall₂ (IsReplica node drivers serial) (List.range count) added ∧
      separateOutputs node drivers serial (added.map (·.id)) t₁ = .ok () t₂ ∧
      t₂.edges = t.edges ∧ SameButMemo t₂ t₃ ∧ parts.length = added.length ∧
      g' = (t₃.removeNode node.id).addEdges parts.flatten ∧
      ∀ place replica own, (added.map (·.id))[place]? = some replica → parts[place]? = some own →
        ∃ u u', SameButMemo t₂ u ∧ SameButMemo u' t₃ ∧ ownEdges node drivers serial
          (t₂.incoming node.id) (t₂.outgoing node.id) place
            (previousOf none (added.map (·.id)) place) replica u = .ok own u' := by
  obtain ⟨serial, added, t₁, t₂, t₃, edges, hserial, hextends, hadded, houtputs, hedges, rfl⟩ :=
    replicate_eq_ok h
  obtain ⟨parts, rfl, hlength, hruns⟩ := replicaEdges_eq_ok hedges
  have hsame : SameOutline t₁ t₂ := (moves_separateOutputs (fun _ _ h => h.sameOutline) _ _
    fun _ _ _ _ _ _ _ _ => moves_setNodeValue _ _ _).of_ok houtputs
  refine ⟨serial, added, t₁, t₂, t₃, parts, hserial, hextends, hadded, houtputs, ?_,
    (moves_replicaEdges _ _ _ _ _ _ _ _).of_ok hedges, by simpa using hlength, rfl, ?_⟩
  · obtain ⟨-, scope, rfl⟩ := hextends
    exact hsame.edges
  · simpa only [Nat.zero_add] using hruns

/-- When a node was replaced an edge is an old one that does not touch it, or one that a repetition
got. -/
theorem untouched_or_part {graph : Graph} {id : NodeId} {added : List Node}
    {parts : List (List Edge)} (hlength : parts.length = added.length) {edge : Edge}
    (he : edge ∈ ((graph.removeNode id).addEdges parts.flatten).edges) :
    (edge ∈ graph.edges ∧ edge.source ≠ id ∧ edge.target ≠ id) ∨
      ∃ (place : Nat) (replica : NodeId) (own : List Edge),
        (added.map (·.id))[place]? = some replica ∧ parts[place]? = some own ∧ edge ∈ own := by
  refine (List.mem_append.mp he).imp (fun he => ?_) (exists_part hlength)
  obtain ⟨he, hfree⟩ := List.mem_filter.mp he
  exact ⟨he, by simpa [Edge.touches] using hfree⟩

/-- A parameter of another node is fed by the same edges when a node is replaced, unless it is fed
by that node. -/
theorem fed_of_replicate {g t g' : Graph} {node : Node} {drivers : Drivers} {count : Nat} {u : Unit}
    (hf : Traced g.edges node.id drivers) (hr : Retains g t) (hsame : SameInto node.id g t)
    (h : replicate node drivers count t = .ok u g') {other : NodeId} (hne : other ≠ node.id)
    (hold : other < g.nextId) {key : String}
    (hfree : ∀ edge ∈ g.fed other key, edge.source ≠ node.id) :
    g'.fed other key = g.fed other key := by
  obtain ⟨serial, added, t₁, t₂, t₃, parts, -, ⟨hids, -⟩, -, -, hedges, hmemo, hlength, rfl, hruns⟩ :=
    runs_of_replicate h
  have hkept : EdgesKept g.edges t₂.edges := hedges ▸ hr.edges
  have hfed : t₂.fed other key = g.fed other key := by
    rw [← hsame other hne key, fed, hedges, fed]
  have hnew : parts.flatten.filter (Edge.into other key) = [] := by
    refine List.filter_eq_nil_iff.mpr fun edge he hinto => ?_
    obtain ⟨ht, hkey⟩ := Edge.into_iff.mp hinto
    obtain ⟨place, replica, own, hreplica, hplace, he⟩ := exists_part hlength he
    have hfresh : other ≠ replica := by
      have hmem := List.mem_of_getElem? hreplica
      rw [hids, hr.nextId] at hmem
      exact (hold.trans_le (List.mem_range'_1.mp hmem).1).ne
    obtain ⟨u, u', hu, -, hrun⟩ := hruns place _ own hreplica hplace
    have howned := owned_of_ownEdges hf (hu.edges ▸ hkept)
      (mem_placesWhere_of_kept hkept fun _ _ hkeeps => hkeeps.2.1)
      (mem_placesWhere_of_kept hkept fun _ _ hkeeps => hkeeps.1) hrun
    cases howned.made edge he with
    | inward _ _ _ _ ht' _ => exact hfresh (ht.symm.trans ht')
    | outward old hold hid _ ht' hk =>
      exact hfree old (List.mem_filter.mpr ⟨hold, Edge.into_iff.mpr ⟨ht'.symm.trans ht, hk key hkey⟩⟩)
        hid
    | chain _ _ ht' => exact hfresh (ht.symm.trans ht')
  have hstay : (t₂.edges.filter (!·.touches node.id)).filter (Edge.into other key) =
      t₂.fed other key := by
    rw [List.filter_filter, fed]
    refine List.filter_congr fun edge he => ?_
    by_cases hinto : edge.into other key
    · have hsource : edge.source ≠ node.id :=
        hfree edge (hfed ▸ List.mem_filter.mpr ⟨he, hinto⟩)
      have htarget : edge.target ≠ node.id := (Edge.into_iff.mp hinto).1 ▸ hne
      simp [hinto, Edge.touches, hsource, htarget]
    · simp [eq_false_of_ne_true hinto]
  rw [fed_addEdges, hnew, List.append_nil, ← hfed, ← hstay, ← hmemo.edges]
  rfl

/-- Each node was there before, with other values at most. -/
theorem Retains.exists_outline {g g' : Graph} (h : Retains g g') {node : Node}
    (hn : node ∈ g'.nodes) : ∃ old ∈ g.nodes, old.outline = node.outline := by
  have hmem : node.outline ∈ g'.nodes.map Node.outline := List.mem_map_of_mem hn
  rw [h.nodes] at hmem
  exact List.mem_map.mp hmem

/-- The turn of a node gives out handles one after another, and the nodes with older ones were there
before, at most with other values. -/
theorem older_of_splitNode {jobs : List Job} {id : NodeId} {u : Unit} {g g' : Graph}
    (ho : g.Orderly jobs) (h : splitNode id g = .ok u g') : g.nextId ≤ g'.nextId ∧
      ∀ node ∈ g'.nodes, node.id < g.nextId → ∃ old ∈ g.nodes, old.outline = node.outline := by
  have hretains : ∀ {t}, Retains g t → g.nextId ≤ t.nextId ∧ ∀ node ∈ t.nodes,
      node.id < g.nextId → ∃ old ∈ g.nodes, old.outline = node.outline :=
    fun hr => ⟨hr.nextId.ge, fun node hn _ => hr.exists_outline hn⟩
  cases turned_of_splitNode h with
  | absent _ => exact hretains (refl_of Retains g)
  | idle _ hf _ => exact hretains ((moves_drivers id).of_ok hf).retains
  | collapsed _ hf _ hc =>
    exact hretains (trans_of Retains ((moves_drivers id).of_ok hf).retains
      ((moves_collapse _ _).of_ok hc))
  | replaced hn hf _ _ hr =>
    obtain ⟨hin, rfl⟩ := id_of_node? hn
    obtain ⟨serial, added, parts, -, -, hreplicated⟩ := replicated_of_replicate
      (ho.wellFormed.below _ (List.mem_map_of_mem hin)) (traced_of_drivers hf)
      ((moves_drivers _).of_ok hf).retains hr
    refine ⟨hreplicated.nextId ▸ Nat.le_add_right _ _, fun node hn hlt => ?_⟩
    obtain ⟨old, houtline, ⟨hold, -⟩ | hnew⟩ := hreplicated.exists_node hn
    · exact ⟨old, hold, houtline⟩
    · have hfresh := hreplicated.fresh (List.mem_map_of_mem hnew)
      exact absurd hlt (Nat.not_lt.mpr (id_of_outline houtline ▸ hfresh))

/-- A parameter of another node is fed by the same edges after the turn of a node, as long as the
nodes that it is fed by are still there. -/
theorem fed_of_splitNode {jobs : List Job} {id other : NodeId} {u : Unit} {g g' : Graph}
    (ho : g.Orderly jobs) (h : splitNode id g = .ok u g') (hne : other ≠ id) (hold : other < g.nextId)
    {key : String} (hstay : ∀ edge ∈ g.fed other key, edge.source ∈ g'.nodes.map (·.id)) :
    g'.fed other key = g.fed other key := by
  cases turned_of_splitNode h with
  | absent _ => rfl
  | idle _ hf _ => exact sameInto_drivers hf other hne key
  | collapsed _ hf _ hc =>
    have hretains := ((moves_drivers id).of_ok hf).retains
    exact trans_of (SameInto id) (sameInto_drivers hf)
      (sameInto_collapse (traced_of_drivers hf) hretains hc) other hne key
  | replaced hn hf _ _ hr =>
    obtain ⟨hin, rfl⟩ := id_of_node? hn
    have hlt := ho.wellFormed.below _ (List.mem_map_of_mem hin)
    have hretains := ((moves_drivers _).of_ok hf).retains
    obtain ⟨serial, added, parts, -, -, hreplicated⟩ :=
      replicated_of_replicate hlt (traced_of_drivers hf) hretains hr
    refine fed_of_replicate (traced_of_drivers hf) hretains (sameInto_drivers hf) hr hne hold ?_
    intro edge he heq
    rcases hreplicated.mem_ids.mp (heq ▸ hstay edge he) with ⟨-, hself⟩ | hnew
    · exact hself rfl
    · exact absurd (hreplicated.fresh hnew) (Nat.not_le.mpr hlt)

/-- A node is still there after the turn of another one. -/
theorem stays_of_splitNode {jobs : List Job} {id other : NodeId} {u : Unit} {g g' : Graph}
    (ho : g.Orderly jobs) (h : splitNode id g = .ok u g') (hin : other ∈ g.nodes.map (·.id))
    (hne : other ≠ id) : other ∈ g'.nodes.map (·.id) := by
  have hretains : ∀ {t}, Retains g t → other ∈ t.nodes.map (·.id) := fun hr => hr.ids ▸ hin
  cases turned_of_splitNode h with
  | absent _ => exact hin
  | idle _ hf _ => exact hretains ((moves_drivers id).of_ok hf).retains
  | collapsed _ hf _ hc =>
    exact hretains (trans_of Retains ((moves_drivers id).of_ok hf).retains
      ((moves_collapse _ _).of_ok hc))
  | replaced hn hf _ _ hr =>
    obtain ⟨hnode, rfl⟩ := id_of_node? hn
    obtain ⟨serial, added, parts, -, -, hreplicated⟩ := replicated_of_replicate
      (ho.wellFormed.below _ (List.mem_map_of_mem hnode)) (traced_of_drivers hf)
      ((moves_drivers _).of_ok hf).retains hr
    exact hreplicated.mem_ids.mpr (.inl ⟨hin, hne⟩)

/-- The nodes of a job stay as they are during the turns of others. -/
theorem nodesOf_of_splitNode {jobs : List Job} {id : NodeId} {u : Unit} {g g' : Graph}
    (ho : g.Orderly jobs) (h : splitNode id g = .ok u g') {job : String}
    (hother : ∀ node ∈ g.nodes, node.id = id → node.spec.id ≠ job) :
    g'.nodesOf job = g.nodesOf job := by
  have hplans : ∀ {t}, Plans g t → t.nodes = g.nodes := by
    rintro _ ⟨memo, edges, -, -, rfl⟩
    rfl
  cases turned_of_splitNode h with
  | absent _ => rfl
  | idle _ hf _ => rw [nodesOf, hplans ((moves_drivers id).of_ok hf), nodesOf]
  | @collapsed node plan t _ _ hf _ hc =>
    have hnodes := hplans ((moves_drivers id).of_ok hf)
    have hspares : Spares (fun other _ => other = id) t g' :=
      (spares_collapse _ _ fun _ _ => rfl).of_ok hc
    rw [Spares, hnodes] at hspares
    refine filter_of_forall₂ hspares fun a ha b hab => ?_
    rw [spec_of_outline hab.outline]
    refine ⟨rfl, fun htest => hab.same fun _ heq => ?_⟩
    exact hother a ha heq (by simpa using htest)
  | @replaced node plan t _ count hn hf _ _ hr =>
    obtain ⟨hin, rfl⟩ := id_of_node? hn
    have hjob := hother node hin rfl
    obtain ⟨serial, added, t₁, t₂, t₃, parts, -, ⟨hids, scope, rfl⟩, hadded, houtputs, -,
      ⟨memo, -, rfl⟩, -, rfl, -⟩ := runs_of_replicate hr
    let W : NodeId → String → Prop := fun id _ => id ∈ added.map (·.id)
    have hspares : Spares W _ t₂ := (moves_separateOutputs (fun _ _ h => h.spares) _ _
      fun id hid p _ _ _ _ path =>
        (spares_setNodeValue hid (.str path) :
          Moves (Spares W) (setNodeValue id p.name (.str path)))).of_ok houtputs
    have hbelow : ∀ old ∈ t.nodes, old.id < t.nextId := fun old hold => by
      rw [((moves_drivers _).of_ok hf).retains.nextId]
      exact ho.wellFormed.below _ (List.mem_map_of_mem (hplans ((moves_drivers _).of_ok hf) ▸ hold))
    have hall : t₂.nodes.filter (·.spec.id == job) =
        (t.nodes ++ added).filter (·.spec.id == job) := by
      refine filter_of_forall₂ hspares fun a ha b hab => ?_
      rw [spec_of_outline hab.outline]
      refine ⟨rfl, fun htest => hab.same fun _ hmem => ?_⟩
      have hmem : a.id ∈ added.map (·.id) := hmem
      rcases List.mem_append.mp ha with hold | hnew
      · rw [hids] at hmem
        exact absurd (List.mem_range'_1.mp hmem).1 (Nat.not_le.mpr (hbelow a hold))
      · obtain ⟨place, -, hmade⟩ := exists_of_mem_right hadded hnew
        rw [hmade.spec] at htest
        exact hjob (by simpa using htest)
    have hnone : added.filter (·.spec.id == job) = [] := by
      refine List.filter_eq_nil_iff.mpr fun a ha htest => ?_
      obtain ⟨place, -, hmade⟩ := exists_of_mem_right hadded ha
      rw [hmade.spec] at htest
      exact hjob (by simpa using htest)
    have hnodes := hplans ((moves_drivers _).of_ok hf)
    change (t₂.nodes.filter (·.id ≠ node.id)).filter (·.spec.id == job) = _
    rw [List.filter_comm, hall, List.filter_append, hnone, List.append_nil, hnodes]
    refine List.filter_eq_self.mpr fun a ha => decide_eq_true fun heq => ?_
    obtain ⟨ha, htest⟩ := List.mem_filter.mp ha
    exact hother a ha heq (by simpa using htest)

section Turns

variable {jobs : List Job} {nodes : List Node} {u : Unit} {g g' : Graph} (ho : g.Orderly jobs)
  (h : nodes.forM (splitNode ·.id) g = .ok u g')

include ho h

/-- Nodes with handles that had been given out were there before the turns. -/
theorem older_of_turns : g.nextId ≤ g'.nextId ∧ ∀ node ∈ g'.nodes, node.id < g.nextId →
    ∃ old ∈ g.nodes, old.outline = node.outline := by
  induction nodes generalizing g with
  | nil =>
    obtain ⟨-, rfl⟩ := pure_eq_ok.mp h
    exact ⟨le_rfl, fun node hn _ => ⟨node, hn, rfl⟩⟩
  | cons node nodes ih =>
    obtain ⟨_, t, hstep, h⟩ := bind_eq_ok.mp h
    obtain ⟨hnext, holder⟩ := older_of_splitNode ho hstep
    obtain ⟨hnext', holder'⟩ := ih (orderly_splitNode ho hstep) h
    refine ⟨hnext.trans hnext', fun last hlast hlt => ?_⟩
    obtain ⟨mid, hmid, houtline⟩ := holder' last hlast (hlt.trans_le hnext)
    obtain ⟨old, hold, houtline'⟩ := holder mid hmid (id_of_outline houtline ▸ hlt)
    exact ⟨old, hold, houtline'.trans houtline⟩

theorem mem_ids_of_turns {id : NodeId} (hid : id ∈ g'.nodes.map (·.id)) (hlt : id < g.nextId) :
    id ∈ g.nodes.map (·.id) := by
  obtain ⟨node, hn, rfl⟩ := List.mem_map.mp hid
  obtain ⟨old, hold, houtline⟩ := (older_of_turns ho h).2 node hn hlt
  exact id_of_outline houtline ▸ List.mem_map_of_mem hold

/-- Nodes that do not have their turns stay. -/
theorem stays_of_turns {other : NodeId} (hin : other ∈ g.nodes.map (·.id))
    (hne : ∀ node ∈ nodes, node.id ≠ other) : other ∈ g'.nodes.map (·.id) := by
  refine (forM_keeps (P := fun t : Graph => t.Orderly jobs ∧ other ∈ t.nodes.map (·.id))
    (fun node hn t v t' ht hstep => ?_) ⟨ho, hin⟩ h).2
  exact ⟨orderly_splitNode ht.1 hstep, stays_of_splitNode ht.1 hstep ht.2 (hne node hn).symm⟩

/-- A parameter of a node goes on being fed by the same edges during the turns of others, if the nodes
that it is fed by are still there in the end. -/
theorem fed_of_turns {other : NodeId} (hne : ∀ node ∈ nodes, node.id ≠ other)
    (hold : other < g.nextId) {key : String}
    (hstay : ∀ edge ∈ g.fed other key, edge.source ∈ g'.nodes.map (·.id)) :
    g'.fed other key = g.fed other key := by
  induction nodes generalizing g with
  | nil =>
    obtain ⟨-, rfl⟩ := pure_eq_ok.mp h
    rfl
  | cons node nodes ih =>
    obtain ⟨_, t, hstep, h⟩ := bind_eq_ok.mp h
    have ho' := orderly_splitNode ho hstep
    have hnext := (older_of_splitNode ho hstep).1
    have hfirst : t.fed other key = g.fed other key := by
      refine fed_of_splitNode ho hstep (hne node List.mem_cons_self).symm hold fun edge he => ?_
      refine mem_ids_of_turns ho' h (hstay edge he) (lt_of_lt_of_le ?_ hnext)
      exact ho.wellFormed.below _ (ho.wellFormed.closed edge (List.mem_of_mem_filter he)).1
    rw [← hfirst]
    refine ih ho' h (fun later hl => hne later (List.mem_cons_of_mem _ hl)) (hold.trans_le hnext) ?_
    rwa [hfirst]

/-- The nodes of a job stay as they are during the turns of others. -/
theorem nodesOf_of_turns {job : String} (hlt : ∀ node ∈ nodes, node.id < g.nextId)
    (hother : ∀ node ∈ nodes, ∀ now ∈ g.nodes, now.id = node.id → now.spec.id ≠ job) :
    g'.nodesOf job = g.nodesOf job := by
  induction nodes generalizing g with
  | nil =>
    obtain ⟨-, rfl⟩ := pure_eq_ok.mp h
    rfl
  | cons node nodes ih =>
    obtain ⟨_, t, hstep, h⟩ := bind_eq_ok.mp h
    obtain ⟨hnext, holder⟩ := older_of_splitNode ho hstep
    rw [← nodesOf_of_splitNode ho hstep (hother node List.mem_cons_self)]
    refine ih (orderly_splitNode ho hstep) h
      (fun later hl => (hlt later (List.mem_cons_of_mem _ hl)).trans_le hnext) ?_
    intro later hl now hnow hid hjob
    have hbefore := hlt later (List.mem_cons_of_mem _ hl)
    obtain ⟨old, hold, houtline⟩ := holder now hnow (hid ▸ hbefore)
    refine hother later (List.mem_cons_of_mem _ hl) old hold
      ((id_of_outline houtline).trans hid) ?_
    rwa [spec_of_outline houtline]

end Turns

end Graph

end Pipework
