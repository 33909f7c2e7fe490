import Pipework.Proofs.Dependence
import Pipework.Proofs.Precedence
import Pipework.Proofs.ScalarShares

/-!
# Edges that fit what they lead to

While nodes are repeated, an edge that hands on a single element of a list carries a scalar and leads
to a node that has had its turn, and one that gathers a list leads to a parameter that takes a list.
The order of the turns carries this: a node has its turn before all that it leads to, so no edge that
starts there hands on a single element yet when its value is renewed.
-/

namespace Pipework

open Step Resolve Value

/-- What a link hands on fits the place that it leads to. -/
structure DataLink.Fits (takesMany turned : Prop) (link : DataLink) : Prop where
  /-- No list holds a list. -/
  flat : link.value.isFlat = true
  /-- A single element is a scalar, and is handed on only to a node that has had its turn. -/
  single : link.splitIndex?.isSome → link.value.isList = false ∧ turned
  /-- A list is gathered only where one is taken. -/
  many : link.cardinality = .oneToMany ∨ link.cardinality = .manyToMany → takesMany

/-- What fits goes on fitting when more parameters take lists and more nodes have had their turns. -/
theorem DataLink.Fits.mono {takesMany turned takesMany' turned' : Prop} {link : DataLink}
    (h : link.Fits takesMany turned) (hmany : takesMany → takesMany') (hturned : turned → turned') :
    link.Fits takesMany' turned' :=
  ⟨h.flat, fun hone => (h.single hone).imp_right hturned, fun hc => hmany (h.many hc)⟩

/-- What an edge hands on, if anything, fits its target. -/
def Edge.Fits (many : NodeId → String → Prop) (turned : NodeId → Prop) (edge : Edge) : Prop :=
  ∀ link, edge.kind = .data link →
    link.Fits (many edge.target link.targetProperty) (turned edge.target)

section Fits

variable {many many' : NodeId → String → Prop} {turned turned' : NodeId → Prop} {edge : Edge}

/-- An edge for the order only fits anywhere. -/
theorem Edge.fits_of_after (h : edge.kind = .after) : edge.Fits many turned := by
  intro link hk
  rw [h] at hk
  cases hk

/-- An edge that hands on a value fits if what it hands on does. -/
theorem Edge.fits_data {source target : NodeId} {link : DataLink}
    (h : link.Fits (many target link.targetProperty) (turned target)) :
    (Edge.data source target link).Fits many turned := by
  intro other hk
  obtain rfl := EdgeKind.data.inj hk
  exact h

/-- An edge that fits may be moved to a node that takes what its target takes. -/
theorem Edge.Fits.moved (h : edge.Fits many turned) {target : NodeId}
    (hmany : ∀ key, many edge.target key → many' target key)
    (hturned : turned edge.target → turned' target) :
    Edge.Fits many' turned' { edge with target } :=
  fun link hk => (h link hk).mono (hmany _) hturned

/-- An edge goes on fitting when more parameters take lists and more nodes have had their turns. -/
theorem Edge.Fits.mono (h : edge.Fits many turned)
    (hmany : ∀ key, many edge.target key → many' edge.target key)
    (hturned : turned edge.target → turned' edge.target) : edge.Fits many' turned' :=
  h.moved hmany hturned

end Fits

namespace Graph

/-- The node of this handle has a parameter of this name that takes a list. -/
def TakesMany (g : Graph) (id : NodeId) (key : String) : Prop :=
  ∃ node ∈ g.nodes, node.id = id ∧ ∃ p ∈ node.spec.parameters, p.name = key ∧ p.isList = true

/-- Which parameters take lists does not depend on values. -/
theorem takesMany_of_map {g g' : Graph}
    (h : g'.nodes.map Node.outline = g.nodes.map Node.outline) {id : NodeId} {key : String}
    (htakes : g.TakesMany id key) : g'.TakesMany id key := by
  obtain ⟨node, hn, hid, hp⟩ := htakes
  have hmem : node.outline ∈ g'.nodes.map Node.outline := h ▸ List.mem_map_of_mem hn
  obtain ⟨other, ho, houtline⟩ := List.mem_map.mp hmem
  have hspec : other.spec = node.spec := spec_of_outline houtline
  exact ⟨other, ho, (id_of_outline houtline).trans hid, hspec ▸ hp⟩

/-- What a node takes, it takes when another one has been removed. -/
theorem takesMany_of_remaining {g : Graph} {nodes : List Node} {edges : List Edge}
    (hnodes : g.nodes.map Node.outline = nodes.map Node.outline) {node : Node} (hn : node ∈ nodes)
    {id : NodeId} (hne : node.id ≠ id) {key : String}
    (htakes : ∃ p ∈ node.spec.parameters, p.name = key ∧ p.isList = true) :
    ((g.removeNode id).addEdges edges).TakesMany node.id key := by
  have hmem : node.outline ∈ g.nodes.map Node.outline := hnodes ▸ List.mem_map_of_mem hn
  obtain ⟨now, hnow, houtline⟩ := List.mem_map.mp hmem
  have hid : now.id = node.id := id_of_outline houtline
  have hspec : now.spec = node.spec := spec_of_outline houtline
  exact ⟨now, List.mem_filter.mpr ⟨hnow, by simpa [hid] using hne⟩, hid, hspec ▸ htakes⟩

/-- What all edges hand on fits their targets. -/
def AllFit (many : NodeId → String → Prop) (turned : NodeId → Prop) (g : Graph) : Prop :=
  ∀ edge ∈ g.edges, edge.Fits many turned

section Planning

variable {many : NodeId → String → Prop} {turned : NodeId → Prop} {g g' : Graph}
  {plan plan' : Drivers}

/-- The same edges fit in a graph with the same nodes. -/
theorem AllFit.of_edges (h : g.AllFit many turned) (hedges : g'.edges = g.edges) :
    g'.AllFit many turned := by
  intro edge he
  exact h edge (hedges ▸ he)

/-- Edges go on fitting when account is taken of one of them. -/
theorem fits_of_addDriver {place : Nat} (hfit : g.AllFit many turned)
    (h : addDriver plan place g = .ok plan' g') : g'.AllFit many turned := by
  obtain ⟨edge, hedge, hnoted⟩ := noted_of_addDriver h
  cases hnoted with
  | order _ | list _ _ | strand _ _ _ => exact hfit
  | shares _ _ hv _ => exact hfit.of_edges ((moves_propertyValue _ _).of_ok hv).edges
  | empty _ _ hv _ =>
    intro other ho
    rcases mem_modify ho with ho | ⟨old, -, rfl⟩
    · exact hfit.of_edges ((moves_propertyValue _ _).of_ok hv).edges other ho
    · exact Edge.fits_of_after rfl

/-- Edges go on fitting while it is found out what a node is repeated for, and what is shared out are
scalars. -/
theorem fits_of_drivers {id : NodeId} (hg : g.scope.Flat) (hfit : g.AllFit many turned)
    (h : drivers id g = .ok plan g') : plan.Scalars ∧ g'.AllFit many turned := by
  obtain ⟨found, t, node, lists, hfold, hnode, hlists, rfl⟩ := drivers_eq_ok h
  obtain ⟨ht, hfound, hfit'⟩ : t.scope.Flat ∧ found.Scalars ∧ t.AllFit many turned := by
    refine foldlM_keeps (P := fun found t => t.scope.Flat ∧ found.Scalars ∧ t.AllFit many turned)
      ?_ ⟨hg, ⟨by simp, by simp⟩, hfit⟩ hfold
    rintro place - found t found' t' ⟨hflat, hfound, hfit⟩ hstep
    exact ⟨((moves_addDriver found place).of_ok hstep).flat hflat, scalars_of_addDriver hflat
      (fun edge he link hk => (hfit edge he link hk).flat) hfound hstep, fits_of_addDriver hfit hstep⟩
  obtain ⟨-, rfl⟩ := id_of_node? hnode
  exact ⟨⟨hfound.shares, isList_of_listDrivers ht hnode hlists⟩,
    hfit'.of_edges ((moves_listDrivers _ _ _).of_ok hlists).edges⟩

/-- An edge that hands on its one element fits if the node it leads to has its turn. -/
theorem fits_of_narrowEdge {share : Share} (hvalue : share.value.isList = false)
    (hturned : ∀ edge, g.edges[share.edge]? = some edge → turned edge.target)
    (hfit : g.AllFit many turned) {u : Unit} (h : narrowEdge share g = .ok u g') :
    g'.AllFit many turned := by
  obtain rfl := modify_eq_ok.mp h
  intro edge he
  rcases mem_modify he with hold | ⟨old, hold, rfl⟩
  · exact hfit edge hold
  · cases hk : old.kind with
    | after => exact hfit old (List.mem_of_getElem? hold)
    | data link =>
      refine Edge.fits_data ⟨isFlat_of_scalar hvalue, fun _ => ⟨hvalue, hturned old hold⟩, ?_⟩
      rintro (hc | hc) <;> cases hc

/-- A node that takes a single value of each list has had its turn. -/
theorem fits_of_collapse {before : List Edge} {id : NodeId} (hplan : plan.Scalars)
    (hf : Traced before id plan) (hr : EdgesKept before g.edges) (hturned : turned id)
    (hfit : g.AllFit many turned) {u : Unit} (h : collapse id plan g = .ok u g') :
    g'.AllFit many turned := by
  obtain ⟨_, t, hshares, hlists⟩ := bind_eq_ok.mp h
  have ht : t.AllFit many turned ∧ EdgesKept before t.edges := by
    refine forM_keeps (P := fun t : Graph => t.AllFit many turned ∧ EdgesKept before t.edges)
      (fun entry hentry t v t' ht hstep => ?_) ⟨hfit, hr⟩ hshares
    refine forM_keeps (P := fun t : Graph => t.AllFit many turned ∧ EdgesKept before t.edges)
      (fun share hshare t v t' ht hstep => ⟨?_, ?_⟩) ht hstep
    · refine fits_of_narrowEdge (hplan.shares entry hentry share hshare) (fun edge he => ?_) ht.1 hstep
      obtain ⟨old, hold, htarget, -⟩ := hf.shares entry hentry share hshare
      obtain ⟨old', hold', hkeeps⟩ := ht.2.before he
      obtain rfl := Option.some.inj (hold.symm.trans hold')
      rwa [hkeeps.2.1, htarget]
    · exact trans_of EdgesKept ht.2 ((moves_narrowEdge share).of_ok hstep).retains.edges
  refine ht.1.of_edges ?_
  have hmoves : Moves SameOutline (plan.lists.forM fun entry => do
      let item ← ofOption entry.2[0]?
      setNodeValue id entry.1 item) :=
    .forM fun _ _ => (moves_ofOption _).bind fun _ => moves_setNodeValue _ _ _
  exact (hmoves.of_ok hlists).edges

end Planning

/-- All edges of a repetition fit what they lead to. Those that led to the node lead to one that has
had its turn, and what the node led to has its turn still to come, so that nothing single was handed
on there when the value was renewed. -/
theorem fits_of_ownEdges {many many' : NodeId → String → Prop} {turned turned' : NodeId → Prop}
    {t t' : Graph} {before : List Edge} {node : Node} {plan : Drivers} {replica : NodeId}
    {edges : List Edge} {serial : Bool} {incoming outgoing : List Nat} {place : Nat}
    {previous? : Option NodeId} (hfit : t.AllFit many turned) (hr : EdgesKept before t.edges)
    (hturned : turned' replica) (hplan : plan.Scalars) (hf : Traced before node.id plan)
    (hflat : t.scope.Flat) (hmany : ∀ key, many node.id key → many' replica key)
    (hin : ∀ place ∈ incoming, ∃ old, before[place]? = some old ∧ old.target = node.id)
    (hout : ∀ place ∈ outgoing, ∃ old, before[place]? = some old ∧ ¬ turned old.target ∧
      ∀ key, many old.target key → many' old.target key)
    (h : ownEdges node plan serial incoming outgoing place previous? replica t = .ok edges t') :
    ∀ edge ∈ edges, edge.Fits many' turned' := by
  have hone : ∀ {takesMany : Prop}, Cardinality.oneToOne = .oneToMany ∨
      Cardinality.oneToOne = .manyToMany → takesMany := by
    rintro _ (hc | hc) <;> cases hc
  have hinward : ∀ {place : Nat} {edge : Edge}, (∃ old, before[place]? = some old ∧
      old.target = node.id) → t.edges[place]? = some edge →
        Edge.Fits many' turned' { edge with target := replica } := by
    rintro place edge ⟨old, hold, htarget⟩ he
    obtain ⟨old', hold', hkeeps⟩ := hr.before he
    obtain rfl := Option.some.inj (hold.symm.trans hold')
    have htarget : edge.target = node.id := hkeeps.2.1.trans htarget
    exact (hfit edge (List.mem_of_getElem? he)).moved (htarget ▸ hmany) fun _ => hturned
  intro edge hmem
  cases made_of_ownEdges h edge hmem with
  | share hentry hshare =>
    have hscalar := hplan.shares _ hentry _ hshare
    exact Edge.fits_data ⟨isFlat_of_scalar hscalar, fun _ => ⟨hscalar, hturned⟩, hone⟩
  | strand hstrand hplace he =>
    obtain ⟨old, hold, htarget, -⟩ := hf.strands _ hstrand _ hplace
    exact hinward ⟨old, hold, htarget⟩ he
  | kept hplace _ he => exact hinward (hin _ hplace) he
  | order _ _ _ => exact Edge.fits_of_after rfl
  | @output _ edge link value? u _ hplace he hk hu hv =>
    obtain ⟨old, hold, hwaits, hmany⟩ := hout _ hplace
    obtain ⟨old', hold', hkeeps⟩ := hr.before he
    obtain rfl := Option.some.inj (hold.symm.trans hold')
    rw [← hkeeps.2.1] at hwaits hmany
    obtain ⟨hwas, hsingle, hlist⟩ := hfit edge (List.mem_of_getElem? he) link hk
    refine Edge.fits_data
      ⟨?_, fun hsome => absurd (hsingle hsome).2 hwaits, fun hc => hmany _ (hlist hc)⟩
    cases value? with
    | none => exact hwas
    | some value => exact flat_of_propertyValue (hu.flat hflat) hv value rfl
  | chain _ => exact Edge.fits_of_after rfl
  | carry _ hu hv =>
    exact Edge.fits_data ⟨flat_of_propertyValue (hu.flat hflat) hv _ rfl, by simp, hone⟩

section Replicate

variable {turned turned' : NodeId → Prop} {g t g' : Graph} {node : Node} {plan : Drivers}
  {count : Nat} {u : Unit}

/-- The edges after a node was replaced by repetitions fit what they lead to, if what it led to has
its turn still to come. -/
theorem fits_of_replicate (hloop : ∀ edge ∈ g.edges, edge.source ≠ edge.target)
    (hf : Traced g.edges node.id plan) (hr : Retains g t) (ht : t.Level) (hn : node ∈ t.nodes)
    (hplan : plan.Scalars) (hfit : t.AllFit t.TakesMany turned)
    (hwaits : ∀ old ∈ g.edges, old.source = node.id → ¬ turned old.target)
    (hturned : ∀ id, turned id → turned' id) (hnew : ∀ id, g.nextId ≤ id → turned' id)
    (h : replicate node plan count t = .ok u g') : g'.AllFit g'.TakesMany turned' := by
  have hlast : g'.Level := level_replicate ht hn hplan h
  obtain ⟨serial, added, t₁, t₂, t₃, parts, -, hextends, hadded, houtputs, hedges, hmemo, hlength, rfl,
    hown⟩ := runs_of_replicate h
  have hsame : SameOutline t₁ t₂ := (moves_separateOutputs (fun _ _ h => h.sameOutline) _ _
    fun _ _ _ _ _ _ _ _ => moves_setNodeValue _ _ _).of_ok houtputs
  -- What is remembered only grows until the end, where it has no list in a list.
  have hflat : t₂.scope.Flat := by
    obtain ⟨memo, hlearns, rfl⟩ := hmemo
    exact hlast.flat.of_recalls rfl hlearns.recalls
  have hkept : EdgesKept g.edges t₂.edges := hedges ▸ hr.edges
  have hfit₂ : t₂.AllFit t.TakesMany turned := hfit.of_edges hedges
  have hids : ∀ id, id ∈ added.map (·.id) → g.nextId ≤ id := by
    intro id hid
    rw [hextends.1, hr.nextId] at hid
    exact (List.mem_range'_1.mp hid).1
  have hnodes : t₃.nodes.map Node.outline = (t.nodes ++ added).map Node.outline := by
    obtain ⟨-, scope, rfl⟩ := hextends
    exact (trans_of SameOutline hsame hmemo.sameOutline).map_nodes Node.outline fun _ => rfl
  have hothers : ∀ id ≠ node.id, ∀ key, t.TakesMany id key →
      ((t₃.removeNode node.id).addEdges parts.flatten).TakesMany id key := by
    rintro id hne key ⟨other, ho, rfl, hp⟩
    exact takesMany_of_remaining hnodes (List.mem_append_left _ ho) hne hp
  have hmany : ∀ replica ∈ added.map (·.id), ∀ key, t.TakesMany node.id key →
      ((t₃.removeNode node.id).addEdges parts.flatten).TakesMany replica key := by
    rintro replica hreplica key ⟨other, ho, hid, hp⟩
    obtain rfl := List.inj_on_of_nodup_map ht.mirrored.ids ho hn hid
    obtain ⟨copy, hcopy, rfl⟩ := List.mem_map.mp hreplica
    obtain ⟨place, -, hmade⟩ := exists_of_mem_right hadded hcopy
    have hne : copy.id ≠ other.id := by
      have hbelow : other.id < g.nextId := hr.nextId ▸ ht.mirrored.below _ (List.mem_map_of_mem hn)
      exact (hbelow.trans_le (hids _ hreplica)).ne'
    exact takesMany_of_remaining hnodes (List.mem_append_right _ hcopy) hne (hmade.spec.symm ▸ hp)
  intro edge he
  rcases untouched_or_part hlength he with
    ⟨he, -, htarget⟩ | ⟨place, replica, own, hreplica, hplace, he⟩
  · have hold : edge.Fits t.TakesMany turned := hfit₂ edge (hmemo.edges ▸ he)
    exact hold.mono (hothers _ htarget) (hturned _)
  · obtain ⟨v, v', hv, -, hrun⟩ := hown place replica own hreplica hplace
    have hin := List.mem_of_getElem? hreplica
    exact fits_of_ownEdges (hfit₂.of_edges hv.edges) (hv.edges ▸ hkept) (hnew _ (hids _ hin)) hplan hf
      (hv.flat hflat) (hmany replica hin)
      (fun place hplace => (mem_placesWhere_of_kept hkept (fun _ _ hkeeps => hkeeps.2.1) place).mp hplace)
      (fun place hplace => by
        obtain ⟨old, hold, hsource⟩ :=
          (mem_placesWhere_of_kept hkept (fun _ _ hkeeps => hkeeps.1) place).mp hplace
        have hmem := List.mem_of_getElem? hold
        exact ⟨old, hold, hwaits old hmem hsource,
          hothers _ fun heq => hloop old hmem (hsource.trans heq.symm)⟩) hrun edge he

end Replicate

/-- The nodes whose turns are still to come. -/
structure Queued (waiting : List NodeId) (g : Graph) : Prop where
  /-- Edges lead forward among them. -/
  ordered : Ordered g.edges waiting
  /-- Their handles are given out. -/
  below : ∀ id ∈ waiting, id < g.nextId

/-- None whose turn is to come leads to a node that has its turn now, nor to a repetition of it. -/
theorem ordered_of_replicated {node : Node} {plan : Drivers} {serial : Bool} {added : List Node}
    {parts : List (List Edge)} {waiting : List NodeId} {g g' : Graph}
    (hordered : Ordered g.edges waiting) (hnew : node.id ∉ waiting)
    (hbelow : ∀ other ∈ waiting, other < g.nextId)
    (h : Replicated node plan serial added parts g g') : Ordered g'.edges waiting := by
  refine hordered.of_leads fun other hother next hl => ?_
  have hold : other ∉ added.map (·.id) := fun hmem =>
    absurd (hbelow other hother) (Nat.not_lt.mpr (h.fresh hmem))
  rcases h.leads_iff.mp hl with ⟨hl, -⟩ | ⟨own, hmem, hl⟩
  · exact hl
  · rcases h.leads_own hmem hl with ⟨hl, -⟩ | ⟨-, hmem⟩ | ⟨-, place, hplace, -⟩
    · exact absurd (hordered.idxOf_lt hother hl).1 hnew
    · exact absurd hmem hold
    · exact absurd (List.mem_of_getElem? hplace) hold

section Queue

variable {id : NodeId} {waiting : List NodeId} {g g' : Graph} (h : Queued (id :: waiting) g)

include h

/-- Nodes are still queued when nodes and edges are kept. -/
theorem Queued.of_retains (hr : Retains g g') : Queued waiting g' :=
  ⟨h.ordered.2.2.of_leads fun _ _ _ hl => hr.edges.leads_iff.mp hl,
    fun other hother => hr.nextId ▸ h.below other (List.mem_cons_of_mem _ hother)⟩

/-- The others are still to come when a node has had its turn. -/
theorem Queued.splitNode {u : Unit} (hstep : splitNode id g = .ok u g') : Queued waiting g' := by
  cases turned_of_splitNode hstep with
  | absent _ => exact h.of_retains (refl_of Retains g)
  | idle _ hf _ => exact h.of_retains ((moves_drivers id).of_ok hf).retains
  | collapsed _ hf _ hc =>
    exact h.of_retains (trans_of Retains ((moves_drivers id).of_ok hf).retains
      ((moves_collapse id _).of_ok hc))
  | replaced hnode hf _ _ hr =>
    obtain ⟨-, rfl⟩ := id_of_node? hnode
    obtain ⟨hnew, -, hordered⟩ := h.ordered
    have hbelow := fun other hother => h.below other (List.mem_cons_of_mem _ hother)
    obtain ⟨serial, added, parts, -, -, hreplicated⟩ := replicated_of_replicate
      (h.below _ List.mem_cons_self) (traced_of_drivers hf) ((moves_drivers _).of_ok hf).retains hr
    refine ⟨ordered_of_replicated hordered hnew hbelow hreplicated, fun other hother => ?_⟩
    rw [hreplicated.nextId]
    exact (hbelow other hother).trans_le (Nat.le_add_right _ _)

end Queue

/-- After the turns of some nodes the others are still queued. -/
theorem Queued.of_turns {nodes : List Node} {waiting : List NodeId} {g g' : Graph} {u : Unit}
    (h : Queued (nodes.map (·.id) ++ waiting) g) (hturns : nodes.forM (Graph.splitNode ·.id) g = .ok u g') :
    Queued waiting g' := by
  induction nodes generalizing g with
  | nil =>
    obtain ⟨-, rfl⟩ := pure_eq_ok.mp hturns
    exact h
  | cons node nodes ih =>
    obtain ⟨_, t, hstep, hturns⟩ := bind_eq_ok.mp hturns
    exact ih (h.splitNode hstep) hturns

/-- A graph while nodes are repeated: values and edges fit, and the nodes whose turns are still to
come are in an order in which edges lead forward. -/
structure Fitting (waiting : List NodeId) (g : Graph) : Prop where
  /-- What nodes have of their own are scalars. -/
  level : g.Level
  /-- Edges lead forward among the nodes whose turns are still to come. -/
  ordered : Ordered g.edges waiting
  /-- Their handles are given out. -/
  below : ∀ id ∈ waiting, id < g.nextId
  /-- What edges hand on fits. -/
  edges : g.AllFit g.TakesMany (· ∉ waiting)

/-- The turn of a node leaves edges that fit. -/
theorem Fitting.splitNode {jobs : List Job} {id : NodeId} {waiting : List NodeId} {g g' : Graph}
    {u : Unit} (h : Fitting (id :: waiting) g) (ho : g.Orderly jobs)
    (hstep : splitNode id g = .ok u g') : Fitting waiting g' := by
  obtain ⟨hnew, hahead, -⟩ := h.ordered
  have hqueued : Queued waiting g' := Queued.splitNode ⟨h.ordered, h.below⟩ hstep
  have hbelow : ∀ other ∈ waiting, other < g.nextId :=
    fun other hother => h.below other (List.mem_cons_of_mem _ hother)
  have hless : ∀ other, other ∉ id :: waiting → other ∉ waiting :=
    fun other hno hmem => hno (List.mem_cons_of_mem _ hmem)
  -- Where nodes keep their outlines, only what edges hand on is in question.
  have hretained : Retains g g' → g'.AllFit g.TakesMany (· ∉ waiting) →
      g'.AllFit g'.TakesMany (· ∉ waiting) := fun hr hfit edge he =>
    (hfit edge he).mono (fun key => takesMany_of_map hr.nodes) fun hno => hno
  cases turned_of_splitNode hstep with
  | absent _ =>
    exact ⟨h.level, hqueued.ordered, hqueued.below, fun edge he =>
      (h.edges edge he).mono (fun _ h => h) (hless _)⟩
  | idle _ hf _ =>
    have hplans := (moves_drivers id).of_ok hf
    refine ⟨hplans.level h.level, hqueued.ordered, hqueued.below,
      hretained hplans.retains fun edge he => ?_⟩
    exact ((fits_of_drivers h.level.flat h.edges hf).2 edge he).mono (fun _ h => h) (hless _)
  | @collapsed _ plan t _ _ hf _ hc =>
    have hplans := (moves_drivers id).of_ok hf
    obtain ⟨hplan, hfit⟩ := fits_of_drivers h.level.flat h.edges hf
    have ht : t.Level := hplans.level h.level
    refine ⟨(level_collapse hplan).of_ok hc ht, hqueued.ordered, hqueued.below, hretained
      (trans_of Retains hplans.retains ((moves_collapse id plan).of_ok hc)) ?_⟩
    refine fits_of_collapse hplan (traced_of_drivers hf) hplans.retains.edges hnew (fun edge he => ?_) hc
    exact (hfit edge he).mono (fun _ h => h) (hless _)
  | @replaced node plan t _ count hnode hf _ _ hr =>
    obtain ⟨hn, rfl⟩ := id_of_node? hnode
    have hplans := (moves_drivers node.id).of_ok hf
    obtain ⟨hplan, hfit⟩ := fits_of_drivers h.level.flat h.edges hf
    have ht : t.Level := hplans.level h.level
    have hin : node ∈ t.nodes := hplans.nodes ▸ hn
    refine ⟨level_replicate ht hin hplan hr, hqueued.ordered, hqueued.below, ?_⟩
    have hfit' : t.AllFit t.TakesMany (· ∉ node.id :: waiting) := fun edge he =>
      (hfit edge he).mono (fun _ => takesMany_of_map hplans.retains.nodes) fun hno => hno
    refine fits_of_replicate ho.loopless (traced_of_drivers hf) hplans.retains ht hin hplan hfit'
      (fun old hold hsource hno => hno ?_) hless (fun other hother hmem => ?_) hr
    · exact List.mem_cons_of_mem _ (hahead _ ⟨old, hold, hsource, rfl⟩)
    · exact absurd (hbelow other hmem) (Nat.not_lt.mpr hother)

/-- A link to a parameter gathers a list only if that takes one. -/
theorem fits_of_build {pipeline : Pipeline} {built : Graph} {turned : NodeId → Prop}
    (hpipeline : pipeline.Flat) (h : build pipeline = .ok built) :
    built.AllFit built.TakesMany turned := by
  have hstocked := stocked_of_build (Pipeline.flat_iff.mp hpipeline) hereditary_isFlat h
  intro edge he
  rcases referred_of_build h he with hafter |
    ⟨node, hn, -, -, parameter, hp, -, -, -, -, owner, v, -, -, rfl⟩
  · exact Edge.fits_of_after hafter
  · refine Edge.fits_data ⟨hstocked _ he _ rfl, by simp, fun hc => ⟨node, hn, rfl, parameter, hp, rfl, ?_⟩⟩
    cases howns : owner.parameter.isList <;> cases htakes : parameter.isList <;>
      simp [Cardinality.between, howns, htakes] at hc ⊢

/-- After nodes were repeated, all edges fit what they lead to. -/
theorem fitting_of_split {pipeline : Pipeline} {built repeated : Graph} {u : Unit}
    (hpipeline : pipeline.Flat) (hbuild : build pipeline = .ok built)
    (hsplit : split built = .ok u repeated) : Fitting [] repeated := by
  obtain ⟨order, horder, hturns⟩ := split_eq_ok hsplit
  obtain ⟨-, hw, hlinked, -⟩ := build_spec hbuild
  obtain ⟨hordered, hids, -⟩ := ordered_of_topologicalOrder hw.closed horder
  have horderly : built.Orderly pipeline.jobs := orderly_of_topologicalOrder hw hlinked
    (fun node hn => (nodes_of_build hbuild node hn).1) horder
  have hstart : Fitting (order.map (·.id)) built :=
    ⟨level_build hpipeline hbuild, hordered,
      fun id hid => hw.below id ((hids id).mp hid), fits_of_build hpipeline hbuild⟩
  clear horder hordered hids hsplit hbuild hw hlinked
  induction order generalizing built with
  | nil =>
    obtain ⟨-, rfl⟩ := pure_eq_ok.mp hturns
    exact hstart
  | cons node order ih =>
    obtain ⟨_, t, hstep, hturns⟩ := bind_eq_ok.mp hturns
    exact ih hturns (orderly_splitNode horderly hstep) (hstart.splitNode horderly hstep)

end Graph

end Pipework
