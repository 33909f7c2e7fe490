import Pipework.Proofs.Allotment
import Pipework.Proofs.Calls
import Pipework.Proofs.FittingEdges
import Pipework.Proofs.UnrepeatedJobs

/-!
# No list is left where a single value is taken

An edge that brings a list to a parameter that takes a single value is dealt with when the node it
leads to has its turn: it brings nothing, or the node takes its one value, or the node gives way to
repetitions that have edges of their own. When a node gives way, new edges of that kind may start
at its repetitions, but they lead where the edges of the node led, and those nodes have their turns
still to come. So when all have had their turns there is no such edge, and handing on values does
not fail for one.
-/

namespace Pipework

open Step

/-- An edge for the order only brings no list. -/
theorem Edge.firm_of_after {edge : Edge} (h : edge.kind = .after) : edge.Firm := by
  intro link hk
  rw [h] at hk
  cases hk

/-- An edge that brings something else than a list for a single value is firm. -/
theorem Edge.firm_of_link {edge : Edge} {link : DataLink} (hk : edge.kind = .data link)
    (hc : link.cardinality ≠ .manyToOne) : edge.Firm := by
  intro other ho
  rwa [← EdgeKind.data.inj (hk.symm.trans ho)]

namespace Graph

/-- At this place stands an edge that does not bring a list to a parameter that takes a single
value. -/
def FirmAt (edges : List Edge) (place : Nat) : Prop := ∃ edge, edges[place]? = some edge ∧ edge.Firm

/-- The edge at a firm place is firm. -/
theorem FirmAt.firm {edges : List Edge} {place : Nat} {edge : Edge} (h : FirmAt edges place)
    (he : edges[place]? = some edge) : edge.Firm := by
  obtain ⟨other, ho, hfirm⟩ := h
  obtain rfl := Option.some.inj (he.symm.trans ho)
  exact hfirm

/-- A change that makes edges firm leaves firm places firm and makes its own place firm. -/
theorem firmAt_modify {edges : List Edge} {change : Edge → Edge} (hc : ∀ edge, (change edge).Firm)
    (place : Nat) : (∀ other, FirmAt edges other → FirmAt (edges.modify place change) other) ∧
      ∀ edge, edges[place]? = some edge → FirmAt (edges.modify place change) place := by
  constructor
  · rintro other ⟨edge, he, hfirm⟩
    rw [FirmAt, List.getElem?_modify, he]
    by_cases heq : place = other
    · exact ⟨change edge, by simp [heq], hc edge⟩
    · exact ⟨edge, by simp [heq], hfirm⟩
  · exact fun edge he => ⟨change edge, by simp [he], hc edge⟩

/-- Edges go on joining the same nodes, and where none brought a list to a single value none does
now. -/
structure Eases (g g' : Graph) : Prop where
  /-- The edges stay. -/
  kept : EdgesKept g.edges g'.edges
  /-- Those that were firm are firm. -/
  firm : ∀ place, FirmAt g.edges place → FirmAt g'.edges place

instance : Std.Refl Eases := ⟨fun g => ⟨refl_of EdgesKept g.edges, fun _ h => h⟩⟩

instance : IsTrans Graph Eases where
  trans _ _ _ h h' :=
    ⟨trans_of EdgesKept h.kept h'.kept, fun place hfirm => h'.firm place (h.firm place hfirm)⟩

/-- Where edges stay they are eased. -/
theorem eases_of_edges {g g' : Graph} (h : g'.edges = g.edges) : Eases g g' :=
  ⟨h ▸ refl_of EdgesKept g.edges, fun _ hfirm => h ▸ hfirm⟩

/-- Making an edge firm eases the edges. -/
theorem eases_modifyEdge (g : Graph) (place : Nat) {change : Edge → Edge}
    (hkeeps : ∀ edge : Edge, edge.Keeps (change edge)) (hfirm : ∀ edge, (change edge).Firm) :
    Eases g (g.modifyEdge place change) :=
  ⟨edgesKept_modify g.edges place hkeeps, (firmAt_modify hfirm place).1⟩

/-- There is something to be shared out that comes along the edge at this place. -/
def Brings (plan : Drivers) (place : Nat) : Prop :=
  ∃ share, (∃ entry ∈ plan.shares, share ∈ entry.2) ∧ share.edge = place

/-- The elements are those that were there and those that are added. -/
theorem exists_addShares {property : String} {added : List Share}
    {entries : List (String × List Share)} {share : Share} :
    (∃ entry ∈ Drivers.addShares property added entries, share ∈ entry.2) ↔
      (∃ entry ∈ entries, share ∈ entry.2) ∨ share ∈ added := by
  induction entries with
  | nil => simp [Drivers.addShares]
  | cons entry entries ih =>
    rw [Drivers.addShares]
    split
    next hsame =>
      simp only [List.mem_cons, exists_eq_or_imp, List.mem_append]
      exact or_right_comm
    next =>
      simp only [List.mem_cons, exists_eq_or_imp, ih]
      exact or_assoc.symm

/-- The edges of strands are firm. -/
def FirmStrands (plan : Drivers) (g : Graph) : Prop :=
  ∀ strand ∈ plan.strands, ∀ place ∈ strand.edges, FirmAt g.edges place

/-- Strands of firm edges stay such when edges are eased. -/
theorem FirmStrands.of_eases {plan : Drivers} {g g' : Graph} (h : FirmStrands plan g)
    (hg : Eases g g') : FirmStrands plan g' := fun strand hstrand place hplace =>
  hg.firm place (h strand hstrand place hplace)

/-- Taking account of the edges at these places eases them, and each edge that is not firm
thereafter brings something to be shared out. -/
structure Accounts (places : List Nat) (found : Drivers) (g : Graph) (found' : Drivers)
    (g' : Graph) : Prop where
  /-- Edges are eased. -/
  eases : Eases g g'
  /-- Nothing that was to be shared out is forgotten. -/
  more : ∀ place, Brings found place → Brings found' place
  /-- What is not firm brings something. -/
  brings : ∀ place ∈ places, FirmAt g'.edges place ∨ Brings found' place
  /-- Strands are made of firm edges. -/
  strands : FirmStrands found g → FirmStrands found' g'

/-- Taking account of an edge makes it firm or notes what it brings. -/
theorem accounts_of_addDriver {found found' : Drivers} {place : Nat} {g g' : Graph}
    (h : addDriver found place g = .ok found' g') : Accounts [place] found g found' g' := by
  have hone : ∀ {P : Nat → Prop}, P place → ∀ other ∈ [place], P other := fun hp other ho =>
    List.mem_singleton.mp ho ▸ hp
  obtain ⟨edge, hedge, hnoted⟩ := noted_of_addDriver h
  cases hnoted with
  | order hk =>
    exact ⟨refl_of Eases g, fun _ hb => hb, hone (.inl ⟨edge, hedge, Edge.firm_of_after hk⟩), id⟩
  | list hk hc =>
    have hfirm : edge.Firm := Edge.firm_of_link hk (by rcases hc with hc | hc <;> simp [hc])
    exact ⟨refl_of Eases g, fun _ hb => hb, hone (.inl ⟨edge, hedge, hfirm⟩), id⟩
  | @empty link current t hk hc hv hi =>
    have hsame : t.edges = g.edges := ((moves_propertyValue _ _).of_ok hv).edges
    let change : Edge → Edge := ({ · with kind := .after })
    have hafter : ∀ edge, (change edge).Firm := fun _ => Edge.firm_of_after rfl
    have hkeeps : ∀ edge : Edge, edge.Keeps (change edge) := fun edge =>
      ⟨rfl, rfl, fun key hk => absurd hk (Edge.not_fills_of_after rfl key)⟩
    have heases : Eases g (t.modifyEdge place change) :=
      trans_of Eases (eases_of_edges hsame) (eases_modifyEdge t place hkeeps hafter)
    have hfirm := (firmAt_modify hafter place).2 edge (hsame ▸ hedge)
    exact ⟨heases, fun _ hb => hb, hone (.inl hfirm), fun hs => hs.of_eases heases⟩
  | @shares link current _ hk hc hv hi =>
    have heases : Eases g g' := eases_of_edges ((moves_propertyValue _ _).of_ok hv).edges
    refine ⟨heases, ?_, hone (.inr ?_), fun hs => hs.of_eases heases⟩
    · rintro other ⟨share, hshare, rfl⟩
      exact ⟨share, exists_addShares.mpr (.inl hshare), rfl⟩
    · obtain ⟨item, hitem⟩ := List.exists_mem_of_ne_nil
        (sharesAt place edge.source link.sourceProperty (current.getD link.value).toList)
        (by simpa [sharesAt] using hi)
      refine ⟨item, exists_addShares.mpr (.inr hitem), ?_⟩
      obtain ⟨entry, -, rfl⟩ := List.mem_map.mp hitem
      rfl
  | @strand link source hk hc hn =>
    have hfirm : FirmAt g.edges place := ⟨edge, hedge, Edge.firm_of_link hk (by simp [hc])⟩
    refine ⟨refl_of Eases g, fun _ hb => hb, hone (.inl hfirm), ?_⟩
    intro hs strand hstrand other ho
    rcases mem_of_mem_addStrand hstrand ho with ⟨-, rfl⟩ | ⟨old, hold, -, ho⟩
    · exact hfirm
    · exact hs old hold other ho

/-- One edge after another is taken account of. -/
theorem accounts_of_foldlM {places : List Nat} {found found' : Drivers} {g g' : Graph}
    (h : places.foldlM addDriver found g = .ok found' g') : Accounts places found g found' g' := by
  induction places generalizing found g with
  | nil =>
    obtain ⟨rfl, rfl⟩ := pure_eq_ok.mp h
    exact ⟨refl_of Eases g, fun _ hb => hb, fun _ hp => absurd hp List.not_mem_nil, id⟩
  | cons place places ih =>
    rw [List.foldlM_cons] at h
    obtain ⟨middle, t, hstep, hrest⟩ := bind_eq_ok.mp h
    have hfirst := accounts_of_addDriver hstep
    have hlast := ih hrest
    refine ⟨trans_of Eases hfirst.eases hlast.eases, fun other hb => hlast.more other
      (hfirst.more other hb), fun other ho => ?_, fun hs => hlast.strands (hfirst.strands hs)⟩
    rcases List.mem_cons.mp ho with rfl | ho
    · exact (hfirst.brings other (List.mem_singleton_self other)).imp (hlast.eases.firm other)
        (hlast.more other)
    · exact hlast.brings other ho

/-- All edges to a node that are not firm bring something to be shared out. -/
theorem accounts_of_drivers {id : NodeId} {plan : Drivers} {g g' : Graph}
    (h : drivers id g = .ok plan g') : Accounts (g.incoming id) {} g plan g' := by
  obtain ⟨found, t, node, lists, hfold, -, hlists, rfl⟩ := drivers_eq_ok h
  have hfound := accounts_of_foldlM hfold
  have hlast : Eases t g' := eases_of_edges ((moves_listDrivers _ _ _).of_ok hlists).edges
  refine ⟨trans_of Eases hfound.eases hlast, hfound.more, fun place hplace => ?_, fun hs => ?_⟩
  · exact (hfound.brings place hplace).imp_left (hlast.firm place)
  · exact fun strand hstrand =>
      ((hfound.strands hs).of_eases hlast) strand (List.mem_of_mem_filter hstrand)

/-- A narrowed edge hands on a single value. -/
theorem narrowEdge_spec {share : Share} {g g' : Graph} {u : Unit}
    (h : narrowEdge share g = .ok u g') :
    Eases g g' ∧ ∀ edge, g.edges[share.edge]? = some edge → FirmAt g'.edges share.edge := by
  have hplans : Plans g g' := (moves_narrowEdge share).of_ok h
  obtain rfl := modify_eq_ok.mp h
  refine (firmAt_modify (fun edge => ?_) share.edge).imp_left fun hstay =>
    ⟨hplans.retains.edges, hstay⟩
  cases hk : edge.kind with
  | after => exact Edge.firm_of_after hk
  | data link => exact Edge.firm_of_link rfl (by simp [DataLink.single])

/-- What was to be shared out is handed on as a single value when a node takes what it is given. -/
theorem firm_of_collapse {id : NodeId} {plan : Drivers} {g g' : Graph} {u : Unit}
    (hin : ∀ place, Brings plan place → ∃ edge, g.edges[place]? = some edge)
    (h : collapse id plan g = .ok u g') :
    Eases g g' ∧ ∀ place, Brings plan place → FirmAt g'.edges place := by
  have hnarrow : ∀ share, Moves Eases (narrowEdge share) := fun share t =>
    (narrowEdge_spec (u := ()) rfl).1
  obtain ⟨_, t, hshares, hlists⟩ := bind_eq_ok.mp h
  have hsets : Moves SameOutline (plan.lists.forM fun entry => do
      let item ← ofOption entry.2[0]?
      setNodeValue id entry.1 item) :=
    .forM fun _ _ => (moves_ofOption _).bind fun _ => moves_setNodeValue _ _ _
  have hlast : Eases t g' := eases_of_edges (hsets.of_ok hlists).edges
  have hentries : ∀ entry ∈ plan.shares, Moves Eases (entry.2.forM narrowEdge) :=
    fun entry _ => .forM fun share _ => hnarrow share
  refine ⟨trans_of Eases ((Moves.forM hentries).of_ok hshares) hlast, ?_⟩
  rintro place ⟨share, ⟨entry, hentry, hshare⟩, rfl⟩
  obtain ⟨edge, hedge⟩ := hin share.edge ⟨share, ⟨entry, hentry, hshare⟩, rfl⟩
  -- The edge is narrowed when its share has its turn, and firm from then on.
  obtain ⟨t₁, _, t₂, h₁, hstep, h₂⟩ := exists_of_forM hentries hshares hentry
  obtain ⟨t₃, _, t₄, h₃, hstep, h₄⟩ := exists_of_forM (fun share _ => hnarrow share) hstep hshare
  obtain ⟨old, hold, -⟩ := (trans_of Eases h₁ h₃).kept.behind hedge
  have hnow := (narrowEdge_spec hstep).2 old hold
  exact (trans_of Eases h₄ (trans_of Eases h₂ hlast)).firm share.edge hnow

/-- A graph while nodes are repeated: only edges to nodes whose turns are still to come may bring a
list to a parameter that takes a single value. -/
structure Cleared (waiting : List NodeId) (g : Graph) : Prop where
  /-- Handles fit together, and no edge leads back to where it starts. -/
  sturdy : g.Sturdy
  /-- These nodes stand in an order. -/
  queued : Queued waiting g
  /-- No edge to another node brings a list to a single value. -/
  firm : ∀ edge ∈ g.edges, edge.target ∉ waiting → edge.Firm

section Turn

variable {id : NodeId} {waiting : List NodeId} {g : Graph} (h : Cleared (id :: waiting) g)

include h

/-- When it was found out what a node is repeated for, only edges to it that bring something to be
shared out are not firm yet. -/
theorem Cleared.firm_or_brings {plan : Drivers} {t : Graph} (hf : drivers id g = .ok plan t)
    {place : Nat} {edge : Edge} (he : t.edges[place]? = some edge) (hno : edge.target ∉ waiting) :
    edge.Firm ∨ edge.target = id ∧ Brings plan place := by
  have haccounts := accounts_of_drivers hf
  obtain ⟨old, hold, hkeeps⟩ := haccounts.eases.kept.before he
  by_cases htarget : edge.target = id
  · have hincoming : place ∈ g.incoming id :=
      mem_placesWhere.mpr ⟨old, hold, by simpa [← hkeeps.2.1] using htarget⟩
    exact (haccounts.brings place hincoming).imp (·.firm he) fun hb => ⟨htarget, hb⟩
  · have hfirm : old.Firm := h.firm old (List.mem_of_getElem? hold) fun hmem => by
      rw [← hkeeps.2.1] at hmem
      exact (List.mem_cons.mp hmem).elim htarget hno
    exact .inl ((haccounts.eases.firm place ⟨old, hold, hfirm⟩).firm he)

/-- Where edges were only eased, they are firm if those are that brought something. -/
theorem Cleared.firm_of_eases {plan : Drivers} {t t' : Graph} (hf : drivers id g = .ok plan t)
    (heases : Eases t t') (hnone : ∀ place, Brings plan place → FirmAt t'.edges place) :
    ∀ edge ∈ t'.edges, edge.target ∉ waiting → edge.Firm := by
  intro edge he hno
  obtain ⟨place, hplace⟩ := List.mem_iff_getElem?.mp he
  obtain ⟨old, hold, hkeeps⟩ := heases.kept.before hplace
  rcases h.firm_or_brings hf hold (hkeeps.2.1 ▸ hno) with hfirm | ⟨-, hbrings⟩
  · exact (heases.firm place ⟨old, hold, hfirm⟩).firm hplace
  · exact (hnone place hbrings).firm hplace

/-- All edges of repetitions are firm, but for those that lead on to nodes whose turns are still to
come. -/
theorem Cleared.firm_of_ownEdges {node : Node} {plan : Drivers} {t v t' : Graph} {serial : Bool}
    {incoming outgoing : List Nat} {place : Nat} {previous? : Option NodeId} {replica : NodeId}
    {own : List Edge} (hf : drivers id g = .ok plan t) (hv : v.edges = t.edges)
    (hin : ∀ place ∈ incoming, ∃ edge, t.edges[place]? = some edge ∧ edge.target = id)
    (hout : ∀ place ∈ outgoing, ∃ edge, t.edges[place]? = some edge ∧ edge.source = id)
    (hown : ownEdges node plan serial incoming outgoing place previous? replica v = .ok own t') :
    ∀ edge ∈ own, edge.target ∉ waiting → edge.Firm := by
  obtain ⟨hnew, hahead, -⟩ := h.queued.ordered
  have haccounts := accounts_of_drivers hf
  have hmoved : ∀ {edge : Edge}, edge.Firm → Edge.Firm { edge with target := replica } :=
    fun hfirm => hfirm
  intro edge hmem hno
  cases made_of_ownEdges hown edge hmem with
  | share _ _ => exact Edge.firm_of_link rfl (by simp)
  | strand hstrand hplace he =>
    have hempty : FirmStrands {} g := fun strand hstrand => absurd hstrand List.not_mem_nil
    exact hmoved ((haccounts.strands hempty _ hstrand _ hplace).firm (hv ▸ he))
  | @kept other old hplace hfree he =>
    rw [hv] at he
    obtain ⟨found, hfound, htarget⟩ := hin other hplace
    obtain rfl := Option.some.inj (he.symm.trans hfound)
    refine hmoved ((h.firm_or_brings hf he (htarget ▸ hnew)).resolve_right ?_)
    rintro ⟨-, share, ⟨entry, hentry, hshare⟩, rfl⟩
    have hconsumes : plan.consumes share.edge = true := by
      rw [Drivers.consumes, Bool.or_eq_true, List.any_eq_true]
      exact .inl ⟨entry, hentry, List.any_eq_true.mpr ⟨share, hshare, by simp⟩⟩
    rw [hconsumes] at hfree
    cases hfree
  | order _ _ _ => exact Edge.firm_of_after rfl
  | @output other old _ _ _ _ hplace he _ _ _ =>
    -- What the node led to has its turn still to come.
    rw [hv] at he
    obtain ⟨found, hfound, hsource⟩ := hout other hplace
    obtain rfl := Option.some.inj (he.symm.trans hfound)
    obtain ⟨before, hbefore, hs, ht, -⟩ := haccounts.eases.kept.before he
    have hl : Leads g.edges id old.target :=
      ⟨before, List.mem_of_getElem? hbefore, hs.symm.trans hsource, ht.symm⟩
    exact absurd (hahead _ hl) hno
  | chain _ => exact Edge.firm_of_after rfl
  | carry _ _ _ => exact Edge.firm_of_link rfl (by simp)

/-- The edges of a node that gives way to repetitions are dealt out to them, and the others were
firm. -/
theorem Cleared.firm_of_replicate {node : Node} (hid : node.id = id) {plan : Drivers} {t g' : Graph}
    {count : Nat} {u : Unit} (hf : drivers id g = .ok plan t)
    (hr : replicate node plan count t = .ok u g') :
    ∀ edge ∈ g'.edges, edge.target ∉ waiting → edge.Firm := by
  obtain ⟨serial, added, t₁, t₂, t₃, parts, -, -, -, -, hedges, hmemo, hlength, rfl, hown⟩ :=
    runs_of_replicate hr
  have hplaces : ∀ {test : Edge → Bool}, ∀ place ∈ t₂.placesWhere test,
      ∃ edge, t.edges[place]? = some edge ∧ test edge := fun place hplace =>
    hedges ▸ mem_placesWhere.mp hplace
  intro edge he hno
  rcases untouched_or_part hlength he with
    ⟨he, -, htarget⟩ | ⟨place, replica, own, hreplica, hplace, he⟩
  · rw [hmemo.edges, hedges] at he
    obtain ⟨place, hplace⟩ := List.mem_iff_getElem?.mp he
    exact (h.firm_or_brings hf hplace hno).resolve_right fun hb => htarget (hb.1.trans hid.symm)
  · obtain ⟨v, v', hv, -, hrun⟩ := hown place replica own hreplica hplace
    refine h.firm_of_ownEdges hf (hv.edges.trans hedges) (fun place hplace => ?_)
      (fun place hplace => ?_) hrun edge he hno
    · exact (hplaces place hplace).imp fun _ hedge => ⟨hedge.1, by simpa [hid] using hedge.2⟩
    · exact (hplaces place hplace).imp fun _ hedge => ⟨hedge.1, by simpa [hid] using hedge.2⟩

/-- The turn of a node clears it. -/
theorem Cleared.splitNode {g' : Graph} {u : Unit} (hstep : splitNode id g = .ok u g') :
    Cleared waiting g' := by
  refine ⟨h.sturdy.splitNode hstep, h.queued.splitNode hstep, ?_⟩
  cases turned_of_splitNode hstep with
  | absent hn =>
    refine fun edge he hno => h.firm edge he fun hmem => ?_
    rcases List.mem_cons.mp hmem with htarget | hmem
    · obtain ⟨node, hnode, hid⟩ := List.mem_map.mp (h.sturdy.wellFormed.closed edge he).2
      exact List.find?_eq_none.mp hn node hnode (by simp [hid, htarget])
    · exact hno hmem
  | idle _ hf hs =>
    refine h.firm_of_eases hf (refl_of Eases _) ?_
    rintro place ⟨share, ⟨entry, hentry, -⟩, -⟩
    obtain ⟨hshares, -⟩ := List.append_eq_nil_iff.mp
      (List.append_eq_nil_iff.mp (sizes_of_size? hs)).1
    rw [List.map_eq_nil_iff.mp hshares] at hentry
    cases hentry
  | @collapsed _ plan t _ _ hf _ hc =>
    have hin : ∀ place, Brings plan place → ∃ edge, t.edges[place]? = some edge := by
      rintro _ ⟨share, ⟨entry, hentry, hshare⟩, rfl⟩
      obtain ⟨old, hold, -⟩ := (traced_of_drivers hf).shares entry hentry share hshare
      obtain ⟨edge, hedge, -⟩ := ((moves_drivers id).of_ok hf).retains.edges.behind hold
      exact ⟨edge, hedge⟩
    obtain ⟨heases, hnone⟩ := firm_of_collapse hin hc
    exact h.firm_of_eases hf heases hnone
  | replaced hnode hf _ _ hr => exact h.firm_of_replicate (id_of_node? hnode).2 hf hr

end Turn

/-- When the nodes have had their turns no edge brings a list to a single value. -/
theorem cleared_of_turns {nodes : List Node} {g g' : Graph} {u : Unit}
    (h : Cleared (nodes.map (·.id)) g) (hturns : nodes.forM (Graph.splitNode ·.id) g = .ok u g') :
    Cleared [] g' := by
  induction nodes generalizing g with
  | nil =>
    obtain ⟨-, rfl⟩ := pure_eq_ok.mp hturns
    exact h
  | cons node nodes ih =>
    obtain ⟨_, t, hstep, hturns⟩ := bind_eq_ok.mp hturns
    exact ih (h.splitNode hstep) hturns

/-- When all nodes had their turns, all edges are firm. -/
theorem firm_of_split {g g' : Graph} {u : Unit} (hw : g.WellFormed) (h : split g = .ok u g') :
    ∀ edge ∈ g'.edges, edge.Firm := by
  obtain ⟨order, horder, hturns⟩ := split_eq_ok h
  obtain ⟨hordered, hids, -⟩ := ordered_of_topologicalOrder hw.closed horder
  have hstart : Cleared (order.map (·.id)) g :=
    ⟨sturdy_of_topologicalOrder hw horder, ⟨hordered, fun id hid => hw.below id ((hids id).mp hid)⟩,
      fun edge he hno => absurd ((hids _).mpr (hw.closed edge he).2) hno⟩
  exact fun edge he => (cleared_of_turns hstart hturns).firm edge he List.not_mem_nil

/-! ### What is not failed for -/

/-- The step never fails because a list is left where a single value is taken. -/
abbrev LeavesNone {α : Type} (x : GraphM α) : Prop := FailsFor (¬ GraphError.IsUnsplit ·) x

/-- A step that only resolves values does not fail for a list that is left. -/
theorem FailsOrdinarily.leavesNone {α : Type} {x : GraphM α} (h : FailsOrdinarily x) :
    LeavesNone x := h.mono fun _ he => he.isPlain.not_isUnsplit

/-- Putting nodes in order does not fail for a list that is left. -/
theorem leavesNone_topologicalOrder (g : Graph) : LeavesNone (ofExcept g.topologicalOrder) :=
  failsFor_topologicalOrder (fun jobs => GraphError.IsCircle.not_isUnsplit ⟨jobs, rfl⟩) g

/-- Repeating nodes does not fail for a list that is left. -/
theorem leavesNone_split : LeavesNone split :=
  FailsFor.get.bind fun g => (leavesNone_topologicalOrder g).bind fun _ =>
    .forM fun node _ => (ordinary_splitNode node.id).leavesNone

/-- Where all edges are firm values can be handed on. -/
theorem not_isUnsplit_of_configure {g g' : Graph} {e : GraphError}
    (hfirm : ∀ edge ∈ g.edges, edge.Firm) (h : configure g = .error e g') : ¬ e.IsUnsplit := by
  rcases bind_eq_error.mp h with h | ⟨_, _, hget, h⟩
  · cases h
  obtain ⟨rfl, rfl⟩ := get_eq_ok.mp hget
  rcases bind_eq_error.mp h with h | ⟨order, _, hat, h⟩
  · exact leavesNone_topologicalOrder g g e g' h
  obtain ⟨-, rfl⟩ := ofExcept_eq_ok.mp hat
  obtain ⟨place, -, t, hsame, hfail⟩ := exists_of_forM_error (R := SameOutline)
    (fun place _ => moves_applyEdge (fun _ _ h => h.sameOutline) moves_setNodeValue place) h
  rcases isOrdinary_or_of_applyEdge hfail with hordinary | ⟨-, edge, link, hedge, hk, hc⟩
  · exact hordinary.isPlain.not_isUnsplit
  · exact absurd hc (hfirm edge (hsame.edges ▸ List.mem_of_getElem? hedge) link hk)

/-- Repeating nodes and then handing on values does not fail for a list that is left. -/
theorem not_isUnsplit_of_spread {g g' : Graph} {e : GraphError} (hw : g.WellFormed)
    (h : spread g = .error e g') : ¬ e.IsUnsplit := by
  rcases bind_eq_error.mp h with h | ⟨_, t, hsplit, h⟩
  · exact leavesNone_split g e g' h
  · exact not_isUnsplit_of_configure (firm_of_split hw hsplit) h

/-- A graph whose handles fit together is not kept from being prepared by a list that is left. -/
def PreparesAll (prepare : GraphM Unit) : Prop :=
  ∀ (g g' : Graph) (e : GraphError), g.WellFormed → prepare g = .error e g' → ¬ e.IsUnsplit

/-- No node is kept from being replaced by a list that is left in the pipeline inside it. -/
theorem PreparesAll.expandNode {prepare : GraphM Unit} (hprepare : PreparesAll prepare)
    (id : NodeId) : LeavesNone (expandNode prepare id) := by
  intro g e g' h
  rcases failure_of_expandNode h with hordinary | ⟨_, nested, settings, t, -, -, -, h⟩
  · exact hordinary.isPlain.not_isUnsplit
  obtain ⟨-, hbuild | ⟨built, left, hbuild, hrun⟩⟩ := prepareInner_eq_error.mp h
  · exact (isPlain_of_build hbuild).not_isUnsplit
  · exact hprepare built left e (build_spec hbuild).2.1 hrun

/-- The stages of a preparation are not kept from coming to an end by a list that is left. -/
theorem PreparesAll.prepareStages {prepare : GraphM Unit} (hprepare : PreparesAll prepare)
    (options : CompileOptions) : PreparesAll (prepareStages options prepare) := by
  intro g g' e hw h
  rcases failure_of_prepareStages h with h | hordinary | ⟨t, -, -, h⟩
  · exact not_isUnsplit_of_spread hw h
  · exact hordinary.isPlain.not_isUnsplit
  · exact FailsFor.forM (fun id _ => hprepare.expandNode id) t e g' h

/-- At any depth of pipelines inside jobs. -/
theorem preparesAll_prepareNested (depth : Nat) : PreparesAll (prepareNested depth) := by
  refine prepareNested_induct ?_ (fun _ ih => ih.prepareStages {}) depth
  rintro g g' e - h ⟨job, parameter, rfl⟩
  cases h

/-- No preparation is kept from coming to an end by a list that is left. -/
theorem preparesAll_prepare (options : CompileOptions) : PreparesAll (prepare options) := by
  intro g g' e hw h
  rw [prepare_eq] at h
  exact (preparesAll_prepareNested g.depth).prepareStages options g g' e hw h

end Graph

open Pipework.Graph

/-- Whatever was done with a graph, no edge brings a list to a single value when its nodes have been
repeated. So neither a preparation of it nor a compilation ever fails for such an edge. -/
theorem lists_are_dealt_out (pipeline : Pipeline) :
    (∀ g, Graph.Reachable pipeline g →
      (∀ u g', split g = .ok u g' → ∀ edge ∈ g'.edges, ∀ link, edge.kind = .data link →
        link.cardinality ≠ .manyToOne) ∧
      ∀ options job parameter left,
        prepare options g ≠ .error (.unsplitManyToOne job parameter) left) ∧
    ∀ options job parameter,
      compile options pipeline ≠ .error (.unsplitManyToOne job parameter) := by
  refine ⟨fun g hg => ⟨fun u g' => firm_of_split hg.wellFormed, ?_⟩, ?_⟩
  · exact fun options job parameter left h =>
      preparesAll_prepare options g left _ hg.wellFormed h ⟨job, parameter, rfl⟩
  intro options job parameter h
  have hunsplit : (GraphError.unsplitManyToOne job parameter).IsUnsplit := ⟨job, parameter, rfl⟩
  cases hbuild : build pipeline with
  | error e =>
    simp only [compile, hbuild, bind, Except.bind] at h
    exact (isPlain_of_build hbuild).not_isUnsplit (Except.error.inj h ▸ hunsplit)
  | ok built =>
    simp only [compile, hbuild, bind, Except.bind] at h
    cases hstages : compileStages options built with
    | ok u graph =>
      simp only [hstages] at h
      split at h <;> cases h
    | error e left =>
      simp only [hstages] at h
      obtain rfl : e = .unsplitManyToOne job parameter := Except.error.inj h
      rcases bind_eq_error.mp hstages with hprepare | ⟨_, t, -, hreduce⟩
      · exact preparesAll_prepare options built left _ (build_spec hbuild).2.1 hprepare hunsplit
      · split at hreduce
        · have hreduces : LeavesNone reduce := failsFor_reduce fun jobs =>
            GraphError.IsCircle.not_isUnsplit ⟨jobs, rfl⟩
          exact (hreduces.bind fun _ => .pure _) t _ left hreduce hunsplit
        · cases hreduce

/-- Books that are opened one by one, and their pages that are read one by one. -/
def library : Pipeline where
  jobs := [
    { id := "shelve"
      parameters := [{ name := "books", isOutput := true, isList := true }]
      configuration := .ofList [("books", .list [.str "atlas", .str "novel"])] },
    { id := "open"
      parameters := [{ name := "book" }, { name := "pages", isOutput := true, isList := true }]
      configuration := .ofList [("book", .str "$\x7bshelve.books\x7d"),
        ("pages", .list [.str "first", .str "last"])] },
    { id := "read"
      parameters := [{ name := "page" }]
      configuration := .ofList [("page", .str "$\x7bopen.pages\x7d")] }]

/-- Two lists meet single values. The second one is dealt out from each of the two books, and none
is left. -/
theorem library_is_read : ∃ built repeated, build library = .ok built ∧
    Graph.Reachable library built ∧ built.edges.map (·.kind.label) = ["Many2One", "Many2One"] ∧
    split built = .ok () repeated ∧ (repeated.nodesOf "read").length = 4 ∧
    (∀ edge ∈ repeated.edges, ∀ link, edge.kind = .data link → link.cardinality ≠ .manyToOne) ∧
    (∀ job parameter left, prepare {} built ≠ .error (.unsplitManyToOne job parameter) left) ∧
    ∀ job parameter, compile {} library ≠ .error (.unsplitManyToOne job parameter) := by
  obtain ⟨built, repeated, -, hbuild, hsplit, -, hlabels, hread⟩ := exists_prepared {} library
    (fun built repeated _ => built.edges.map (·.kind.label) = ["Many2One", "Many2One"] ∧
      (repeated.nodesOf "read").length = 4) (by decide +kernel)
  have hreach : Graph.Reachable library built := .built hbuild
  obtain ⟨hgraphs, hcompile⟩ := lists_are_dealt_out library
  obtain ⟨hedges, hprepare⟩ := hgraphs built hreach
  exact ⟨built, repeated, hbuild, hreach, hlabels, hsplit, hread, hedges () repeated hsplit,
    hprepare {}, hcompile {}⟩

end Pipework
