import Pipework.Proofs.Bystander
import Pipework.Proofs.Handing

/-!
# Sharing out a list

A node is repeated for a list that comes in along an edge when its parameter takes a single value.
If that is the only edge to the parameter, the repetition at each place gets the element there, and
one edge to the parameter, which hands on that element.
-/

namespace Pipework

open Step

namespace Graph

/-- What is planned for one parameter: the lists that come in for it, and the edges that come
together in it. -/
def Drivers.into (drivers : Drivers) (key : String) : List (String × List Share) × List Strand :=
  (drivers.shares.filter (·.1 == key), drivers.strands.filter (·.property == key))

theorem mem_shares_of_into {plan : Drivers} {key : String} {shares : List Share}
    {strands : List Strand} (h : plan.into key = ([(key, shares)], strands)) :
    (key, shares) ∈ plan.shares := by
  have hmem : (key, shares) ∈ (plan.into key).1 := by
    rw [h]
    exact List.mem_singleton_self _
  exact List.mem_of_mem_filter hmem

theorem filter_addShares_of_ne {property key : String} (hne : property ≠ key) (added : List Share)
    (entries : List (String × List Share)) :
    (Drivers.addShares property added entries).filter (·.1 == key) =
      entries.filter (·.1 == key) := by
  induction entries with
  | nil => simp [Drivers.addShares, hne]
  | cons entry entries ih =>
    rw [Drivers.addShares]
    split
    next hsame => simp [hsame, hne]
    · rw [List.filter_cons, List.filter_cons, ih]

theorem filter_addShares_self {key : String} (added : List Share)
    {entries : List (String × List Share)} (h : entries.filter (·.1 == key) = []) :
    (Drivers.addShares key added entries).filter (·.1 == key) = [(key, added)] := by
  induction entries with
  | nil => simp [Drivers.addShares]
  | cons entry entries ih =>
    rw [List.filter_cons] at h
    split at h
    · cases h
    next hother =>
      have hne : entry.1 ≠ key := by simpa using hother
      rw [Drivers.addShares, if_neg hne, List.filter_cons_of_neg (by simpa using hne), ih h]

theorem filter_addStrand_of_ne {property key : String} (hne : property ≠ key)
    (origin sourceProperty : String) (place : Nat) (strands : List Strand) :
    (Drivers.addStrand property origin sourceProperty place strands).filter (·.property == key) =
      strands.filter (·.property == key) := by
  induction strands with
  | nil => simp [Drivers.addStrand, hne]
  | cons strand strands ih =>
    rw [Drivers.addStrand]
    split
    next hsame => simp [hsame.1, hne]
    · rw [List.filter_cons, List.filter_cons, ih]

/-- An edge to another parameter plans nothing for this one. -/
theorem into_of_addDriver {key : String} {place : Nat} {found found' : Drivers} {t t' : Graph}
    (hother : ∀ edge, t.edges[place]? = some edge → ¬ edge.Fills key)
    (h : addDriver found place t = .ok found' t') : found'.into key = found.into key := by
  obtain ⟨edge, hedge, hnoted⟩ := noted_of_addDriver h
  have hne : ∀ link, edge.kind = .data link → link.targetProperty ≠ key := fun link hk heq =>
    hother edge hedge ⟨link, hk, heq⟩
  cases hnoted with
  | order _ | list _ _ | empty _ _ _ _ => rfl
  | shares hk _ _ _ =>
    rw [Drivers.into, Drivers.into, filter_addShares_of_ne (hne _ hk)]
  | strand hk _ _ =>
    rw [Drivers.into, Drivers.into, filter_addStrand_of_ne (hne _ hk)]

/-- Taking account of an edge changes no other edge. -/
theorem edgeAt_of_addDriver {place other : Nat} (hne : other ≠ place) {found found' : Drivers}
    {t t' : Graph} (h : addDriver found place t = .ok found' t') :
    t'.edges[other]? = t.edges[other]? := by
  obtain ⟨edge, hedge, hnoted⟩ := noted_of_addDriver h
  cases hnoted with
  | order _ | list _ _ | strand _ _ _ => rfl
  | shares _ _ hv _ => rw [((moves_propertyValue _ _).of_ok hv).edges]
  | empty _ _ hv _ =>
    rw [modifyEdge, List.getElem?_modify, ((moves_propertyValue _ _).of_ok hv).edges]
    cases t.edges[other]? with
    | none => rfl
    | some old => exact congrArg some (if_neg hne.symm)

theorem Remembers.of_plans {g g' : Graph} {owner key : String} {v : Value}
    (h : Remembers g.scope owner key v) (hplans : Plans g g') : Remembers g'.scope owner key v := by
  obtain ⟨memo, edges, hlearns, -, rfl⟩ := hplans
  exact h.mono rfl hlearns.recalls

theorem Plans.nodes {g g' : Graph} (h : Plans g g') : g'.nodes = g.nodes := by
  obtain ⟨memo, edges, -, -, rfl⟩ := h
  rfl

/-- What is read of a value is what it is found to stand for later on, while it is planned. -/
theorem resolvedIn?_of_propertyValue {t t' g' : Graph} {source : Node} {key : String}
    {value? : Option Value} (hs : t.node? source.id = some source)
    (h : propertyValue source.id key t = .ok value? t') (hplans : Plans t' g') {v : Value}
    (hv : g'.resolvedIn? source.name key = some v) : value? = some v := by
  rcases propertyValue_eq_ok hs h with ⟨-, hno⟩ | ⟨w, rfl, hw⟩
  · obtain ⟨raw, hraw⟩ := held_of_resolvedIn? hv
    obtain ⟨memo, -, rfl⟩ := (moves_propertyValue _ _).of_ok h
    obtain ⟨memo', edges, -, -, rfl⟩ := hplans
    exact absurd hraw (hno raw)
  · rw [← (hw.of_plans hplans).resolvedIn?, hv]

section Planning

variable {g t : Graph} {id : NodeId} {key : String} {edge : Edge} {link : DataLink} {plan : Drivers}
  {source : Node} {items : List Value} (hk : edge.kind = .data link)
  (hc : link.cardinality = .manyToOne) (hkey : link.targetProperty = key)
  (hitems : t.resolvedIn? source.name link.sourceProperty = some (.list items)) (hne : items ≠ [])

include hk hc hitems hne

include hkey in
/-- When account is taken of an edge along which a list comes in, its elements are planned for the
parameter. -/
theorem into_of_addDriver_self {place : Nat} {found found' : Drivers} {u u' : Graph}
    (hedge : u.edges[place]? = some edge) (hs : u.node? edge.source = some source)
    (hnone : found.into key = ([], [])) (h : addDriver found place u = .ok found' u')
    (hend : Plans u' t) : found'.into key =
      ([(key, sharesAt place edge.source link.sourceProperty items)], []) := by
  obtain ⟨now, hnow, hnoted⟩ := noted_of_addDriver h
  obtain rfl := Option.some.inj (hedge.symm.trans hnow)
  have hid := (id_of_node? hs).2
  have hread : ∀ {link' current w}, edge.kind = .data link' →
      propertyValue edge.source link'.sourceProperty u = .ok current w → Plans w t →
      link' = link ∧ current = some (.list items) := by
    intro link' current w hk' hv hw
    obtain rfl := EdgeKind.data.inj (hk'.symm.trans hk)
    rw [← hid] at hv hs
    exact ⟨rfl, resolvedIn?_of_propertyValue hs hv hw hitems⟩
  cases hnoted with
  | order hk' => rw [hk] at hk'; cases hk'
  | list hk' hc' =>
    obtain rfl := EdgeKind.data.inj (hk'.symm.trans hk)
    rcases hc' with hc' | hc' <;> (rw [hc] at hc'; cases hc')
  | strand hk' hc' _ =>
    obtain rfl := EdgeKind.data.inj (hk'.symm.trans hk)
    rw [hc] at hc'
    cases hc'
  | @empty link' current w hk' _ hv hi =>
    have hempty : ∀ edge : Edge, edge.Keeps { edge with kind := .after } :=
      fun edge => ⟨rfl, rfl, fun key hk => absurd hk (Edge.not_fills_of_after rfl key)⟩
    have hw : Plans w t := trans_of Plans ((moves_modifyEdge place hempty).of_ok rfl) hend
    obtain ⟨rfl, rfl⟩ := hread hk' hv hw
    exact absurd hi hne
  | shares hk' _ hv _ =>
    obtain ⟨rfl, rfl⟩ := hread hk' hv hend
    obtain ⟨hshares, hstrands⟩ := Prod.mk.inj hnone
    rw [Drivers.into, hkey, filter_addShares_self _ hshares]
    exact congrArg _ hstrands

/-- If one edge leads to a parameter and a list comes in along it, its elements are what is planned
for the parameter. -/
theorem into_of_drivers (hfed : g.fed id key = [edge]) (hs : g.node? edge.source = some source)
    (h : drivers id g = .ok plan t) : ∃ place : Nat, g.edges[place]? = some edge ∧
      (∀ (other : Nat) old, g.edges[other]? = some old → old.target = id → old.Fills key →
        other = place) ∧
      plan.into key = ([(key, sharesAt place edge.source link.sourceProperty items)], []) := by
  obtain ⟨place, hplace, honly⟩ := exists_place_of_filter hfed
  have hinto := Edge.into_iff.mp (List.mem_filter.mp (hfed ▸ List.mem_singleton_self edge)).2
  have hkey : link.targetProperty = key := Edge.Fills.unique ⟨link, hk, rfl⟩ hinto.2
  obtain ⟨found, t₁, node, lists, hfold, -, hlists, rfl⟩ := drivers_eq_ok h
  obtain ⟨before, behind, hsplit⟩ := List.append_of_mem (mem_incoming.mpr ⟨edge, hplace, hinto.1⟩)
  obtain ⟨-, hnodup, hapart⟩ := List.nodup_append.mp (hsplit ▸ nodup_placesWhere g _ :
    (before ++ place :: behind).Nodup)
  -- Edges at other places lead to other parameters, and go on doing so.
  have hothers : ∀ other ∈ before ++ place :: behind, other ≠ place → ∀ {t}, Retains g t →
      ∀ now, t.edges[other]? = some now → ¬ now.Fills key := by
    intro other ho hother t hr now hnow hfills
    obtain ⟨old, hold, hkeeps⟩ := hr.edges.before hnow
    refine hother (honly other old hold (Edge.into_iff.mpr ⟨?_, hkeeps.2.2 key hfills⟩))
    exact hkeeps.2.1 ▸ target_of_incoming hr (hsplit ▸ ho : other ∈ g.incoming id) hnow
  rw [hsplit, List.foldlM_append] at hfold
  obtain ⟨first, t₂, hbefore, hfold⟩ := bind_eq_ok.mp hfold
  rw [List.foldlM_cons] at hfold
  obtain ⟨second, t₃, hat, hbehind⟩ := bind_eq_ok.mp hfold
  have hplans : ∀ {places : List Nat} {found found' : Drivers} {t t' : Graph},
      places.foldlM addDriver found t = .ok found' t' → Plans t t' := fun hrun =>
    (Moves.foldlM (fun found place _ => moves_addDriver found place) _).of_ok hrun
  obtain ⟨hr₂, hedge, hnone⟩ : Retains g t₂ ∧ t₂.edges[place]? = some edge ∧
      first.into key = ([], []) := by
    refine foldlM_keeps (P := fun found t => Retains g t ∧ t.edges[place]? = some edge ∧
      Drivers.into found key = ([], [])) ?_ ⟨refl_of Retains g, hplace, rfl⟩ hbefore
    rintro other ho found t found' t' ⟨hr, hkept, hnone⟩ hstep
    have hother := hapart other ho place List.mem_cons_self
    refine ⟨trans_of Retains hr ((moves_addDriver found other).of_ok hstep).retains, ?_, ?_⟩
    · rwa [edgeAt_of_addDriver hother.symm hstep]
    · rwa [into_of_addDriver (hothers other (List.mem_append_left _ ho) hother hr) hstep]
  have hs₂ : t₂.node? edge.source = some source := by
    rw [node?, (hplans hbefore).nodes]
    exact hs
  have hsecond := into_of_addDriver_self hk hc hkey hitems hne hedge hs₂ hnone hat
    (trans_of Plans (hplans hbehind) ((moves_listDrivers _ _ _).of_ok hlists).plans)
  have hr₃ := trans_of Retains hr₂ ((moves_addDriver first place).of_ok hat).retains
  have hall : found.into key = second.into key := by
    refine (foldlM_keeps (P := fun found t => Retains g t ∧ Drivers.into found key =
      second.into key) ?_ ⟨hr₃, rfl⟩ hbehind).2
    rintro other ho found t found' t' ⟨hr, hsame⟩ hstep
    have hmem : other ∈ before ++ place :: behind :=
      List.mem_append_right _ (List.mem_cons_of_mem _ ho)
    have hother : other ≠ place := by
      rintro rfl
      exact (List.nodup_cons.mp hnodup).1 ho
    refine ⟨trans_of Retains hr ((moves_addDriver found other).of_ok hstep).retains, ?_⟩
    rwa [into_of_addDriver (hothers other hmem hother hr) hstep]
  refine ⟨place, hplace, fun other old hold ht hf => honly other old hold
    (Edge.into_iff.mpr ⟨ht, hf⟩), ?_⟩
  obtain ⟨hshares, hstrands⟩ := Prod.mk.inj (hall.trans hsecond)
  refine Prod.ext hshares ?_
  change (found.strands.filter _).filter _ = []
  rw [List.filter_comm, hstrands, List.filter_nil]

end Planning

section Own

variable {before : List Edge} {t t' : Graph} {id replica : NodeId} {drivers : Drivers} {place : Nat}
  {key : String} {edges : List Edge}

/-- One list for a parameter makes one edge to it, which hands on its element. -/
theorem filter_shareEdges {shares : List Share} (hinto : (drivers.into key).1 = [(key, shares)])
    (h : shareEdges drivers place replica t = .ok edges t') : ∃ share, shares[place]? = some share ∧
      edges.filter (Edge.into replica key) = [shareEdge share replica key] := by
  have hkey := forall₂_filter (p := (·.1 == key)) (q := Edge.into replica key)
    (forall₂_of_shareEdges h) ?same
  case same =>
    rintro entry edge ⟨share, -, rfl⟩
    rw [Bool.eq_iff_iff, Edge.into_iff, beq_iff_eq]
    exact ⟨fun ⟨_, hfills⟩ => Edge.Fills.unique ⟨_, rfl, rfl⟩ hfills, fun heq => ⟨rfl, _, rfl, heq⟩⟩
  have hone : drivers.shares.filter (·.1 == key) = [(key, shares)] := hinto
  rw [hone, List.forall₂_cons_left_iff] at hkey
  obtain ⟨edge, rest, ⟨share, hshare, rfl⟩, hrest, hedges⟩ := hkey
  rw [List.forall₂_nil_left_iff] at hrest
  exact ⟨share, hshare, by rw [hedges, hrest]⟩

/-- The edges of strands lead to the parameters of these. -/
theorem fills_of_strandEdges (hf : Traced before id drivers) (hr : EdgesKept before t.edges)
    (h : strandEdges drivers place replica t = .ok edges t') :
    ∀ edge ∈ edges, edge.Fills key → (drivers.into key).2 ≠ [] := by
  intro edge he hfills
  obtain ⟨strand, hstrand, other, current, hother, hcurrent, rfl⟩ :=
    exists_of_mem_right (forall₂_of_strandEdges h) he
  obtain ⟨old, hold, -, hk⟩ := hf.strands strand hstrand other (List.mem_of_getElem? hother)
  obtain ⟨old', hold', hkeeps⟩ := hr.before hcurrent
  obtain rfl : old = old' := Option.some.inj (hold.symm.trans hold')
  have hkey : strand.property = key := hk.unique (hkeeps.2.2 key hfills)
  exact List.ne_nil_of_mem (List.mem_filter.mpr ⟨hstrand, by simpa using hkey⟩)

/-- The edges that are moved to a repetition lead to parameters that nothing is shared out for along
them. -/
theorem fills_of_keptEdges {incoming : List Nat} (hr : EdgesKept before t.edges)
    (h : keptEdges drivers incoming replica t = .ok edges t') : ∀ edge ∈ edges, edge.Fills key →
      ∃ place ∈ incoming, drivers.consumes place = false ∧
        ∃ old, before[place]? = some old ∧ old.Fills key := by
  intro edge he hfills
  obtain ⟨place, hplace, current, hcurrent, rfl⟩ := exists_of_mem_right (forall₂_of_keptEdges h) he
  obtain ⟨hplace, hno⟩ := List.mem_filter.mp hplace
  obtain ⟨old, hold, hkeeps⟩ := hr.before hcurrent
  exact ⟨place, hplace, by simpa using hno, old, hold, hkeeps.2.2 key hfills⟩

/-- What is carried over goes to parameters that ask for it. -/
theorem fills_of_carryEdges {previous current : NodeId} {parameters : List Parameter}
    (h : carryEdges previous current parameters t = .ok edges t') : ∀ edge ∈ edges, edge.Fills key →
      ∃ p ∈ parameters, p.name = key ∧ p.expandValue?.isSome := by
  intro edge he hfills
  obtain ⟨p, hp, text, value, -, -, hexpand, -, -, rfl⟩ := exists_of_mem_carryEdges h edge he
  exact ⟨p, hp, Edge.Fills.unique ⟨_, rfl, rfl⟩ hfills, Option.isSome_of_eq_some hexpand⟩

theorem fills_of_chainEdges {node : Node} {serial : Bool} {previous? : Option NodeId}
    {current : NodeId} (h : chainEdges node serial previous? current t = .ok edges t') :
    ∀ edge ∈ edges, edge.Fills key →
      ∃ p ∈ node.spec.parameters, p.name = key ∧ p.expandValue?.isSome := by
  intro edge he hfills
  cases serial with
  | false =>
    obtain ⟨rfl, -⟩ := pure_eq_ok.mp h
    cases he
  | true =>
    cases previous? with
    | none =>
      obtain ⟨rfl, -⟩ := pure_eq_ok.mp h
      cases he
    | some previous =>
      obtain ⟨carried, _, hcarried, h⟩ := bind_eq_ok.mp h
      obtain ⟨rfl, -⟩ := pure_eq_ok.mp h
      rcases List.mem_cons.mp he with rfl | he
      · exact absurd hfills (Edge.not_fills_of_after rfl key)
      · exact fills_of_carryEdges hcarried edge he hfills

end Own

section Dealing

variable {g t g' : Graph} {node : Node} {plan : Drivers} {count : Nat} {key : String}
  {shares : List Share} {u : Unit}

/-- The edges of a repetition that lead to the parameter are the one that hands on its share. -/
theorem filter_ownEdges {serial : Bool} {place : Nat} {previous? : Option NodeId} {replica : NodeId}
    {incoming outgoing : List Nat} {own : List Edge} {t' : Graph}
    (hf : Traced g.edges node.id plan) (hr : EdgesKept g.edges t.edges)
    (hinto : plan.into key = ([(key, shares)], []))
    (honly : ∀ (other : Nat) old, g.edges[other]? = some old → old.target = node.id →
      old.Fills key → plan.consumes other)
    (hasks : ∀ p ∈ node.spec.parameters, p.name = key → p.expandValue? = none)
    (hin : ∀ place ∈ incoming, ∃ old, g.edges[place]? = some old ∧ old.target = node.id)
    (hout : ∀ place ∈ outgoing, ∃ old, g.edges[place]? = some old ∧ old.source = node.id)
    (hnew : ∀ old ∈ g.edges, old.target ≠ replica)
    (h : ownEdges node plan serial incoming outgoing place previous? replica t = .ok own t') :
    ∃ share, shares[place]? = some share ∧
      own.filter (Edge.into replica key) = [shareEdge share replica key] := by
  obtain ⟨shared, strung, kept, outward, chain, t₁, t₂, t₃, t₄, rfl, hshares, hstrands, hkept,
    houtward, hchain, h₁, h₂, h₃, -⟩ := ownEdges_eq_ok h
  obtain ⟨share, hshare, hone⟩ := filter_shareEdges (congrArg Prod.fst hinto) hshares
  have hnone : ∀ {edges : List Edge}, (∀ edge ∈ edges, edge.target = replica → ¬ edge.Fills key) →
      edges.filter (Edge.into replica key) = [] := fun hno =>
    List.filter_eq_nil_iff.mpr fun edge he hpass =>
      hno edge he (Edge.into_iff.mp hpass).1 (Edge.into_iff.mp hpass).2
  have hstrung : strung.filter (Edge.into replica key) = [] := hnone fun edge he _ hfills =>
    fills_of_strandEdges hf (h₁.edges ▸ hr) hstrands edge he hfills (congrArg Prod.snd hinto)
  have hkept : kept.filter (Edge.into replica key) = [] := hnone fun edge he _ hfills => by
    obtain ⟨other, hother, hno, old, hold, hkey⟩ := fills_of_keptEdges (h₂.edges ▸ hr) hkept edge he hfills
    obtain ⟨old', hold', ht⟩ := hin other hother
    obtain rfl := Option.some.inj (hold.symm.trans hold')
    rw [honly other old hold ht hkey] at hno
    cases hno
  have houtward : outward.filter (Edge.into replica key) = [] := hnone fun edge he ht _ => by
    obtain ⟨-, old, hold, -, ht', -⟩ := (outgoingEdges_spec (h₃.edges ▸ hr) hout houtward).1 edge he
    exact hnew old hold (ht'.symm.trans ht)
  have hchain : chain.filter (Edge.into replica key) = [] := hnone fun edge he _ hfills => by
    obtain ⟨p, hp, hname, hsome⟩ := fills_of_chainEdges hchain edge he hfills
    rw [hasks p hp hname] at hsome
    cases hsome
  refine ⟨share, hshare, ?_⟩
  rw [List.filter_append, List.filter_append, List.filter_append, List.filter_append, hone, hstrung,
    hkept, houtward, hchain]
  rfl

/-- When the only node of a job is repeated, the nodes of the job are its repetitions as they were added,
save for the paths that they write to. -/
theorem nodesOf_of_replicate (hw : t.WellFormed) (hin : node ∈ t.nodes)
    (hone : t.nodesOf node.spec.id = [node]) (h : replicate node plan count t = .ok u g') :
    ∃ serial added, List.Forall₂ (IsReplica node plan serial) (List.range count) added ∧
      added.map (·.id) = List.range' t.nextId added.length ∧
      List.Forall₂ (Spared fun _ key => node.spec.IsPath key) added (g'.nodesOf node.spec.id) := by
  obtain ⟨serial, added, t₁, t₂, t₃, parts, -, ⟨hids, scope, rfl⟩, hadded, houtputs, -,
    ⟨memo, -, rfl⟩, -, rfl, -⟩ := runs_of_replicate h
  refine ⟨serial, added, hadded, hids, ?_⟩
  have hlt : node.id < t.nextId := hw.below _ (List.mem_map_of_mem hin)
  have hspares := (moves_separateOutputs (fun _ _ h => h.spares) _ _
    fun id _ p hp houtput hfile hlist path => spares_setNodeValue
      (W := fun _ key => node.spec.IsPath key) ⟨p, hp, rfl, houtput, hfile, hlist⟩
      (.str path)).of_ok houtputs
  -- Of the old nodes only the one that is taken out has the job.
  have hkept : ((t.nodes ++ added).filter (·.spec.id == node.spec.id)).filter (·.id ≠ node.id) =
      added := by
    have hall : added.filter (·.spec.id == node.spec.id) = added :=
      List.filter_eq_self.mpr fun a ha => by
        obtain ⟨place, -, hmade⟩ := exists_of_mem_right hadded ha
        simp [hmade.spec]
    have hfresh : added.filter (·.id ≠ node.id) = added := List.filter_eq_self.mpr fun a ha => by
      have hmem : a.id ∈ added.map (·.id) := List.mem_map_of_mem ha
      rw [hids] at hmem
      exact decide_eq_true (hlt.trans_le (List.mem_range'_1.mp hmem).1).ne'
    have hold : t.nodes.filter (·.spec.id == node.spec.id) = [node] := hone
    rw [List.filter_append, hold, hall, List.filter_append, hfresh,
      List.filter_cons_of_neg (by simp)]
    rfl
  have hfilter := forall₂_filter (p := fun a => decide (a.id ≠ node.id))
    (q := fun a => decide (a.id ≠ node.id))
    (forall₂_filter (p := (·.spec.id == node.spec.id)) (q := (·.spec.id == node.spec.id)) hspares
      fun a b hab => by rw [spec_of_outline hab.outline])
    fun a b hab => by rw [id_of_outline hab.outline]
  rw [hkept] at hfilter
  change List.Forall₂ _ added
    ((t₂.nodes.filter (·.id ≠ node.id)).filter (·.spec.id == node.spec.id))
  rwa [List.filter_comm]

/-- The repetitions of a node that is repeated for a list, in the graph after its turn. -/
theorem replicas_of_replicate (hw : t.WellFormed) (hin : node ∈ t.nodes)
    (hone : t.nodesOf node.spec.id = [node])
    (hinto : plan.into key = ([(key, shares)], [])) (hpath : ¬ node.spec.IsPath key)
    (h : replicate node plan count t = .ok u g') :
    (g'.nodesOf node.spec.id).length = count ∧
      ∀ (place : Nat) replica, (g'.nodesOf node.spec.id)[place]? = some replica →
        ∃ share, shares[place]? = some share ∧ replica.id = t.nextId + place ∧
          replica.spec = node.spec ∧
          (∃ serial, replica.name = node.name ++ "_" ++ replicaSuffix serial place) ∧
          replica.overrides.get? key = some share.value := by
  obtain ⟨serial, added, hadded, hids, hmade⟩ := nodesOf_of_replicate hw hin hone h
  refine ⟨by rw [← hmade.length_eq, ← hadded.length_eq, List.length_range], ?_⟩
  intro place replica hreplica
  obtain ⟨a, ha, houtline, -, hvalues⟩ := exists_at_of_forall₂ hmade hreplica
  obtain ⟨place', hplace', overrides, v, v', hshare, heq⟩ := exists_at_of_forall₂ hadded ha
  obtain rfl : place' = place := by
    obtain ⟨hbound, hrange⟩ := List.getElem?_eq_some_iff.mp hplace'
    simpa using hrange.symm
  obtain ⟨withLists, w, -, hshares⟩ := bind_eq_ok.mp hshare
  have hid : a.id = t.nextId + place' := by
    have hat : (added.map (·.id))[place']? = some a.id := by rw [List.getElem?_map, ha]; rfl
    rw [hids] at hat
    obtain ⟨hbound, hrange⟩ := List.getElem?_eq_some_iff.mp hat
    rw [← hrange, List.getElem_range', Nat.one_mul]
  rcases get?_of_layOver (f := Share.value) hshares key with
    ⟨hno, -⟩ | ⟨items, share, hmem, hitem, hvalue⟩
  · exact absurd (List.mem_map_of_mem (mem_shares_of_into hinto)) hno
  · have hmem : (key, items) ∈ (plan.into key).1 := List.mem_filter.mpr ⟨hmem, by simp⟩
    rw [hinto] at hmem
    obtain rfl : items = shares := congrArg Prod.snd (List.mem_singleton.mp hmem)
    refine ⟨share, hitem, (id_of_outline houtline).trans hid, ?_, ⟨serial, ?_⟩, ?_⟩
    · rw [spec_of_outline houtline, heq]
      rfl
    · rw [name_of_outline houtline, heq]
      rfl
    · rw [hvalues key hpath, heq]
      exact hvalue

/-- What a repetition is fed along is what was made for it. -/
theorem exists_own_of_replicate (hw : g.WellFormed) (hf : Traced g.edges node.id plan)
    (hr : Retains g t) (h : replicate node plan count t = .ok u g') {place : Nat}
    (hplace : place < count) : ∃ serial t₂ v v' own, isSerial node = .ok serial ∧
      EdgesKept g.edges t₂.edges ∧ g'.nodes = t₂.nodes.filter (·.id ≠ node.id) ∧
      g'.scope.forest = t₂.scope.forest ∧ SameButMemo t₂ v ∧
      ownEdges node plan serial (t₂.incoming node.id) (t₂.outgoing node.id) place
        (previousOf none (List.range' t.nextId count) place) (t.nextId + place) v = .ok own v' ∧
      ∀ key, g'.fed (t.nextId + place) key = own.filter (Edge.into (t.nextId + place) key) := by
  obtain ⟨serial, added, t₁, t₂, t₃, parts, hserial, ⟨hids, -⟩, hadded, -, hedges, hmemo, hlength, rfl,
    hruns⟩ := runs_of_replicate h
  obtain rfl : count = added.length := by simpa using hadded.length_eq
  rw [hids] at hruns
  have hkept : EdgesKept g.edges t₂.edges := hedges ▸ hr.edges
  have hold : ∀ old ∈ g.edges, old.target ≠ t.nextId + place := fun old ho => by
    have hlt := hw.below _ (hw.closed old ho).2
    rw [← hr.nextId] at hlt
    exact (hlt.trans_le (Nat.le_add_right _ _)).ne
  have hat : ∀ {other : Nat}, other < added.length →
      (List.range' t.nextId added.length)[other]? = some (t.nextId + other) := fun ho => by
    rw [List.getElem?_eq_getElem (by simpa using ho), List.getElem_range', Nat.one_mul]
  obtain ⟨own, hown⟩ : ∃ own, parts[place]? = some own :=
    ⟨_, List.getElem?_eq_getElem (hlength ▸ hplace)⟩
  obtain ⟨v, v', hv, -, hrun⟩ := hruns place _ own (hat hplace) hown
  refine ⟨serial, t₂, v, v', own, hserial, hkept, ?_, ?_, hv, hrun, fun key => ?_⟩
  · obtain ⟨memo, -, rfl⟩ := hmemo
    rfl
  · obtain ⟨memo, -, rfl⟩ := hmemo
    rfl
  -- Edges that were there lead to old nodes, and those of other repetitions to these.
  have hbase : (t₃.removeNode node.id).fed (t.nextId + place) key = [] := by
    refine List.filter_eq_nil_iff.mpr fun edge he hpass => ?_
    have he : edge ∈ t₂.edges := hmemo.edges ▸ List.mem_of_mem_filter he
    obtain ⟨old, ho, -, ht, -⟩ := hkept.exists_edge he
    exact hold old ho (ht.symm.trans (Edge.into_iff.mp hpass).1)
  have hothers : ∀ (other : Nat) part, parts[other]? = some part → other ≠ place →
      part.filter (Edge.into (t.nextId + place) key) = [] := by
    intro other part hpart hne
    have hbound := (List.getElem?_eq_some_iff.mp hpart).1
    obtain ⟨w, w', hw', -, hrun'⟩ := hruns other _ part (hat (hlength ▸ hbound)) hpart
    have howned := owned_of_ownEdges hf (hw'.edges ▸ hkept)
      (mem_placesWhere_of_kept hkept fun _ _ hkeeps => hkeeps.2.1)
      (mem_placesWhere_of_kept hkept fun _ _ hkeeps => hkeeps.1) hrun'
    refine List.filter_eq_nil_iff.mpr fun edge he hpass => ?_
    have ht := (Edge.into_iff.mp hpass).1
    cases howned.made edge he with
    | inward _ _ _ _ ht' _ | chain _ _ ht' => exact hne (Nat.add_left_cancel (ht'.symm.trans ht))
    | outward old ho _ _ ht' _ => exact hold old ho (ht'.symm.trans ht)
  rw [fed_addEdges, hbase, List.nil_append, filter_flatten_of_unique hown hothers]

/-- Each repetition is fed its share. -/
theorem fed_of_replicas (hw : g.WellFormed) (hf : Traced g.edges node.id plan) (hr : Retains g t)
    (hinto : plan.into key = ([(key, shares)], []))
    (honly : ∀ (other : Nat) old, g.edges[other]? = some old → old.target = node.id →
      old.Fills key → plan.consumes other)
    (hasks : ∀ p ∈ node.spec.parameters, p.name = key → p.expandValue? = none)
    (h : replicate node plan count t = .ok u g') {place : Nat} (hplace : place < count) :
    ∃ share, shares[place]? = some share ∧
      g'.fed (t.nextId + place) key = [shareEdge share (t.nextId + place) key] := by
  obtain ⟨serial, t₂, v, v', own, -, hkept, -, -, hv, hrun, hfed⟩ :=
    exists_own_of_replicate hw hf hr h hplace
  have hin : ∀ place, place ∈ t₂.incoming node.id ↔ ∃ old, g.edges[place]? = some old ∧
      old.target = node.id := mem_placesWhere_of_kept hkept fun _ _ hkeeps => hkeeps.2.1
  have hout : ∀ place, place ∈ t₂.outgoing node.id ↔ ∃ old, g.edges[place]? = some old ∧
      old.source = node.id := mem_placesWhere_of_kept hkept fun _ _ hkeeps => hkeeps.1
  have hnew : ∀ old ∈ g.edges, old.target ≠ t.nextId + place := fun old ho => by
    have hlt := hw.below _ (hw.closed old ho).2
    rw [← hr.nextId] at hlt
    exact (hlt.trans_le (Nat.le_add_right _ _)).ne
  obtain ⟨share, hshare, hone⟩ := filter_ownEdges hf (hv.edges ▸ hkept) hinto honly hasks
    (fun place => (hin place).mp) (fun place => (hout place).mp) hnew hrun
  exact ⟨share, hshare, (hfed key).trans hone⟩

end Dealing

/-- The job was repeated for a list, the elements of which were shared out for a parameter: the
repetition at each place has the element there, and one edge to the parameter, which hands it on. -/
structure Dealt (job : Node) (key : String) (source : NodeId) (out : String) (items : List Value)
    (graph : Graph) : Prop where
  /-- There are as many repetitions as elements. -/
  length : (graph.nodesOf job.spec.id).length = items.length
  /-- Each has its share. -/
  share : ∀ (place : Nat) replica, (graph.nodesOf job.spec.id)[place]? = some replica →
    ∃ item, items[place]? = some item ∧ replica.spec = job.spec ∧
      (∃ serial, replica.name = job.name ++ "_" ++ replicaSuffix serial place) ∧
      replica.overrides.get? key = some item ∧ ∃ edge, graph.fed replica.id key =
        [shareEdge ⟨edge, source, out, place, item⟩ replica.id key]

theorem getElem?_sharesAt {edge place : Nat} {source : NodeId} {out : String} {items : List Value}
    {share : Share} (h : (sharesAt edge source out items)[place]? = some share) :
    ∃ item, items[place]? = some item ∧ share = ⟨edge, source, out, place, item⟩ := by
  rw [sharesAt, List.getElem?_map] at h
  obtain ⟨entry, hentry, rfl⟩ := Option.map_eq_some_iff.mp h
  obtain ⟨item, hitem, rfl⟩ : ∃ item, items[place]? = some item ∧ entry = (item, place) := by
    simpa [List.getElem?_zipIdx, eq_comm] using hentry
  exact ⟨item, hitem, rfl⟩

/-- A node that is repeated for a list that comes in for a parameter deals out its elements. -/
theorem dealt_of_replicate {g t g' : Graph} {job : Node} {plan : Drivers} {key out : String}
    {source : NodeId} {items : List Value} {place : Nat} {u : Unit} (hw : g.WellFormed)
    (hin : job ∈ g.nodes) (hone : g.nodesOf job.spec.id = [job]) (hf : Traced g.edges job.id plan)
    (hplans : Plans g t) (hinto : plan.into key = ([(key, sharesAt place source out items)], []))
    (honly : ∀ (other : Nat) old, g.edges[other]? = some old → old.target = job.id →
      old.Fills key → other = place) (hne : items ≠ [])
    (hasks : ∀ p ∈ job.spec.parameters, p.name = key → p.expandValue? = none)
    (hpath : ¬ job.spec.IsPath key) (h : replicate job plan items.length t = .ok u g') :
    Dealt job key source out items g' := by
  have hr := hplans.retains
  have hconsumes : plan.consumes place := by
    rw [Drivers.consumes, Bool.or_eq_true]
    refine .inl (List.any_eq_true.mpr ⟨_, mem_shares_of_into hinto, List.any_eq_true.mpr ?_⟩)
    obtain ⟨item, hitem⟩ := List.exists_mem_of_ne_nil _ hne
    obtain ⟨other, hother⟩ := List.mem_iff_getElem?.mp hitem
    refine ⟨⟨place, source, out, other, item⟩, List.mem_map.mpr ⟨(item, other), ?_, rfl⟩, by simp⟩
    exact List.mem_zipIdx_iff_getElem?.mpr hother
  have hcount := replicas_of_replicate (hr.wellFormed hw) (hplans.nodes ▸ hin)
    (by rw [nodesOf, hplans.nodes]; exact hone) hinto hpath h
  refine ⟨hcount.1, fun other replica hreplica => ?_⟩
  obtain ⟨share, hshare, hid, hspec, hname, hvalue⟩ := hcount.2 other replica hreplica
  have hlt : other < items.length := hcount.1 ▸ (List.getElem?_eq_some_iff.mp hreplica).1
  obtain ⟨share', hshare', hfed⟩ := fed_of_replicas hw hf hr hinto
    (fun place' old hold ht hk => honly place' old hold ht hk ▸ hconsumes) hasks h hlt
  obtain rfl := Option.some.inj (hshare.symm.trans hshare')
  obtain ⟨item, hitem, rfl⟩ := getElem?_sharesAt hshare
  exact ⟨item, hitem, hspec, hname, hvalue, place, hid ▸ hfed⟩

end Graph

end Pipework
