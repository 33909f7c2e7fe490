import Pipework.Proofs.KeptEdges

/-!
# The edges of repetitions

Every repetition of a node gets edges of its own. They are those of the node, moved to the
repetition, save that each gets only its share of what is shared out, and one from the
repetition before if it has to wait for it. Nothing that led to the node and nothing that it led
to is left out.
-/

namespace Pipework

open Step

namespace Graph

/-- Where only what is remembered changes, edges stay. -/
theorem SameButMemo.edges {g g' : Graph} (h : SameButMemo g g') : g'.edges = g.edges :=
  h.sameOutline.edges

/-- Where only what is remembered changes, nodes are found as before. -/
theorem SameButMemo.node?_eq {g g' : Graph} (h : SameButMemo g g') (id : NodeId) :
    g'.node? id = g.node? id := by
  obtain ⟨memo, -, rfl⟩ := h
  rfl

/-- Where only what is remembered changes, scopes stay. -/
theorem SameButMemo.forest {g g' : Graph} (h : SameButMemo g g') :
    g'.scope.forest = g.scope.forest := by
  obtain ⟨memo, -, rfl⟩ := h
  rfl

/-- Finding the edges that bring shares only reads. -/
theorem moves_shareEdges (drivers : Drivers) (place : Nat) (replica : NodeId) :
    Moves SameButMemo (shareEdges drivers place replica) :=
  .mapM fun _ _ => (moves_ofOption _).bind fun _ => .pure _

/-- Finding the edges of strands only reads. -/
theorem moves_strandEdges (drivers : Drivers) (place : Nat) (replica : NodeId) :
    Moves SameButMemo (strandEdges drivers place replica) :=
  .mapM fun _ _ => (moves_ofOption _).bind fun _ => (moves_edgeAt _).bind fun _ => .pure _

/-- Finding the edges that stay with all repetitions only reads. -/
theorem moves_keptEdges (drivers : Drivers) (incoming : List Nat) (replica : NodeId) :
    Moves SameButMemo (keptEdges drivers incoming replica) :=
  .mapM fun _ _ => (moves_edgeAt _).bind fun _ => .pure _

/-- The edge that hands on a share to a parameter of a repetition. -/
def shareEdge (share : Share) (replica : NodeId) (key : String) : Edge :=
  .data share.source replica ⟨.oneToOne, share.sourceProperty, key, share.value, some share.index⟩

section Inward

variable {drivers : Drivers} {place : Nat} {replica : NodeId} {edges : List Edge} {t t' : Graph}

/-- There is an edge for each list that comes in, with the element at the place. -/
theorem forall₂_of_shareEdges (h : shareEdges drivers place replica t = .ok edges t') :
    List.Forall₂ (fun entry edge => ∃ share, entry.2[place]? = some share ∧
      edge = shareEdge share replica entry.1) drivers.shares edges := by
  refine (forall₂_of_mapM (R := SameButMemo)
    (fun _ _ => (moves_ofOption _).bind fun _ => .pure _) h).imp ?_
  rintro entry edge ⟨u, u', -, hstep⟩
  obtain ⟨share, _, hat, hstep⟩ := bind_eq_ok.mp hstep
  obtain ⟨hshare, rfl⟩ := ofOption_eq_ok.mp hat
  obtain ⟨rfl, -⟩ := pure_eq_ok.mp hstep
  exact ⟨share, hshare, rfl⟩

/-- There is an edge for each strand, which is that at the place. -/
theorem forall₂_of_strandEdges (h : strandEdges drivers place replica t = .ok edges t') :
    List.Forall₂ (fun strand edge => ∃ other old, strand.edges[place]? = some other ∧
      t.edges[other]? = some old ∧ edge = { old with target := replica }) drivers.strands edges := by
  refine (forall₂_of_mapM (R := SameButMemo) (fun _ _ => (moves_ofOption _).bind fun _ =>
    (moves_edgeAt _).bind fun _ => .pure _) h).imp ?_
  rintro strand edge ⟨u, u', hu, hstep⟩
  obtain ⟨other, _, hat, hstep⟩ := bind_eq_ok.mp hstep
  obtain ⟨hother, rfl⟩ := ofOption_eq_ok.mp hat
  obtain ⟨old, _, hat, hstep⟩ := bind_eq_ok.mp hstep
  obtain ⟨hold, rfl⟩ := edgeAt_eq_ok.mp hat
  obtain ⟨rfl, -⟩ := pure_eq_ok.mp hstep
  exact ⟨other, old, hother, hu.edges ▸ hold, rfl⟩

/-- There is an edge for each one that brings nothing to be shared out. -/
theorem forall₂_of_keptEdges {incoming : List Nat}
    (h : keptEdges drivers incoming replica t = .ok edges t') :
    List.Forall₂ (fun other edge => ∃ old, t.edges[other]? = some old ∧
      edge = { old with target := replica })
      (incoming.filter fun other => !drivers.consumes other) edges := by
  refine (forall₂_of_mapM (R := SameButMemo)
    (fun _ _ => (moves_edgeAt _).bind fun _ => .pure _) h).imp ?_
  rintro other edge ⟨u, u', hu, hstep⟩
  obtain ⟨old, _, hat, hstep⟩ := bind_eq_ok.mp hstep
  obtain ⟨hold, rfl⟩ := edgeAt_eq_ok.mp hat
  obtain ⟨rfl, -⟩ := pure_eq_ok.mp hstep
  exact ⟨old, hu.edges ▸ hold, rfl⟩

end Inward

/-- An edge that started at a node, as it starts at a repetition and hands on its value. -/
def outgoingEdge (replica : NodeId) (place : Nat) : GraphM Edge := do
  let edge ← edgeAt place
  match edge.kind with
  | .after => return { edge with source := replica }
  | .data link => do
    let current ← propertyValue replica link.sourceProperty
    return .data replica edge.target { link with value := current.getD link.value }

/-- The edges from a repetition are made edge by edge. -/
theorem outgoingEdges_eq (outgoing : List Nat) (replica : NodeId) :
    outgoingEdges outgoing replica = outgoing.mapM (outgoingEdge replica) := rfl

/-- Making an edge from a repetition only reads. -/
theorem moves_outgoingEdge (replica : NodeId) (place : Nat) :
    Moves SameButMemo (outgoingEdge replica place) := by
  refine (moves_edgeAt _).bind fun edge => ?_
  cases edge.kind with
  | after => exact .pure _
  | data link => exact (moves_propertyValue _ _).bind fun _ => .pure _

/-- Making the edges from a repetition only reads. -/
theorem moves_outgoingEdges (outgoing : List Nat) (replica : NodeId) :
    Moves SameButMemo (outgoingEdges outgoing replica) :=
  .mapM fun place _ => moves_outgoingEdge replica place

/-- Finding out what to take over from the repetition before only reads. -/
theorem moves_carryEdges (previous current : NodeId) (parameters : List Parameter) :
    Moves SameButMemo (carryEdges previous current parameters) := by
  induction parameters with
  | nil => exact .pure _
  | cons parameter parameters ih =>
    rw [carryEdges]
    cases parameter.expandValue? with
    | none => exact ih
    | some text =>
      refine (moves_propertyValue _ _).bind fun value? => ih.bind fun others => ?_
      cases value? with
      | none => exact .pure _
      | some value => exact .pure _

/-- Making the edges from the repetition before only reads. -/
theorem moves_chainEdges (node : Node) (serial : Bool) (previous? : Option NodeId)
    (current : NodeId) : Moves SameButMemo (chainEdges node serial previous? current) := by
  cases serial with
  | false => exact .pure _
  | true =>
    cases previous? with
    | none => exact .pure _
    | some previous => exact (moves_carryEdges _ _ _).bind fun _ => .pure _

/-- The repetition gets its element of each list, from where the list comes. -/
theorem shareEdges_spec {before : List Edge} {t t' : Graph} {id replica : NodeId}
    {drivers : Drivers} {place : Nat} {edges : List Edge} (hf : Traced before id drivers)
    (h : shareEdges drivers place replica t = .ok edges t') :
    (∀ edge ∈ edges, edge.target = replica ∧ ∃ old ∈ before, old.target = id ∧
      edge.source = old.source ∧ ∀ key, edge.Fills key → old.Fills key) ∧
    ∀ entry ∈ drivers.shares, ∃ share, entry.2[place]? = some share ∧
      Leads edges share.source replica := by
  have hall := forall₂_of_shareEdges h
  constructor
  · intro edge he
    obtain ⟨entry, hentry, share, hshare, rfl⟩ := exists_of_mem_right hall he
    have hmem : share ∈ entry.2 := List.mem_of_getElem? hshare
    obtain ⟨old, hold, htarget, hfills⟩ := hf.shares entry hentry share hmem
    refine ⟨rfl, old, List.mem_of_getElem? hold, htarget,
      (hf.sources entry hentry share hmem old hold).symm, ?_⟩
    rintro _ ⟨link, hlink, rfl⟩
    obtain rfl := EdgeKind.data.inj hlink
    exact hfills
  · intro entry hentry
    obtain ⟨edge, he, share, hshare, rfl⟩ := exists_of_mem_left hall hentry
    exact ⟨share, hshare, _, he, rfl, rfl⟩

/-- The repetition gets its edge of each strand. -/
theorem strandEdges_spec {before : List Edge} {t t' : Graph} {id replica : NodeId}
    {drivers : Drivers} {place : Nat} {edges : List Edge} (hf : Traced before id drivers)
    (hr : EdgesKept before t.edges)
    (h : strandEdges drivers place replica t = .ok edges t') :
    (∀ edge ∈ edges, edge.target = replica ∧ ∃ old ∈ before, old.target = id ∧
      edge.source = old.source ∧ ∀ key, edge.Fills key → old.Fills key) ∧
    ∀ strand ∈ drivers.strands, ∃ other old, strand.edges[place]? = some other ∧
      before[other]? = some old ∧ Leads edges old.source replica := by
  have hall := forall₂_of_strandEdges h
  constructor
  · intro edge he
    obtain ⟨strand, hstrand, other, current, hother, hcurrent, rfl⟩ := exists_of_mem_right hall he
    obtain ⟨old, hold, htarget, -⟩ := hf.strands strand hstrand other (List.mem_of_getElem? hother)
    obtain ⟨old', hold', hkeeps⟩ := hr.before hcurrent
    obtain rfl : old = old' := Option.some.inj (hold.symm.trans hold')
    exact ⟨rfl, old, List.mem_of_getElem? hold, htarget, hkeeps.1, hkeeps.2.2⟩
  · intro strand hstrand
    obtain ⟨edge, he, other, current, hother, hcurrent, rfl⟩ := exists_of_mem_left hall hstrand
    obtain ⟨old, hold, hkeeps⟩ := hr.before hcurrent
    exact ⟨other, old, hother, hold, _, he, hkeeps.1, rfl⟩

/-- An edge to the node that brings nothing to be shared out is moved to the repetition. -/
theorem keptEdges_spec {before : List Edge} {t t' : Graph} {id replica : NodeId} {drivers : Drivers}
    {incoming : List Nat} {edges : List Edge} (hr : EdgesKept before t.edges)
    (hin : ∀ place ∈ incoming, ∃ old, before[place]? = some old ∧ old.target = id)
    (h : keptEdges drivers incoming replica t = .ok edges t') :
    (∀ edge ∈ edges, edge.target = replica ∧ ∃ old ∈ before, old.target = id ∧
      edge.source = old.source ∧ ∀ key, edge.Fills key → old.Fills key) ∧
    ∀ place ∈ incoming, drivers.consumes place = false → ∀ old, before[place]? = some old →
      ∃ edge ∈ edges, edge.source = old.source ∧ edge.target = replica ∧
        (old.kind = .after → edge.kind = .after) := by
  have hall := forall₂_of_keptEdges h
  constructor
  · intro edge he
    obtain ⟨place, hplace, current, hcurrent, rfl⟩ := exists_of_mem_right hall he
    obtain ⟨old, hold, htarget⟩ := hin place (List.mem_of_mem_filter hplace)
    obtain ⟨old', hold', hkeeps⟩ := hr.before hcurrent
    obtain rfl : old = old' := Option.some.inj (hold.symm.trans hold')
    exact ⟨rfl, old, List.mem_of_getElem? hold, htarget, hkeeps.1, hkeeps.2.2⟩
  · intro place hplace hno old hold
    have hfree : place ∈ incoming.filter fun place => !drivers.consumes place := by
      simp [hplace, hno]
    obtain ⟨edge, he, current, hcurrent, rfl⟩ := exists_of_mem_left hall hfree
    obtain ⟨old', hold', hkeeps⟩ := hr.before hcurrent
    obtain rfl : old = old' := Option.some.inj (hold.symm.trans hold')
    exact ⟨_, he, hkeeps.1, rfl, hkeeps.kind⟩

/-- It starts at the repetition, and otherwise it is kept. -/
theorem outgoingEdge_eq_ok {before : List Edge} {t t' : Graph} {replica : NodeId} {place : Nat}
    {old edge : Edge} (hr : EdgesKept before t.edges) (hold : before[place]? = some old)
    (h : outgoingEdge replica place t = .ok edge t') :
    edge.source = replica ∧ edge.target = old.target ∧ ∀ key, edge.Fills key → old.Fills key := by
  obtain ⟨current, _, hat, h⟩ := bind_eq_ok.mp h
  obtain ⟨hcurrent, rfl⟩ := edgeAt_eq_ok.mp hat
  obtain ⟨old', hold', hkeeps⟩ := hr.before hcurrent
  obtain rfl : old = old' := Option.some.inj (hold.symm.trans hold')
  cases hkind : current.kind with
  | after =>
    simp only [hkind] at h
    obtain ⟨rfl, -⟩ := pure_eq_ok.mp h
    exact ⟨rfl, hkeeps.2.1, fun key hk => absurd hk (Edge.not_fills_of_after rfl key)⟩
  | data link =>
    simp only [hkind] at h
    obtain ⟨value, _, -, h⟩ := bind_eq_ok.mp h
    obtain ⟨rfl, -⟩ := pure_eq_ok.mp h
    refine ⟨rfl, hkeeps.2.1, ?_⟩
    rintro _ ⟨moved, hmoved, rfl⟩
    obtain rfl := EdgeKind.data.inj hmoved
    exact hkeeps.2.2 _ ⟨link, hkind, rfl⟩

/-- An edge from the node is moved to the repetition. -/
theorem outgoingEdges_spec {before : List Edge} {t t' : Graph} {id replica : NodeId}
    {outgoing : List Nat} {edges : List Edge} (hr : EdgesKept before t.edges)
    (hout : ∀ place ∈ outgoing, ∃ old, before[place]? = some old ∧ old.source = id)
    (h : outgoingEdges outgoing replica t = .ok edges t') :
    (∀ edge ∈ edges, edge.source = replica ∧ ∃ old ∈ before, old.source = id ∧
      edge.target = old.target ∧ ∀ key, edge.Fills key → old.Fills key) ∧
    ∀ place ∈ outgoing, ∀ old, before[place]? = some old →
      ∃ edge ∈ edges, edge.source = replica ∧ edge.target = old.target ∧
        (old.kind = .after → edge.kind = .after) := by
  rw [outgoingEdges_eq] at h
  have hall := forall₂_of_mapM (fun place _ => moves_outgoingEdge replica place) h
  constructor
  · intro edge he
    obtain ⟨place, hplace, u, u', hu, hstep⟩ := exists_of_mem_right hall he
    obtain ⟨old, hold, hsource⟩ := hout place hplace
    obtain ⟨hs, ht, hk⟩ := outgoingEdge_eq_ok (hu.edges ▸ hr) hold hstep
    exact ⟨hs, old, List.mem_of_getElem? hold, hsource, ht, hk⟩
  · intro place hplace old hold
    obtain ⟨edge, he, u, u', hu, hstep⟩ := exists_of_mem_left hall hplace
    obtain ⟨hs, ht, hk⟩ := outgoingEdge_eq_ok (hu.edges ▸ hr) hold hstep
    exact ⟨edge, he, hs, ht, Edge.kind_of_fills hk⟩

/-- The edge by which a repetition takes over a value of the one before. -/
def carryEdge (previous current : NodeId) (property key : String) (value : Value) : Edge :=
  .data previous current ⟨.oneToOne, property, key, value, none⟩

/-- There is one such edge for the first parameter, if it asks for a value that is there. -/
theorem carryEdges_cons_eq_ok {previous current : NodeId} {parameter : Parameter}
    {parameters : List Parameter} {t t' : Graph} {edges : List Edge}
    (h : carryEdges previous current (parameter :: parameters) t = .ok edges t') :
    ∃ first others u, edges = first ++ others ∧ SameButMemo t u ∧
      carryEdges previous current parameters u = .ok others t' ∧
      ((parameter.expandValue? = none ∧ first = []) ∨ ∃ text value?,
        parameter.expandValue? = some text ∧
        propertyValue previous (carriedProperty text) t = .ok value? u ∧
        first = (value?.map
          (carryEdge previous current (carriedProperty text) parameter.name)).toList) := by
  rw [carryEdges] at h
  cases hexpand : parameter.expandValue? with
  | none =>
    simp only [hexpand] at h
    exact ⟨[], edges, t, rfl, refl_of SameButMemo t, h, .inl ⟨rfl, rfl⟩⟩
  | some text =>
    simp only [hexpand] at h
    obtain ⟨value?, u, hv, h⟩ := bind_eq_ok.mp h
    obtain ⟨others, _, hothers, h⟩ := bind_eq_ok.mp h
    have hu : SameButMemo t u := (moves_propertyValue _ _).of_ok hv
    cases value? with
    | none =>
      obtain ⟨rfl, rfl⟩ := pure_eq_ok.mp h
      exact ⟨[], others, u, rfl, hu, hothers, .inr ⟨text, none, rfl, hv, rfl⟩⟩
    | some value =>
      obtain ⟨rfl, rfl⟩ := pure_eq_ok.mp h
      exact ⟨[_], others, u, rfl, hu, hothers, .inr ⟨text, some value, rfl, hv, rfl⟩⟩

/-- An edge from the repetition before carries a value that was there when the edge was made. -/
theorem exists_of_mem_carryEdges {previous current : NodeId} {parameters : List Parameter}
    {t t' : Graph} {edges : List Edge}
    (h : carryEdges previous current parameters t = .ok edges t') :
    ∀ edge ∈ edges, ∃ parameter ∈ parameters, ∃ text value u u',
      parameter.expandValue? = some text ∧ SameButMemo t u ∧
      propertyValue previous (carriedProperty text) u = .ok (some value) u' ∧
      edge = carryEdge previous current (carriedProperty text) parameter.name value := by
  induction parameters generalizing t t' edges with
  | nil =>
    obtain ⟨rfl, -⟩ := pure_eq_ok.mp h
    simp
  | cons parameter parameters ih =>
    obtain ⟨first, others, u, rfl, hu, hothers, hfirst⟩ := carryEdges_cons_eq_ok h
    intro edge he
    rcases List.mem_append.mp he with he | he
    · obtain ⟨-, rfl⟩ | ⟨text, value?, hexpand, hv, rfl⟩ := hfirst
      · cases he
      · obtain ⟨value, rfl, rfl⟩ := Option.map_eq_some_iff.mp (Option.mem_toList.mp he)
        exact ⟨parameter, List.mem_cons_self, text, value, t, u, hexpand, refl_of SameButMemo t, hv, rfl⟩
    · obtain ⟨p, hp, text, value, v, v', hexpand, hsame, hv, rfl⟩ := ih hothers edge he
      exact ⟨p, List.mem_cons_of_mem _ hp, text, value, v, v', hexpand,
        trans_of SameButMemo hu hsame, hv, rfl⟩

/-- Such an edge leads from the repetition before to the next one. -/
theorem ends_of_carryEdges {previous current : NodeId} {parameters : List Parameter}
    {t t' : Graph} {edges : List Edge}
    (h : carryEdges previous current parameters t = .ok edges t') :
    ∀ edge ∈ edges, edge.source = previous ∧ edge.target = current := by
  intro edge he
  obtain ⟨-, -, text, value, -, -, -, -, -, rfl⟩ := exists_of_mem_carryEdges h edge he
  exact ⟨rfl, rfl⟩

/-- A repetition waits for the one before just if it has to. -/
theorem chainEdges_spec {node : Node} {serial : Bool} {previous? : Option NodeId}
    {current : NodeId} {t t' : Graph} {edges : List Edge}
    (h : chainEdges node serial previous? current t = .ok edges t') :
    (∀ edge ∈ edges, serial = true ∧ edge.source ∈ previous? ∧ edge.target = current) ∧
      (serial = true → ∀ previous ∈ previous?, Edge.after previous current ∈ edges) := by
  cases serial with
  | false =>
    obtain ⟨rfl, -⟩ := pure_eq_ok.mp h
    simp
  | true =>
    cases previous? with
    | none =>
      obtain ⟨rfl, -⟩ := pure_eq_ok.mp h
      simp
    | some previous =>
      obtain ⟨carried, _, hcarried, h⟩ := bind_eq_ok.mp h
      obtain ⟨rfl, -⟩ := pure_eq_ok.mp h
      refine ⟨fun edge he => ⟨rfl, ?_⟩, by simp⟩
      rcases List.mem_cons.mp he with rfl | he
      · exact ⟨rfl, rfl⟩
      · obtain ⟨hs, ht⟩ := ends_of_carryEdges hcarried edge he
        exact ⟨hs ▸ rfl, ht⟩

/-- What an edge of a repetition was made from: an edge to the node that it replaces, or one from
that node, or the order of the repetitions. -/
inductive OwnEdge (before : List Edge) (id : NodeId) (serial : Bool) (previous? : Option NodeId)
    (replica : NodeId) (edge : Edge) : Prop
  | inward (old : Edge) (he : old ∈ before) (hid : old.target = id)
      (hs : edge.source = old.source) (ht : edge.target = replica)
      (hk : ∀ key, edge.Fills key → old.Fills key)
  | outward (old : Edge) (he : old ∈ before) (hid : old.source = id)
      (hs : edge.source = replica) (ht : edge.target = old.target)
      (hk : ∀ key, edge.Fills key → old.Fills key)
  | chain (hserial : serial = true) (hs : edge.source ∈ previous?) (ht : edge.target = replica)

/-- The edges of the repetition at a place, which stands behind another one. -/
structure Owned (before : List Edge) (id : NodeId) (drivers : Drivers) (serial : Bool)
    (place : Nat) (previous? : Option NodeId) (replica : NodeId) (own : List Edge) : Prop where
  /-- They are made from edges of the node and from the order of the repetitions. -/
  made : ∀ edge ∈ own, OwnEdge before id serial previous? replica edge
  /-- It gets its element of each list that comes in along edges. -/
  shares : ∀ entry ∈ drivers.shares, ∃ share, entry.2[place]? = some share ∧
    Leads own share.source replica
  /-- It gets its edge of each strand. -/
  strands : ∀ strand ∈ drivers.strands, ∃ other old, strand.edges[place]? = some other ∧
    before[other]? = some old ∧ Leads own old.source replica
  /-- It gets all other edges to the node. -/
  inward : ∀ other old, before[other]? = some old → old.target = id →
    drivers.consumes other = false → ∃ edge ∈ own, edge.source = old.source ∧
      edge.target = replica ∧ (old.kind = .after → edge.kind = .after)
  /-- It gets all edges from the node. -/
  outward : ∀ old ∈ before, old.source = id → ∃ edge ∈ own, edge.source = replica ∧
    edge.target = old.target ∧ (old.kind = .after → edge.kind = .after)
  /-- It waits for the one before if it has to. -/
  chain : serial = true → ∀ previous ∈ previous?, Edge.after previous replica ∈ own

/-- The edges of one repetition, which stands at a place behind another one. -/
def ownEdges (node : Node) (drivers : Drivers) (serial : Bool) (incoming outgoing : List Nat)
    (place : Nat) (previous? : Option NodeId) (replica : NodeId) : GraphM (List Edge) := do
  let shares ← shareEdges drivers place replica
  let strands ← strandEdges drivers place replica
  let kept ← keptEdges drivers incoming replica
  let outward ← outgoingEdges outgoing replica
  let chain ← chainEdges node serial previous? replica
  return shares ++ strands ++ kept ++ outward ++ chain

/-- Making all edges of a repetition only reads. -/
theorem moves_ownEdges (node : Node) (drivers : Drivers) (serial : Bool)
    (incoming outgoing : List Nat) (place : Nat) (previous? : Option NodeId) (replica : NodeId) :
    Moves SameButMemo
      (ownEdges node drivers serial incoming outgoing place previous? replica) := by
  refine (moves_shareEdges _ _ _).bind fun shares => (moves_strandEdges _ _ _).bind fun _ => ?_
  refine (moves_keptEdges _ _ _).bind fun kept => (moves_outgoingEdges _ _).bind fun _ => ?_
  exact (moves_chainEdges _ _ _ _).bind fun _ => .pure _

/-- They are found kind by kind, and in between only more is remembered. -/
theorem ownEdges_eq_ok {node : Node} {drivers : Drivers} {serial : Bool}
    {incoming outgoing : List Nat} {place : Nat} {previous? : Option NodeId} {replica : NodeId}
    {own : List Edge} {t t' : Graph}
    (h : ownEdges node drivers serial incoming outgoing place previous? replica t = .ok own t') :
    ∃ shares strands kept outward chain t₁ t₂ t₃ t₄,
      own = shares ++ strands ++ kept ++ outward ++ chain ∧
      shareEdges drivers place replica t = .ok shares t₁ ∧
      strandEdges drivers place replica t₁ = .ok strands t₂ ∧
      keptEdges drivers incoming replica t₂ = .ok kept t₃ ∧
      outgoingEdges outgoing replica t₃ = .ok outward t₄ ∧
      chainEdges node serial previous? replica t₄ = .ok chain t' ∧
      SameButMemo t t₁ ∧ SameButMemo t t₂ ∧ SameButMemo t t₃ ∧ SameButMemo t t₄ := by
  obtain ⟨shares, t₁, hshares, h⟩ := bind_eq_ok.mp h
  obtain ⟨strands, t₂, hstrands, h⟩ := bind_eq_ok.mp h
  obtain ⟨kept, t₃, hkept, h⟩ := bind_eq_ok.mp h
  obtain ⟨outward, t₄, houtward, h⟩ := bind_eq_ok.mp h
  obtain ⟨chain, t₅, hchain, h⟩ := bind_eq_ok.mp h
  obtain ⟨rfl, rfl⟩ := pure_eq_ok.mp h
  have h₁ : SameButMemo t t₁ := (moves_shareEdges _ _ _).of_ok hshares
  have h₂ := trans_of SameButMemo h₁ ((moves_strandEdges _ _ _).of_ok hstrands)
  have h₃ := trans_of SameButMemo h₂ ((moves_keptEdges _ _ _).of_ok hkept)
  have h₄ := trans_of SameButMemo h₃ ((moves_outgoingEdges _ _).of_ok houtward)
  exact ⟨shares, strands, kept, outward, chain, t₁, t₂, t₃, t₄, rfl, hshares, hstrands, hkept,
    houtward, hchain, h₁, h₂, h₃, h₄⟩

/-- Where an edge of a repetition comes from, when the edges of the graph and what its values stand
for are as given. -/
inductive Made (t : Graph) (drivers : Drivers) (incoming outgoing : List Nat)
    (previous? : Option NodeId) (replica : NodeId) : Edge → Prop
  | share {entry : String × List Share} {share : Share} (hentry : entry ∈ drivers.shares)
      (hshare : share ∈ entry.2) : Made t drivers incoming outgoing previous? replica
        (.data share.source replica
          ⟨.oneToOne, share.sourceProperty, entry.1, share.value, some share.index⟩)
  | strand {strand : Strand} {place : Nat} {edge : Edge} (hstrand : strand ∈ drivers.strands)
      (hplace : place ∈ strand.edges) (he : t.edges[place]? = some edge) :
      Made t drivers incoming outgoing previous? replica { edge with target := replica }
  | kept {place : Nat} {edge : Edge} (hplace : place ∈ incoming)
      (hfree : drivers.consumes place = false) (he : t.edges[place]? = some edge) :
      Made t drivers incoming outgoing previous? replica { edge with target := replica }
  | order {place : Nat} {edge : Edge} (hplace : place ∈ outgoing)
      (he : t.edges[place]? = some edge) (hk : edge.kind = .after) :
      Made t drivers incoming outgoing previous? replica (.after replica edge.target)
  | output {place : Nat} {edge : Edge} {link : DataLink} {value? : Option Value} {u u' : Graph}
      (hplace : place ∈ outgoing) (he : t.edges[place]? = some edge) (hk : edge.kind = .data link)
      (hu : SameButMemo t u) (hv : propertyValue replica link.sourceProperty u = .ok value? u') :
      Made t drivers incoming outgoing previous? replica
        (.data replica edge.target { link with value := value?.getD link.value })
  | chain {previous : NodeId} (hp : previous ∈ previous?) :
      Made t drivers incoming outgoing previous? replica (.after previous replica)
  | carry {previous : NodeId} {property key : String} {value : Value} {u u' : Graph}
      (hp : previous ∈ previous?) (hu : SameButMemo t u)
      (hv : propertyValue previous property u = .ok (some value) u') :
      Made t drivers incoming outgoing previous? replica
        (.data previous replica ⟨.oneToOne, property, key, value, none⟩)

/-- The edges that carry values are made in one of the ways edges of repetitions are made. -/
theorem made_of_carryEdges {t u u' : Graph} {drivers : Drivers} {incoming outgoing : List Nat}
    {previous? : Option NodeId} {previous replica : NodeId} {parameters : List Parameter}
    {edges : List Edge} (hp : previous ∈ previous?) (hu : SameButMemo t u)
    (h : carryEdges previous replica parameters u = .ok edges u') :
    ∀ edge ∈ edges, Made t drivers incoming outgoing previous? replica edge := by
  intro edge he
  obtain ⟨-, -, text, value, v, v', -, hsame, hv, rfl⟩ := exists_of_mem_carryEdges h edge he
  exact .carry hp (trans_of SameButMemo hu hsame) hv

/-- An edge from a repetition is made in one of these ways. -/
theorem made_of_outgoingEdge {t u u' : Graph} {drivers : Drivers} {incoming outgoing : List Nat}
    {previous? : Option NodeId} {replica : NodeId} {place : Nat} {edge : Edge}
    (hplace : place ∈ outgoing) (hu : SameButMemo t u)
    (h : outgoingEdge replica place u = .ok edge u') :
    Made t drivers incoming outgoing previous? replica edge := by
  obtain ⟨current, _, hat, h⟩ := bind_eq_ok.mp h
  obtain ⟨hcurrent, rfl⟩ := edgeAt_eq_ok.mp hat
  rw [hu.edges] at hcurrent
  cases hk : current.kind with
  | after =>
    simp only [hk] at h
    obtain ⟨rfl, -⟩ := pure_eq_ok.mp h
    exact .order hplace hcurrent hk
  | data link =>
    simp only [hk] at h
    obtain ⟨value?, _, hv, h⟩ := bind_eq_ok.mp h
    obtain ⟨rfl, -⟩ := pure_eq_ok.mp h
    exact .output hplace hcurrent hk hu hv

/-- Each edge of a repetition is made in one of these ways. -/
theorem made_of_ownEdges {t t' : Graph} {node : Node} {drivers : Drivers} {serial : Bool}
    {incoming outgoing : List Nat} {place : Nat} {previous? : Option NodeId} {replica : NodeId}
    {own : List Edge}
    (h : ownEdges node drivers serial incoming outgoing place previous? replica t = .ok own t') :
    ∀ edge ∈ own, Made t drivers incoming outgoing previous? replica edge := by
  obtain ⟨shares, strands, kept, outward, chain, t₁, t₂, t₃, t₄, rfl, hshares, hstrands, hkept,
    houtward, hchain, h₁, h₂, h₃, h₄⟩ := ownEdges_eq_ok h
  intro edge he
  simp only [List.mem_append] at he
  obtain (((he | he) | he) | he) | he := he
  · obtain ⟨entry, hentry, share, hshare, rfl⟩ :=
      exists_of_mem_right (forall₂_of_shareEdges hshares) he
    exact .share hentry (List.mem_of_getElem? hshare)
  · obtain ⟨strand, hstrand, other, old, hother, hold, rfl⟩ :=
      exists_of_mem_right (forall₂_of_strandEdges hstrands) he
    exact .strand hstrand (List.mem_of_getElem? hother) (h₁.edges ▸ hold)
  · obtain ⟨other, hother, old, hold, rfl⟩ := exists_of_mem_right (forall₂_of_keptEdges hkept) he
    obtain ⟨hin, hfree⟩ := List.mem_filter.mp hother
    exact .kept hin (by simpa using hfree) (h₂.edges ▸ hold)
  · rw [outgoingEdges_eq] at houtward
    have hall := forall₂_of_mapM (fun _ _ => moves_outgoingEdge replica _) houtward
    obtain ⟨other, hother, u, u', hu, hstep⟩ := exists_of_mem_right hall he
    exact made_of_outgoingEdge hother (trans_of SameButMemo h₃ hu) hstep
  · rw [chainEdges.eq_def] at hchain
    split at hchain
    next previous =>
      obtain ⟨carried, _, hcarried, hchain⟩ := bind_eq_ok.mp hchain
      obtain ⟨rfl, -⟩ := pure_eq_ok.mp hchain
      rcases List.mem_cons.mp he with rfl | he
      · exact .chain rfl
      · exact made_of_carryEdges rfl h₄ hcarried edge he
    next =>
      obtain ⟨rfl, -⟩ := pure_eq_ok.mp hchain
      cases he

/-- The edges of repetitions are those of the first and those of the others. -/
theorem replicaEdges_cons (node : Node) (drivers : Drivers) (serial : Bool)
    (incoming outgoing : List Nat) (place : Nat) (previous? : Option NodeId) (replica : NodeId)
    (replicas : List NodeId) :
    replicaEdges node drivers serial incoming outgoing place previous? (replica :: replicas) = do
      let own ← ownEdges node drivers serial incoming outgoing place previous? replica
      let others ←
        replicaEdges node drivers serial incoming outgoing (place + 1) (some replica) replicas
      return own ++ others := by
  simp only [replicaEdges, ownEdges, bind_assoc, pure_bind, List.append_assoc]

/-- Making the edges of all repetitions only reads. -/
theorem moves_replicaEdges (node : Node) (drivers : Drivers) (serial : Bool)
    (incoming outgoing : List Nat) (place : Nat) (previous? : Option NodeId)
    (replicas : List NodeId) :
    Moves SameButMemo
      (replicaEdges node drivers serial incoming outgoing place previous? replicas) := by
  induction replicas generalizing place previous? with
  | nil => exact .pure _
  | cons replica replicas ih =>
    rw [replicaEdges_cons]
    exact (moves_ownEdges _ _ _ _ _ _ _ _).bind fun _ => (ih _ _).bind fun _ => .pure _

/-- The repetition before the one at an offset. -/
def previousOf (previous? : Option NodeId) (replicas : List NodeId) : Nat → Option NodeId
  | 0 => previous?
  | offset + 1 => replicas[offset]?

/-- The edges of repetitions are found for one after another. -/
theorem replicaEdges_eq_ok {node : Node} {drivers : Drivers} {serial : Bool}
    {incoming outgoing : List Nat} {place : Nat} {previous? : Option NodeId} {replicas : List NodeId}
    {edges : List Edge} {t t' : Graph}
    (h : replicaEdges node drivers serial incoming outgoing place previous? replicas t =
      .ok edges t') :
    ∃ parts : List (List Edge), edges = parts.flatten ∧ parts.length = replicas.length ∧
      ∀ offset replica own, replicas[offset]? = some replica → parts[offset]? = some own →
        ∃ u u', SameButMemo t u ∧ SameButMemo u' t' ∧
          ownEdges node drivers serial incoming outgoing (place + offset)
            (previousOf previous? replicas offset) replica u = .ok own u' := by
  induction replicas generalizing t t' place previous? edges with
  | nil =>
    obtain ⟨rfl, -⟩ := pure_eq_ok.mp h
    exact ⟨[], rfl, rfl, by simp⟩
  | cons replica replicas ih =>
    rw [replicaEdges_cons] at h
    obtain ⟨own, t₁, hown, h⟩ := bind_eq_ok.mp h
    obtain ⟨others, t₂, hothers, h⟩ := bind_eq_ok.mp h
    obtain ⟨rfl, rfl⟩ := pure_eq_ok.mp h
    have hsame : SameButMemo t t₁ := (moves_ownEdges _ _ _ _ _ _ _ _).of_ok hown
    have hrest : SameButMemo t₁ t₂ := (moves_replicaEdges _ _ _ _ _ _ _ _).of_ok hothers
    obtain ⟨parts, rfl, hlength, hparts⟩ := ih hothers
    refine ⟨own :: parts, rfl, by simp [hlength], fun offset other part ho hp => ?_⟩
    cases offset with
    | zero =>
      obtain rfl : replica = other := by simpa using ho
      obtain rfl : own = part := by simpa using hp
      exact ⟨t, t₁, refl_of SameButMemo t, hrest, hown⟩
    | succ offset =>
      obtain ⟨u, u', hu, hu', hrun⟩ := hparts offset other part (by simpa using ho) (by simpa using hp)
      have hplace : place + 1 + offset = place + (offset + 1) := by omega
      have hbefore : previousOf (some replica) replicas offset =
          previousOf previous? (replica :: replicas) (offset + 1) := by
        cases offset <;> rfl
      rw [hplace, hbefore] at hrun
      exact ⟨u, u', trans_of SameButMemo hsame hu, hu', hrun⟩

section Owning

variable {before : List Edge} {t t' : Graph} {node : Node} {drivers : Drivers} {serial : Bool}
  {incoming outgoing : List Nat} (hf : Traced before node.id drivers)
  (hr : EdgesKept before t.edges)
  (hin : ∀ place, place ∈ incoming ↔ ∃ old, before[place]? = some old ∧ old.target = node.id)
  (hout : ∀ place, place ∈ outgoing ↔ ∃ old, before[place]? = some old ∧ old.source = node.id)

include hf hr hin hout

/-- The edges that are made for a repetition are all that it should have. -/
theorem owned_of_ownEdges {place : Nat} {previous? : Option NodeId} {replica : NodeId}
    {own : List Edge}
    (h : ownEdges node drivers serial incoming outgoing place previous? replica t = .ok own t') :
    Owned before node.id drivers serial place previous? replica own := by
  obtain ⟨shares, strands, kept, outward, chain, t₁, t₂, t₃, t₄, rfl, hshares, hstrands, hkept,
    houtward, hchain, h₁, h₂, h₃, -⟩ := ownEdges_eq_ok h
  obtain ⟨hshareEnds, hshared⟩ := shareEdges_spec hf hshares
  obtain ⟨hstrandEnds, hstrung⟩ := strandEdges_spec hf (h₁.edges ▸ hr) hstrands
  obtain ⟨hkeptEnds, hall⟩ := keptEdges_spec (h₂.edges ▸ hr) (fun place => (hin place).mp) hkept
  obtain ⟨houtEnds, hsent⟩ := outgoingEdges_spec (h₃.edges ▸ hr) (fun place => (hout place).mp) houtward
  obtain ⟨hchainEnds, hchained⟩ := chainEdges_spec hchain
  refine ⟨fun edge he => ?_, fun entry hentry => ?_, fun strand hstrand => ?_,
    fun other old hold hid hno => ?_, fun old hold hid => ?_, fun hserial p hp => ?_⟩
  · simp only [List.mem_append] at he
    obtain (((he | he) | he) | he) | he := he
    · obtain ⟨ht, old, hold, hid, hs, hk⟩ := hshareEnds edge he
      exact .inward old hold hid hs ht hk
    · obtain ⟨ht, old, hold, hid, hs, hk⟩ := hstrandEnds edge he
      exact .inward old hold hid hs ht hk
    · obtain ⟨ht, old, hold, hid, hs, hk⟩ := hkeptEnds edge he
      exact .inward old hold hid hs ht hk
    · obtain ⟨hs, old, hold, hid, ht, hk⟩ := houtEnds edge he
      exact .outward old hold hid hs ht hk
    · obtain ⟨hserial, hs, ht⟩ := hchainEnds edge he
      exact .chain hserial hs ht
  · obtain ⟨share, hshare, hl⟩ := hshared entry hentry
    exact ⟨share, hshare, hl.mono (by simp)⟩
  · obtain ⟨other, old, hother, hold, hl⟩ := hstrung strand hstrand
    exact ⟨other, old, hother, hold, hl.mono (by simp)⟩
  · obtain ⟨edge, he, hedge⟩ := hall other ((hin other).mpr ⟨old, hold, hid⟩) hno old hold
    exact ⟨edge, by simp [he], hedge⟩
  · obtain ⟨other, hold⟩ := List.mem_iff_getElem?.mp hold
    obtain ⟨edge, he, hedge⟩ := hsent other ((hout other).mpr ⟨old, hold, hid⟩) old hold
    exact ⟨edge, by simp [he], hedge⟩
  · simp [hchained hserial p hp]

/-- All edges of repetitions are the edges of one of them. -/
theorem parts_of_replicaEdges {place : Nat} {previous? : Option NodeId} {replicas : List NodeId}
    {edges : List Edge}
    (h : replicaEdges node drivers serial incoming outgoing place previous? replicas t =
      .ok edges t') :
    ∃ parts : List (List Edge), edges = parts.flatten ∧ parts.length = replicas.length ∧
      ∀ offset replica own, replicas[offset]? = some replica → parts[offset]? = some own →
        Owned before node.id drivers serial (place + offset)
          (previousOf previous? replicas offset) replica own := by
  obtain ⟨parts, hflat, hlength, hparts⟩ := replicaEdges_eq_ok h
  refine ⟨parts, hflat, hlength, fun offset replica own hreplica hown => ?_⟩
  obtain ⟨u, u', hsame, -, hrun⟩ := hparts offset replica own hreplica hown
  exact owned_of_ownEdges hf (hsame.edges ▸ hr) hin hout hrun

end Owning

end Graph

end Pipework
