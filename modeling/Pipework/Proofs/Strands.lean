import Pipework.Proofs.Bystander

/-!
# What strands are made of

When it is found out what a node is repeated for, the edges to it that hand on single values are
gathered in strands. An edge goes into the strand of its parameter, of the job that it comes from,
and of the output. So each strand is made of just the edges from one output of a job into one
parameter, in the order in which they stand in the graph.
-/

namespace Pipework

open Step

/-- The edge hands on a single value. -/
def Edge.IsSingle (edge : Edge) : Prop :=
  ∃ link, edge.kind = .data link ∧ link.cardinality = .oneToOne

/-- The edge hands on this output as a single value. -/
def Edge.hands (output : String) (edge : Edge) : Bool :=
  edge.kind.link?.any fun link => link.cardinality == .oneToOne && link.sourceProperty == output

/-- An edge hands on an output as a single value if it takes one value from it for one. -/
theorem Edge.hands_iff {output : String} {edge : Edge} : edge.hands output = true ↔
    ∃ link, edge.kind = .data link ∧ link.cardinality = .oneToOne ∧ link.sourceProperty = output := by
  cases hk : edge.kind with
  | after => simp [Edge.hands, hk, EdgeKind.link?]
  | data link => simp [Edge.hands, hk, EdgeKind.link?]

namespace Graph

/-- The handles of the nodes of a job, in order. -/
def idsOf (graph : Graph) (job : String) : List NodeId := (graph.nodesOf job).map (·.id)

/-- The handles of a job are those of its nodes. -/
theorem mem_idsOf {g : Graph} {job : String} {id : NodeId} :
    id ∈ g.idsOf job ↔ ∃ node ∈ g.nodes, node.spec.id = job ∧ node.id = id := by
  simp [idsOf, nodesOf, and_assoc]

/-- The nodes of a job are those whose handles are among its own. -/
theorem mem_idsOf_iff {g : Graph} (hw : g.WellFormed) {node : Node} (hn : node ∈ g.nodes)
    {job : String} : node.id ∈ g.idsOf job ↔ node.spec.id = job := by
  rw [mem_idsOf]
  constructor
  · rintro ⟨other, hother, hjob, hid⟩
    obtain rfl := List.inj_on_of_nodup_map hw.nodup hother hn hid
    exact hjob
  · exact fun hjob => ⟨node, hn, hjob, rfl⟩

/-- A handle is of one job only. -/
theorem idsOf_eq_of_mem {g : Graph} {job job' : String} {id : NodeId} (hw : g.WellFormed)
    (hid : id ∈ g.idsOf job) (hid' : id ∈ g.idsOf job') : job = job' := by
  obtain ⟨node, hn, rfl, rfl⟩ := mem_idsOf.mp hid
  exact (mem_idsOf_iff hw hn).mp hid'

/-- The edge hands on an output of this job as a single value to a parameter of the node. -/
def joins (graph : Graph) (id : NodeId) (property origin output : String) (edge : Edge) : Bool :=
  edge.into id property && (edge.hands output && (graph.idsOf origin).contains edge.source)

/-- An edge joins an output of a job and a parameter if it hands on a single value from a node of the job
to the parameter. -/
theorem joins_iff {g : Graph} {id : NodeId} {property origin output : String} {edge : Edge} :
    g.joins id property origin output edge = true ↔
      edge.target = id ∧ edge.source ∈ g.idsOf origin ∧ ∃ link, edge.kind = .data link ∧
        link.cardinality = .oneToOne ∧ link.targetProperty = property ∧
        link.sourceProperty = output := by
  rw [joins, Bool.and_eq_true, Bool.and_eq_true, Edge.into_iff, Edge.hands_iff, List.contains_iff_mem]
  constructor
  · rintro ⟨⟨htarget, link, hk, hproperty⟩, ⟨link', hk', hc, houtput⟩, hsource⟩
    obtain rfl := EdgeKind.data.inj (hk.symm.trans hk')
    exact ⟨htarget, hsource, link, hk, hc, hproperty, houtput⟩
  · rintro ⟨htarget, hsource, link, hk, hc, hproperty, houtput⟩
    exact ⟨⟨htarget, link, hk, hproperty⟩, ⟨link, hk, hc, houtput⟩, hsource⟩

/-- An edge that hands on a single value joins its target and an output of the job that it comes from. -/
theorem exists_joins {g : Graph} {edge : Edge} {job : String} (hs : edge.IsSingle)
    (hsource : edge.source ∈ g.idsOf job) : ∃ property output,
      g.joins edge.target property job output edge = true := by
  obtain ⟨link, hk, hc⟩ := hs
  exact ⟨link.targetProperty, link.sourceProperty,
    joins_iff.mpr ⟨rfl, hsource, link, hk, hc, rfl, rfl⟩⟩

/-- The edges from one output of a job into one parameter of a node that hand on single values. -/
def strand (graph : Graph) (id : NodeId) (property origin output : String) : List Edge :=
  graph.edges.filter (graph.joins id property origin output)

/-- The nodes that hand on an output as a single value to a parameter of a node, in order. -/
def feeders (graph : Graph) (id : NodeId) (property output : String) : List NodeId :=
  ((graph.fed id property).filter (Edge.hands output)).map (·.source)

/-- A strand is made of those edges to the parameter that come from the output of the job. -/
theorem strand_eq (g : Graph) (id : NodeId) (property origin output : String) :
    g.strand id property origin output = (g.fed id property).filter fun edge =>
      edge.hands output && (g.idsOf origin).contains edge.source := by
  rw [fed, List.filter_filter]
  exact List.filter_congr fun edge _ => Bool.and_comm _ _

/-- The edges of a strand start at the nodes of the job that feed the parameter, in their order. -/
theorem sources_strand (g : Graph) (id : NodeId) (property origin output : String) :
    (g.strand id property origin output).map (·.source) =
      (g.feeders id property output).filter (g.idsOf origin).contains := by
  rw [strand_eq, feeders, List.filter_map, List.filter_filter]
  refine congrArg _ (List.filter_congr fun edge _ => ?_)
  exact Bool.and_comm _ _

/-! ### Places of edges -/

/-- The places of edges with a property stand in the order of the edges. -/
theorem placesWhere_eq (g : Graph) (test : Edge → Bool) :
    g.placesWhere test = (g.edges.zipIdx.filter (test ·.1)).map (·.2) := by
  rw [placesWhere, ← List.filterMap_eq_map, List.filterMap_filter]
  rfl

/-- The edges at the places where a test is passed are those that pass it, in order. -/
theorem edges_placesWhere (g : Graph) (test : Edge → Bool) :
    (g.placesWhere test).map (g.edges[·]?) = (g.edges.filter test).map some := by
  have hedges : g.edges.filter test = (g.edges.zipIdx.filter (test ·.1)).map (·.1) := by
    conv_lhs => rw [← List.zipIdx_map_fst 0 g.edges]
    rw [List.filter_map]
    rfl
  rw [placesWhere_eq, hedges, List.map_map, List.map_map]
  refine List.map_congr_left fun entry hentry => ?_
  exact List.mem_zipIdx_iff_getElem?.mp (List.mem_of_mem_filter hentry)

/-- There are as many places as edges with the property. -/
theorem length_placesWhere (g : Graph) (test : Edge → Bool) :
    (g.placesWhere test).length = (g.edges.filter test).length := by
  simpa using congrArg List.length (edges_placesWhere g test)

/-- At each place stands the edge that has the property. -/
theorem getElem?_placesWhere {g : Graph} {test : Edge → Bool} {place other : Nat}
    (h : (g.placesWhere test)[place]? = some other) :
    g.edges[other]? = (g.edges.filter test)[place]? := by
  have hmap := congrArg (·[place]?) (edges_placesWhere g test)
  simp only [List.getElem?_map, h, Option.map_some] at hmap
  obtain ⟨edge, hedge, heq⟩ := Option.map_eq_some_iff.mp hmap.symm
  rw [hedge, ← heq]

/-- Whether the edge at a place passes a test. -/
def passesAt (graph : Graph) (test : Edge → Bool) (place : Nat) : Bool := graph.edges[place]?.any test

/-- A place passes if the edge there does. -/
theorem passesAt_iff {g : Graph} {test : Edge → Bool} {place : Nat} :
    g.passesAt test place = true ↔ ∃ edge, g.edges[place]? = some edge ∧ test edge := by
  rw [passesAt]
  cases g.edges[place]? <;> simp

/-- The places of edges with two properties are those of one that have the other. -/
theorem filter_placesWhere (g : Graph) (test test' : Edge → Bool) :
    (g.placesWhere test).filter (g.passesAt test') =
      g.placesWhere fun edge => test edge && test' edge := by
  rw [placesWhere_eq, placesWhere_eq, List.filter_map, List.filter_filter]
  refine congrArg _ (List.filter_congr fun entry hentry => ?_)
  rw [Function.comp_apply, passesAt, List.mem_zipIdx_iff_getElem?.mp hentry, Option.any_some,
    Bool.and_comm]

/-! ### Gathering under keys -/

section Gathering

variable {κ α : Type} [DecidableEq κ]

/-- Adds elements behind those under a key. -/
def gather (key : κ) (added : List α) : List (κ × List α) → List (κ × List α)
  | [] => [(key, added)]
  | entry :: entries =>
    if entry.1 = key then (key, entry.2 ++ added) :: entries else entry :: gather key added entries

/-- The elements that were gathered under a key. -/
def gathered (key : κ) : List (κ × List α) → List α
  | [] => []
  | entry :: entries => if entry.1 = key then entry.2 else gathered key entries

variable {key : κ} {added : List α} {entries : List (κ × List α)}

/-- What is gathered under a key is what its entry has. -/
theorem gathered_of_mem (h : (entries.map (·.1)).Nodup) {entry : κ × List α} (he : entry ∈ entries) :
    gathered entry.1 entries = entry.2 := by
  induction entries with
  | nil => cases he
  | cons first entries ih =>
    obtain ⟨hfirst, hrest⟩ := List.nodup_cons.mp h
    rcases List.mem_cons.mp he with rfl | he
    · exact if_pos rfl
    · have hne : first.1 ≠ entry.1 := fun heq =>
        hfirst (List.mem_map.mpr ⟨entry, he, heq.symm⟩)
      rw [gathered, if_neg hne]
      exact ih hrest he

/-- What was gathered has an entry. -/
theorem exists_of_gathered (h : gathered key entries ≠ []) : ∃ entry ∈ entries, entry.1 = key := by
  induction entries with
  | nil => exact absurd rfl h
  | cons first entries ih =>
    by_cases hfirst : first.1 = key
    · exact ⟨first, List.mem_cons_self, hfirst⟩
    · rw [gathered, if_neg hfirst] at h
      obtain ⟨entry, he, heq⟩ := ih h
      exact ⟨entry, List.mem_cons_of_mem _ he, heq⟩

variable (key added entries)

/-- Elements are added to what was gathered under their key, and to nothing else. -/
theorem gathered_gather (other : κ) : gathered other (gather key added entries) =
    gathered other entries ++ if key = other then added else [] := by
  induction entries with
  | nil => rfl
  | cons first entries ih =>
    rw [gather]
    split
    next hsame =>
      rw [gathered, gathered, hsame]
      split
      · rfl
      · rw [List.append_nil]
    next hother =>
      rw [gathered, gathered]
      split
      next heq => rw [if_neg fun hsame => hother (heq.trans hsame.symm), List.append_nil]
      · exact ih

/-- A key that is new comes behind the others, and one that is there stays where it is. -/
theorem keys_gather : (gather key added entries).map (·.1) =
    if key ∈ entries.map (·.1) then entries.map (·.1) else entries.map (·.1) ++ [key] := by
  induction entries with
  | nil => rfl
  | cons first entries ih =>
    rw [gather]
    split
    next hsame =>
      rw [if_pos (by simp [hsame])]
      simp [hsame]
    next hother =>
      simp only [List.map_cons, ih, List.mem_cons, Ne.symm hother, false_or]
      split <;> rfl

/-- No key is listed twice. -/
theorem nodup_gather (h : (entries.map (·.1)).Nodup) :
    ((gather key added entries).map (·.1)).Nodup := by
  rw [keys_gather]
  split
  · exact h
  next hnew => exact List.nodup_append_comm.mp (List.nodup_cons.mpr ⟨hnew, h⟩)

end Gathering

/-- A strand under what it is for: a parameter, a job, and an output of it. -/
def Strand.tagged (strand : Strand) : (String × String × String) × List Nat :=
  ((strand.property, strand.origin, strand.sourceProperty), strand.edges)

/-- A strand is for one parameter, one job and one output. -/
theorem Strand.purpose_eq {strand : Strand} {property origin output : String} :
    strand.tagged.1 = (property, origin, output) ↔
      strand.property = property ∧ strand.origin = origin ∧ strand.sourceProperty = output := by
  rw [tagged, Prod.mk.injEq, Prod.mk.injEq]

/-- An edge is gathered in the strand that is for the same. -/
theorem tagged_addStrand (property origin output : String) (place : Nat) (strands : List Strand) :
    (Drivers.addStrand property origin output place strands).map Strand.tagged =
      gather (property, origin, output) [place] (strands.map Strand.tagged) := by
  induction strands with
  | nil => rfl
  | cons first strands ih =>
    rw [Drivers.addStrand, List.map_cons, gather]
    split
    next hsame =>
      rw [if_pos (Strand.purpose_eq.mpr hsame), List.map_cons, ← Strand.purpose_eq.mpr hsame]
      rfl
    next hother => rw [if_neg (mt Strand.purpose_eq.mp hother), List.map_cons, ih]

/-- Edges that hand on single values stay where they are, and none becomes such an edge. -/
def SameSingles (edges edges' : List Edge) : Prop :=
  ∀ (place : Nat) edge, edge.IsSingle → (edges'[place]? = some edge ↔ edges[place]? = some edge)

instance : Std.Refl SameSingles := ⟨fun _ _ _ _ => .rfl⟩

instance : IsTrans (List Edge) SameSingles :=
  ⟨fun _ _ _ h h' place edge he => (h' place edge he).trans (h place edge he)⟩

/-- An edge that hands on a single value was there before. -/
theorem SameSingles.mem {edges edges' : List Edge} (h : SameSingles edges edges') {edge : Edge}
    (hs : edge.IsSingle) (he : edge ∈ edges') : edge ∈ edges := by
  obtain ⟨place, hplace⟩ := List.mem_iff_getElem?.mp he
  exact List.mem_of_getElem? ((h place edge hs).mp hplace)

/-- An edge that hands on no single value may become one that still does not. -/
theorem sameSingles_modify {edges : List Edge} {place : Nat} {edge : Edge} {change : Edge → Edge}
    (he : edges[place]? = some edge) (hold : ¬ edge.IsSingle) (hnew : ¬ (change edge).IsSingle) :
    SameSingles edges (edges.modify place change) := by
  intro other found hfound
  by_cases heq : place = other
  · subst heq
    have hnow : (edges.modify place change)[place]? = some (change edge) := by simp [he]
    rw [hnow, he, Option.some_inj, Option.some_inj]
    exact iff_of_false (fun h => hnew (h ▸ hfound)) fun h => hold (h ▸ hfound)
  · have hnow : (edges.modify place change)[other]? = edges[other]? := by
      simp [heq]
    rw [hnow]

section Planning

variable {g t t' : Graph} {id : NodeId} {found found' : Drivers}

/-- What is known of strands while edges are taken account of. -/
structure Collects (g : Graph) (id : NodeId) (places : List Nat) (found : Drivers) (t : Graph) :
    Prop where
  /-- Nodes stay. -/
  nodes : t.nodes = g.nodes
  /-- Edges that hand on single values stay. -/
  singles : SameSingles g.edges t.edges
  /-- Each strand has a purpose of its own. -/
  apart : ((found.strands.map Strand.tagged).map (·.1)).Nodup
  /-- The places of the edges for a purpose were gathered, in order. -/
  places : ∀ property origin output,
    gathered (property, origin, output) (found.strands.map Strand.tagged) =
      places.filter (g.passesAt (g.joins id property origin output))

/-- An edge that hands on no single value is gathered for nothing. -/
theorem SameSingles.passesAt_eq_false {edges : List Edge} (h : SameSingles g.edges edges) {place : Nat}
    {edge : Edge} (hedge : edges[place]? = some edge) (hmany : ¬ edge.IsSingle)
    (id : NodeId) (property origin output : String) :
    g.passesAt (g.joins id property origin output) place = false := by
  refine eq_false_of_ne_true fun hpasses => hmany ?_
  obtain ⟨old, hold, hjoins⟩ := passesAt_iff.mp hpasses
  obtain ⟨-, -, link, hk, hc, -⟩ := joins_iff.mp hjoins
  have hsingle : old.IsSingle := ⟨link, hk, hc⟩
  obtain rfl := Option.some.inj (hedge.symm.trans ((h place old hsingle).mpr hold))
  exact hsingle

/-- One that does is gathered for its own purpose only. -/
theorem passesAt_joins_iff (hw : g.WellFormed) {place : Nat} (hplace : place ∈ g.incoming id)
    {edge : Edge} (hat : g.edges[place]? = some edge) {link : DataLink} (hk : edge.kind = .data link)
    (hc : link.cardinality = .oneToOne) {source : Node} (hin : source ∈ g.nodes)
    (hid : source.id = edge.source) (property origin output : String) :
    g.passesAt (g.joins id property origin output) place = true ↔
      (link.targetProperty, source.spec.id, link.sourceProperty) = (property, origin, output) := by
  obtain ⟨found, hfound, htarget⟩ := mem_placesWhere.mp hplace
  obtain rfl := Option.some.inj (hat.symm.trans hfound)
  have hfills : edge.Fills property ↔ link.targetProperty = property :=
    ⟨fun hk' => Edge.Fills.unique ⟨link, hk, rfl⟩ hk', fun heq => ⟨link, hk, heq⟩⟩
  have hhands : edge.hands output = true ↔ link.sourceProperty = output := by
    simp [Edge.hands, hk, EdgeKind.link?, hc]
  rw [passesAt, hat, Option.any_some, joins, Bool.and_eq_true, Bool.and_eq_true, Edge.into_iff,
    and_iff_right (beq_iff_eq.mp htarget), hfills, hhands, List.contains_iff_mem, ← hid,
    mem_idsOf_iff hw hin, Prod.mk.injEq, Prod.mk.injEq, and_comm (a := link.sourceProperty = _)]

/-- The edge at a place is gathered for the purpose that it serves, and for no other. -/
theorem Collects.of_addDriver {places : List Nat} {place : Nat} (hw : g.WellFormed)
    (h : Collects g id places found t) (hplace : place ∈ g.incoming id)
    (hstep : addDriver found place t = .ok found' t') : Collects g id (places ++ [place]) found' t' := by
  obtain ⟨edge, hedge, hnoted⟩ := noted_of_addDriver hstep
  have hidle : ¬ edge.IsSingle → ∀ property origin output,
      gathered (property, origin, output) (found.strands.map Strand.tagged) =
        (places ++ [place]).filter (g.passesAt (g.joins id property origin output)) := by
    intro hmany property origin output
    have hfails := h.singles.passesAt_eq_false hedge hmany id property origin output
    rw [h.places, List.filter_append, List.filter_cons_of_neg (by simp [hfails]), List.filter_nil,
      List.append_nil]
  have hother : ∀ {link : DataLink}, edge.kind = .data link → link.cardinality ≠ .oneToOne →
      ¬ edge.IsSingle := by
    rintro link hk hc ⟨other, hother, hone⟩
    exact hc (EdgeKind.data.inj (hk.symm.trans hother) ▸ hone)
  cases hnoted with
  | order hk =>
    have hmany : ¬ edge.IsSingle := by
      rintro ⟨link, hlink, -⟩
      rw [hk] at hlink
      cases hlink
    exact ⟨h.nodes, h.singles, h.apart, hidle hmany⟩
  | list hk hc =>
    exact ⟨h.nodes, h.singles, h.apart, hidle (hother hk (by rcases hc with hc | hc <;> simp [hc]))⟩
  | @empty link current u hk hc hv hi =>
    have hmany := hother hk (by simp [hc])
    obtain ⟨memo, -, rfl⟩ := (moves_propertyValue _ _).of_ok hv
    refine ⟨h.nodes, trans_of SameSingles h.singles (sameSingles_modify hedge hmany ?_), h.apart,
      hidle hmany⟩
    rintro ⟨link, hlink, -⟩
    cases hlink
  | shares hk hc hv hi =>
    obtain ⟨memo, -, rfl⟩ := (moves_propertyValue _ _).of_ok hv
    exact ⟨h.nodes, h.singles, h.apart, hidle (hother hk (by simp [hc]))⟩
  | @strand link source hk hc hn =>
    refine ⟨h.nodes, h.singles, tagged_addStrand _ _ _ _ _ ▸ nodup_gather _ _ _ h.apart,
      fun property origin output => ?_⟩
    have hat : g.edges[place]? = some edge := (h.singles place edge ⟨link, hk, hc⟩).mp hedge
    obtain ⟨hin, hid⟩ := id_of_node? hn
    rw [h.nodes] at hin
    have hserves := passesAt_joins_iff hw hplace hat hk hc hin hid property origin output
    rw [tagged_addStrand, gathered_gather, h.places, List.filter_append]
    congr 1
    by_cases hpasses : g.passesAt (g.joins id property origin output) place = true
    · rw [if_pos (hserves.mp hpasses), List.filter_cons_of_pos hpasses, List.filter_nil]
    · rw [if_neg (mt hserves.mpr hpasses), List.filter_cons_of_neg hpasses, List.filter_nil]

/-- Taking account of edges one after the other collects all of them that hand on single values. -/
theorem collects_of_foldlM {done places : List Nat} (hw : g.WellFormed) (h : Collects g id done found t)
    (hplaces : ∀ place ∈ places, place ∈ g.incoming id)
    (hfold : places.foldlM addDriver found t = .ok found' t') :
    Collects g id (done ++ places) found' t' := by
  induction places generalizing done found t with
  | nil =>
    obtain ⟨rfl, rfl⟩ := pure_eq_ok.mp hfold
    rwa [List.append_nil]
  | cons place places ih =>
    rw [List.foldlM_cons] at hfold
    obtain ⟨middle, u, hstep, hrest⟩ := bind_eq_ok.mp hfold
    rw [List.append_cons]
    exact ih (h.of_addDriver hw (hplaces place List.mem_cons_self) hstep)
      (fun other ho => hplaces other (List.mem_cons_of_mem _ ho)) hrest

/-- The places of the edges that join a node and an output of a job. -/
theorem filter_incoming (property origin output : String) :
    (g.incoming id).filter (g.passesAt (g.joins id property origin output)) =
      g.placesWhere (g.joins id property origin output) := by
  rw [incoming, filter_placesWhere]
  congr 1
  funext edge
  rw [Bool.and_eq_right_iff_imp.mpr]
  exact fun hjoins => beq_iff_eq.mpr (joins_iff.mp hjoins).1

/-- When it is found out what a node is repeated for, all edges to it are gathered, and strands of
several edges are what is left. -/
theorem collects_of_drivers {plan : Drivers} (hw : g.WellFormed) (h : drivers id g = .ok plan t) :
    ∃ found, Collects g id (g.incoming id) found t ∧
      plan.strands = found.strands.filter fun strand => 1 < strand.edges.length := by
  obtain ⟨found, u, node, lists, hfold, -, hlists, rfl⟩ := drivers_eq_ok h
  have hstart : Collects g id [] {} g :=
    ⟨rfl, refl_of SameSingles g.edges, List.nodup_nil, fun _ _ _ => rfl⟩
  have hfound := collects_of_foldlM hw hstart (fun _ hplace => hplace) hfold
  obtain ⟨memo, -, rfl⟩ := (moves_listDrivers _ _ _).of_ok hlists
  exact ⟨found, ⟨hfound.nodes, hfound.singles, hfound.apart, hfound.places⟩, rfl⟩

/-- A strand is made of all edges that serve its purpose. -/
theorem Collects.edges_eq (h : Collects g id (g.incoming id) found t) {strand : Strand}
    (hs : strand ∈ found.strands) : strand.edges = g.placesWhere
      (g.joins id strand.property strand.origin strand.sourceProperty) := by
  rw [← filter_incoming, ← h.places]
  exact (gathered_of_mem h.apart (List.mem_map_of_mem hs)).symm

/-- Each strand is made of all edges that serve its purpose, in order, and each purpose that several
edges serve has its strand. -/
theorem strands_of_drivers {plan : Drivers} (hw : g.WellFormed) (h : drivers id g = .ok plan t) :
    t.nodes = g.nodes ∧ SameSingles g.edges t.edges ∧
    (∀ strand ∈ plan.strands, strand.edges = g.placesWhere
      (g.joins id strand.property strand.origin strand.sourceProperty)) ∧
    ∀ property origin output, 1 < (g.strand id property origin output).length →
      ∃ strand ∈ plan.strands, strand.property = property ∧ strand.origin = origin ∧
        strand.sourceProperty = output := by
  obtain ⟨found, hfound, hplan⟩ := collects_of_drivers hw h
  rw [hplan]
  refine ⟨hfound.nodes, hfound.singles, fun strand hs => hfound.edges_eq (List.mem_of_mem_filter hs),
    fun property origin output hlong => ?_⟩
  have hplaces := hfound.places property origin output
  rw [filter_incoming] at hplaces
  rw [strand, ← length_placesWhere] at hlong
  have hgathered : gathered (property, origin, output) (found.strands.map Strand.tagged) ≠ [] := by
    rw [hplaces]
    exact List.length_pos_iff.mp (Nat.zero_lt_of_lt hlong)
  obtain ⟨entry, hentry, heq⟩ := exists_of_gathered hgathered
  obtain ⟨strand, hs, rfl⟩ := List.mem_map.mp hentry
  obtain ⟨rfl, rfl, rfl⟩ := Strand.purpose_eq.mp heq
  refine ⟨strand, List.mem_filter.mpr ⟨hs, decide_eq_true ?_⟩, rfl, rfl, rfl⟩
  rwa [hfound.edges_eq hs]

end Planning

/-- A strand asks for as many repetitions as it has edges. -/
theorem mem_sizes_of_strand {plan : Drivers} {strand : Strand} (h : strand ∈ plan.strands) :
    (strand.property, strand.edges.length) ∈ plan.sizes := by
  rw [Drivers.sizes]
  exact List.mem_append_right _ (List.mem_map.mpr ⟨strand, h, rfl⟩)

/-- If no parameter brings several values, none is fed by several nodes of a job. -/
theorem short_of_drivers {g t : Graph} {id : NodeId} {plan : Drivers} (hw : g.WellFormed)
    (hf : drivers id g = .ok plan t) (hsizes : ∀ entry ∈ plan.sizes, entry.2 ≤ 1)
    (property origin output : String) : (g.strand id property origin output).length ≤ 1 := by
  obtain ⟨-, -, hstrands, hseveral⟩ := strands_of_drivers hw hf
  by_contra hlong
  obtain ⟨strand, hstrand, rfl, rfl, rfl⟩ := hseveral property origin output (Nat.not_le.mp hlong)
  have hlength := hsizes _ (mem_sizes_of_strand hstrand)
  rw [hstrands strand hstrand, length_placesWhere] at hlength
  exact hlong hlength

end Graph

end Pipework
