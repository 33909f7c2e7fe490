import Pipework.Proofs.Strands

/-!
# How edges are laid for repetitions

The repetition at a place gets from each strand the edge that stands at that place, all edges to the
node that bring nothing to be shared out, and edges from the repetition before. It hands on values to
other nodes as the node did that it stands for. So a parameter that was fed by the node is fed by all
its repetitions, in their order.
-/

namespace Pipework

open Step

/-- The edge hands on a single value that is not an element of a list. -/
def Edge.IsUndivided (edge : Edge) : Prop :=
  ∃ link, edge.kind = .data link ∧ link.cardinality = .oneToOne ∧ link.splitIndex? = none

/-- An edge that hands on a whole single value hands on a single value. -/
theorem Edge.IsUndivided.isSingle {edge : Edge} (h : edge.IsUndivided) : edge.IsSingle := by
  obtain ⟨link, hk, hc, -⟩ := h
  exact ⟨link, hk, hc⟩

instance (edge : Edge) : Decidable edge.IsUndivided :=
  match hk : edge.kind with
  | .after => isFalse fun ⟨link, hlink, _⟩ => by
    rw [hk] at hlink
    cases hlink
  | .data link => decidable_of_iff (link.cardinality = .oneToOne ∧ link.splitIndex? = none)
      ⟨fun h => ⟨link, hk, h⟩, fun ⟨other, hother, h⟩ => by
        rw [hk] at hother
        rwa [EdgeKind.data.inj hother]⟩

namespace Graph

/-! ### Edges that hand on single values -/

/-- No edge newly hands on a single value that is not an element of a list. -/
def UndividedKept (edges edges' : List Edge) : Prop := ∀ edge ∈ edges', edge.IsUndivided → edge ∈ edges

instance : Std.Refl UndividedKept := ⟨fun _ _ he _ => he⟩

instance : IsTrans (List Edge) UndividedKept :=
  ⟨fun _ _ _ h h' edge he hd => h edge (h' edge he hd) hd⟩

/-- Where edges that hand on single values are the same, so are those that hand on whole ones. -/
theorem undividedKept_of_sameSingles {edges edges' : List Edge} (h : SameSingles edges edges') :
    UndividedKept edges edges' := fun _ he hu => h.mem hu.isSingle he

/-- A change that makes no edge hand on a whole single value keeps those that do. -/
theorem undividedKept_modify (edges : List Edge) (place : Nat) {change : Edge → Edge}
    (hc : ∀ edge, (change edge).IsUndivided → change edge = edge) :
    UndividedKept edges (edges.modify place change) := by
  intro edge he hu
  obtain ⟨other, hother⟩ := List.mem_iff_getElem?.mp he
  rw [List.getElem?_modify] at hother
  obtain ⟨old, hold, rfl⟩ := Option.map_eq_some_iff.mp hother
  by_cases heq : place = other
  · rw [if_pos heq] at hu ⊢
    rw [hc old hu]
    exact List.mem_of_getElem? hold
  · rw [if_neg heq]
    exact List.mem_of_getElem? hold

/-- A node that takes what it is given gets no value along further edges. -/
theorem undividedKept_of_collapse {id : NodeId} {plan : Drivers} {g g' : Graph} {u : Unit}
    (h : collapse id plan g = .ok u g') : UndividedKept g.edges g'.edges := by
  let R : Graph → Graph → Prop := fun g g' => UndividedKept g.edges g'.edges
  have : Std.Refl R := ⟨fun g => refl_of UndividedKept g.edges⟩
  have : IsTrans Graph R := ⟨fun _ _ _ h h' => trans_of UndividedKept h h'⟩
  have hnarrow : ∀ share, Moves R (narrowEdge share) := fun share => .modify fun t => by
    refine undividedKept_modify t.edges share.edge fun edge hu => ?_
    cases hk : edge.kind with
    | after => rfl
    | data link =>
      obtain ⟨other, hother, -, hwhole⟩ := hu
      simp only [hk] at hother
      obtain rfl := EdgeKind.data.inj hother
      cases hwhole
  have hshares : Moves R (plan.shares.forM fun entry => entry.2.forM narrowEdge) :=
    .forM fun _ _ => .forM fun share _ => hnarrow share
  have hlists : Moves R (plan.lists.forM fun entry => do
      let item ← ofOption entry.2[0]?
      setNodeValue id entry.1 item) :=
    .forM fun _ _ => (moves_ofOption _).bind fun _ => (moves_setNodeValue _ _ _).mono fun t t' h => by
      exact fun edge he _ => h.edges ▸ he
  exact (hshares.bind fun _ => hlists).of_ok h

/-! ### Edges of repetitions -/

/-- An edge that started at a node, as it starts at a repetition. -/
structure Restarts (replica : NodeId) (old edge : Edge) : Prop where
  /-- It starts at the repetition. -/
  source : edge.source = replica
  /-- It leads where it led. -/
  target : edge.target = old.target
  /-- It goes into the same parameter. -/
  into : ∀ id key, edge.into id key = old.into id key
  /-- It hands on the same output. -/
  hands : ∀ output, edge.hands output = old.hands output

/-- An edge from a repetition hands on what the edge from the node did. -/
theorem restarts_of_outgoingEdge {replica : NodeId} {place : Nat} {edge : Edge} {t t' : Graph}
    (h : outgoingEdge replica place t = .ok edge t') :
    ∃ old, t.edges[place]? = some old ∧ Restarts replica old edge := by
  obtain ⟨old, _, hat, h⟩ := bind_eq_ok.mp h
  obtain ⟨hold, rfl⟩ := edgeAt_eq_ok.mp hat
  refine ⟨old, hold, ?_⟩
  cases hk : old.kind with
  | after =>
    simp only [hk] at h
    obtain ⟨rfl, -⟩ := pure_eq_ok.mp h
    obtain ⟨source, target, kind⟩ := old
    obtain rfl : kind = .after := hk
    exact ⟨rfl, rfl, fun _ _ => rfl, fun _ => rfl⟩
  | data link =>
    simp only [hk] at h
    obtain ⟨value?, _, -, h⟩ := bind_eq_ok.mp h
    obtain ⟨rfl, -⟩ := pure_eq_ok.mp h
    refine ⟨rfl, rfl, fun id key => Bool.eq_iff_iff.mpr ?_, fun output => Bool.eq_iff_iff.mpr ?_⟩
    · rw [Edge.into_iff, Edge.into_iff]
      refine and_congr_right fun _ => ⟨?_, ?_⟩
      · rintro ⟨moved, hmoved, rfl⟩
        obtain rfl := EdgeKind.data.inj hmoved
        exact ⟨link, hk, rfl⟩
      · rintro ⟨found, hfound, rfl⟩
        obtain rfl := EdgeKind.data.inj (hk.symm.trans hfound)
        exact ⟨_, rfl, rfl⟩
    · simp [Edge.hands, hk, EdgeKind.link?, Edge.data]

/-- How the edges of the repetition at a place are laid. -/
structure Laid (before : List Edge) (plan : Drivers) (incoming outgoing : List Nat) (place : Nat)
    (previous? : Option NodeId) (replica : NodeId) (inward outward : List Edge) : Prop where
  /-- Some edges lead to the repetition. -/
  ends : ∀ edge ∈ inward, edge.target = replica
  /-- Those that hand on no element of a list are the edges of strands that stand at the place, edges
  that bring nothing to be shared out, and edges from the repetition before. -/
  origins : ∀ edge ∈ inward, edge.IsUndivided →
    (∃ strand ∈ plan.strands, ∃ other old, strand.edges[place]? = some other ∧
      before[other]? = some old ∧ edge = { old with target := replica }) ∨
    (∃ other ∈ incoming, plan.consumes other = false ∧ ∃ old, before[other]? = some old ∧
      edge = { old with target := replica }) ∨
    edge.source ∈ previous?
  /-- The others are the edges that started at the node, in order. -/
  outward : List.Forall₂ (fun other edge => ∃ old, before[other]? = some old ∧
    Restarts replica old edge) outgoing outward

/-- The edges of a repetition are those to it, those from it, and those from the repetition before. -/
theorem laid_of_ownEdges {t t' : Graph} {node : Node} {plan : Drivers} {serial : Bool}
    {incoming outgoing : List Nat} {place : Nat} {previous? : Option NodeId} {replica : NodeId}
    {own : List Edge}
    (h : ownEdges node plan serial incoming outgoing place previous? replica t = .ok own t') :
    ∃ inward outward chain, own = inward ++ outward ++ chain ∧
      Laid t.edges plan incoming outgoing place previous? replica (inward ++ chain) outward := by
  obtain ⟨shares, strands, kept, outward, chain, t₁, t₂, t₃, t₄, rfl, hshares, hstrands, hkept,
    houtward, hchain, h₁, h₂, h₃, -⟩ := ownEdges_eq_ok h
  have hshared : ∀ edge ∈ shares, edge.target = replica ∧ ¬ edge.IsUndivided := by
    intro edge he
    obtain ⟨entry, -, share, -, rfl⟩ := exists_of_mem_right (forall₂_of_shareEdges hshares) he
    refine ⟨rfl, ?_⟩
    rintro ⟨link, hk, -, hwhole⟩
    rw [← EdgeKind.data.inj hk] at hwhole
    cases hwhole
  have hstrung : ∀ edge ∈ strands, ∃ strand ∈ plan.strands, ∃ other old,
      strand.edges[place]? = some other ∧ t.edges[other]? = some old ∧
        edge = { old with target := replica } := by
    intro edge he
    rw [← h₁.edges]
    exact exists_of_mem_right (forall₂_of_strandEdges hstrands) he
  have hleft : ∀ edge ∈ kept, ∃ other ∈ incoming, plan.consumes other = false ∧ ∃ old,
      t.edges[other]? = some old ∧ edge = { old with target := replica } := by
    intro edge he
    obtain ⟨other, hother, old, hold, rfl⟩ := exists_of_mem_right (forall₂_of_keptEdges hkept) he
    obtain ⟨hin, hfree⟩ := List.mem_filter.mp hother
    exact ⟨other, hin, by simpa using hfree, old, h₂.edges ▸ hold, rfl⟩
  have hchained := (chainEdges_spec hchain).1
  refine ⟨shares ++ strands ++ kept, outward, chain, rfl, fun edge he => ?_, fun edge he hu => ?_, ?_⟩
  · simp only [List.mem_append] at he
    obtain ((he | he) | he) | he := he
    · exact (hshared edge he).1
    · obtain ⟨_, -, _, _, -, -, rfl⟩ := hstrung edge he
      rfl
    · obtain ⟨_, -, -, _, -, rfl⟩ := hleft edge he
      rfl
    · exact (hchained edge he).2.2
  · simp only [List.mem_append] at he
    obtain ((he | he) | he) | he := he
    · exact absurd hu (hshared edge he).2
    · exact .inl (hstrung edge he)
    · exact .inr (.inl (hleft edge he))
    · exact .inr (.inr (hchained edge he).2.1)
  · rw [outgoingEdges_eq] at houtward
    refine (forall₂_of_mapM (fun other _ => moves_outgoingEdge replica other) houtward).imp ?_
    rintro other edge ⟨u, u', hu, hstep⟩
    obtain ⟨old, hold, hrestarts⟩ := restarts_of_outgoingEdge hstep
    rw [hu.edges, h₃.edges] at hold
    exact ⟨old, hold, hrestarts⟩

/-- A repetition hands on an output to a parameter of another node as often as the node did that it
stands for. -/
theorem Laid.sources {t : Graph} {plan : Drivers} {incoming : List Nat} {id replica other : NodeId}
    {place : Nat} {previous? : Option NodeId} {inward outward chain : List Edge}
    (h : Laid t.edges plan incoming (t.outgoing id) place previous? replica (inward ++ chain) outward)
    (hne : other ≠ replica) (key output : String) :
    ((inward ++ outward ++ chain).filter fun edge => edge.into other key && edge.hands output).map
        (·.source) =
      List.replicate ((t.feeders other key output).count id) replica := by
  let test : Edge → Bool := fun edge => edge.into other key && edge.hands output
  have hnone : ∀ edges : List Edge, edges ⊆ inward ++ chain → edges.filter test = [] := by
    intro edges hsub
    refine List.filter_eq_nil_iff.mpr fun edge he htest => ?_
    have hinto := (Edge.into_iff.mp (Bool.and_eq_true_iff.mp htest).1).1
    exact hne (hinto.symm.trans (h.ends edge (hsub he)))
  have hlength : (outward.filter test).length =
      ((t.outgoing id).filter (t.passesAt test)).length := by
    refine (forall₂_filter h.outward ?_).length_eq.symm
    rintro spot edge ⟨old, hold, hrestarts⟩
    rw [passesAt, hold, Option.any_some]
    exact congrArg₂ (· && ·) (hrestarts.into other key) (hrestarts.hands output)
  change ((inward ++ outward ++ chain).filter test).map (·.source) = _
  rw [List.filter_append, List.filter_append, hnone inward (List.subset_append_left _ _),
    hnone chain (List.subset_append_right _ _), List.nil_append, List.append_nil]
  refine List.eq_replicate_iff.mpr ⟨?_, fun source hsource => ?_⟩
  · rw [List.length_map, hlength, outgoing, filter_placesWhere, length_placesWhere, feeders, fed,
      List.count, List.countP_map, List.countP_eq_length_filter, List.filter_filter,
      List.filter_filter]
    refine congrArg _ (List.filter_congr fun edge _ => ?_)
    simp only [test, Function.comp_apply]
    ac_rfl
  · obtain ⟨edge, he, rfl⟩ := List.mem_map.mp hsource
    obtain ⟨_, -, _, -, hrestarts⟩ := exists_of_mem_right h.outward (List.mem_of_mem_filter he)
    exact hrestarts.source

/-- The edges after a node gave way to repetitions: those that do not touch it, and those that were
laid for the repetitions. -/
structure Relaid (node : Node) (plan : Drivers) (replicas : List NodeId) (t g' : Graph) : Prop where
  /-- There are no others. -/
  edges : ∀ edge ∈ g'.edges, (edge ∈ t.edges ∧ edge.source ≠ node.id ∧ edge.target ≠ node.id) ∨
    ∃ (place : Nat) (replica : NodeId) (inward outward : List Edge), replicas[place]? = some replica ∧
      Laid t.edges plan (t.incoming node.id) (t.outgoing node.id) place (previousOf none replicas place)
        replica inward outward ∧ edge ∈ inward ++ outward
  /-- Where the node fed a parameter of another one, the repetitions do so as often. -/
  feeders : ∀ other ≠ node.id, other ∉ replicas → ∀ key output, g'.feeders other key output =
    (t.feeders other key output).filter (· ≠ node.id) ++
      replicas.flatMap (List.replicate ((t.feeders other key output).count node.id))

/-- Which edges lead to a node depends on the edges only. -/
theorem incoming_of_edges {g g' : Graph} (h : g'.edges = g.edges) (id : NodeId) :
    g'.incoming id = g.incoming id := by
  rw [incoming, placesWhere, h, incoming, placesWhere]

/-- Which edges start at a node depends on the edges only. -/
theorem outgoing_of_edges {g g' : Graph} (h : g'.edges = g.edges) (id : NodeId) :
    g'.outgoing id = g.outgoing id := by
  rw [outgoing, placesWhere, h, outgoing, placesWhere]

/-- When a node is repeated, its edges are laid anew for each of its repetitions. -/
theorem relaid_of_replicate {node : Node} {plan : Drivers} {t g' : Graph} {count : Nat} {u : Unit}
    (h : replicate node plan count t = .ok u g') :
    Relaid node plan (List.range' t.nextId count) t g' := by
  obtain ⟨serial, added, t₁, t₂, t₃, parts, -, ⟨hids, -⟩, hadded, -, hedges, hmemo, hlength, rfl,
    hruns⟩ := runs_of_replicate h
  have hcount : added.length = count := by simpa using hadded.length_eq.symm
  rw [hcount] at hids
  rw [hids] at hruns
  have hlaid : ∀ (place : Nat) (replica : NodeId) (own : List Edge),
      (List.range' t.nextId count)[place]? = some replica → parts[place]? = some own →
      ∃ inward outward chain, own = inward ++ outward ++ chain ∧ Laid t.edges plan (t.incoming node.id)
        (t.outgoing node.id) place (previousOf none (List.range' t.nextId count) place) replica
        (inward ++ chain) outward := by
    intro place replica own hreplica hown
    obtain ⟨v, v', hv, -, hrun⟩ := hruns place replica own hreplica hown
    rw [incoming_of_edges hedges, outgoing_of_edges hedges] at hrun
    exact (hv.edges.trans hedges) ▸ laid_of_ownEdges hrun
  refine ⟨fun edge he => ?_, fun other hne hfresh key output => ?_⟩
  · rcases untouched_or_part hlength he with hold | ⟨place, replica, own, hreplica, hplace, he⟩
    · rw [hmemo.edges, hedges] at hold
      exact .inl hold
    · rw [hids] at hreplica
      obtain ⟨inward, outward, chain, rfl, hl⟩ := hlaid place replica own hreplica hplace
      refine .inr ⟨place, replica, _, outward, hreplica, hl, ?_⟩
      simp only [List.mem_append] at he ⊢
      exact or_right_comm.mp he
  · have hstay : (((t₃.removeNode node.id).fed other key).filter (Edge.hands output)).map (·.source) =
        (t.feeders other key output).filter (· ≠ node.id) := by
      have hfed : (t₃.removeNode node.id).fed other key =
          (t.fed other key).filter (·.source ≠ node.id) := by
        rw [fed, removeNode, hmemo.edges, hedges, fed, List.filter_filter, List.filter_filter]
        refine List.filter_congr fun edge _ => ?_
        cases hinto : edge.into other key with
        | false => rw [Bool.and_false, Bool.false_and]
        | true =>
          have htarget : (edge.target == node.id) = false :=
            beq_eq_false_iff_ne.mpr ((Edge.into_iff.mp hinto).1 ▸ hne)
          rw [Edge.touches, htarget, Bool.or_false, Bool.and_true, Bool.true_and, decide_not]
          rfl
      rw [hfed, feeders, List.filter_map, List.filter_comm]
      rfl
    have hnew : (parts.map fun own => (own.filter fun edge =>
        edge.into other key && edge.hands output).map (·.source)) =
          (List.range' t.nextId count).map
            (List.replicate ((t.feeders other key output).count node.id)) := by
      refine List.ext_getElem (by simp [hlength, hcount]) fun place hlt hlt' => ?_
      rw [List.getElem_map, List.getElem_map]
      have hreplica := List.getElem?_eq_getElem (List.length_map _ ▸ hlt')
      obtain ⟨inward, outward, chain, hown, hl⟩ := hlaid place _ _ hreplica
        (List.getElem?_eq_getElem (List.length_map _ ▸ hlt))
      rw [hown]
      refine hl.sources (fun heq => hfresh ?_) key output
      rw [heq]
      exact List.getElem_mem _
    rw [feeders, fed_addEdges, List.filter_append, List.map_append, hstay, List.filter_flatten,
      List.filter_flatten, List.map_flatten, List.map_map, List.map_map, List.flatMap_def, ← hnew]
    refine congrArg (fun sources => _ ++ List.flatten sources) (List.map_congr_left fun own _ => ?_)
    rw [Function.comp_apply, Function.comp_apply, List.filter_filter]
    refine congrArg _ (List.filter_congr fun edge _ => Bool.and_comm _ _)

end Graph

end Pipework
