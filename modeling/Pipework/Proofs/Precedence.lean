import Pipework.Proofs.MultipliedNodes
import Pipework.Proofs.Turns

/-!
# What comes before what, after nodes are repeated

A node that is repeated is multiplied into its repetitions: whatever hands on something to the
node hands it on to at least one of them, because every one of them takes its share of each list
that came in. So one job comes before another after nodes were repeated just if it did before.
-/

namespace Pipework

open Step

namespace Graph

/-- Some parameter asks for so many repetitions. -/
theorem exists_of_size? {drivers : Drivers} {job : String} {count : Nat}
    (h : drivers.size? job = .ok (some count)) : ∃ entry ∈ drivers.sizes, entry.2 = count := by
  cases hsizes : drivers.sizes with
  | nil => simp [Drivers.size?, hsizes] at h
  | cons first others =>
    have hfirst : first ∈ drivers.sizes := hsizes ▸ List.mem_cons_self
    exact ⟨first, List.mem_cons_self, length_of_size? h first hfirst⟩

/-- Only lists with elements are something to repeat a node for. -/
theorem nonempty_of_listDrivers {id : NodeId} {linked : List String} {parameters : List Parameter}
    {lists : List (String × List Value)} {g g' : Graph}
    (h : listDrivers id linked parameters g = .ok lists g') : ∀ entry ∈ lists, entry.2 ≠ [] := by
  induction parameters generalizing lists g with
  | nil =>
    obtain ⟨rfl, -⟩ := pure_eq_ok.mp h
    simp
  | cons parameter parameters ih =>
    rw [listDrivers] at h
    split at h
    · exact ih h
    · obtain ⟨current, t, -, h⟩ := bind_eq_ok.mp h
      obtain ⟨others, t', hothers, h⟩ := bind_eq_ok.mp h
      split at h
      next item items =>
        obtain ⟨rfl, rfl⟩ := pure_eq_ok.mp h
        intro entry hentry
        rcases List.mem_cons.mp hentry with rfl | hentry
        · simp
        · exact ih hothers entry hentry
      next =>
        obtain ⟨rfl, rfl⟩ := pure_eq_ok.mp h
        exact ih hothers

/-- What a node is repeated for are some values at least. -/
theorem pos_of_drivers {g g' : Graph} {id : NodeId} {plan : Drivers}
    (h : drivers id g = .ok plan g') : ∀ entry ∈ plan.sizes, 0 < entry.2 := by
  have htraced := traced_of_drivers h
  obtain ⟨found, t, node, lists, -, -, hlists, rfl⟩ := drivers_eq_ok h
  intro entry hentry
  simp only [Drivers.sizes, List.mem_append, List.mem_map] at hentry
  obtain (⟨shared, hshared, rfl⟩ | ⟨list, hlist, rfl⟩) | ⟨strand, hstrand, rfl⟩ := hentry
  · exact List.length_pos_of_ne_nil (htraced.nonempty shared hshared)
  · exact List.length_pos_of_ne_nil (nonempty_of_listDrivers hlists list hlist)
  · have hlong : 1 < strand.edges.length := by simpa using (List.mem_filter.mp hstrand).2
    exact Nat.zero_lt_of_lt hlong

/-- A node that is not repeated just once is repeated several times. -/
theorem several_of_drivers {g g' : Graph} {id : NodeId} {plan : Drivers} {job : String}
    {count : Nat} (h : drivers id g = .ok plan g') (hsize : plan.size? job = .ok (some count))
    (hne : count ≠ 1) : 1 < count := by
  obtain ⟨entry, hentry, rfl⟩ := exists_of_size? hsize
  have hpos := pos_of_drivers h entry hentry
  omega

theorem EdgesKept.leads_iff {edges edges' : List Edge} (h : EdgesKept edges edges')
    {u v : NodeId} : Leads edges' u v ↔ Leads edges u v := by
  constructor
  · rintro ⟨edge', he', rfl, rfl⟩
    obtain ⟨edge, he, hs, ht, -⟩ := h.exists_edge he'
    rw [hs, ht]
    exact leads_of_mem he
  · rintro ⟨edge, he, rfl, rfl⟩
    obtain ⟨place, hplace⟩ := List.mem_iff_getElem?.mp he
    obtain ⟨edge', he', hs, ht, -⟩ := h.behind hplace
    rw [← hs, ← ht]
    exact leads_of_mem (List.mem_of_getElem? he')

/-- Edges that are shared out belong to a list that comes in, or to a strand. -/
theorem Drivers.consumes_iff {drivers : Drivers} {place : Nat} :
    drivers.consumes place = true ↔
      (∃ entry ∈ drivers.shares, ∃ share ∈ entry.2, share.edge = place) ∨
        ∃ strand ∈ drivers.strands, place ∈ strand.edges := by
  simp [Drivers.consumes]

section Multiplying

variable {g g' : Graph} {node : Node} {drivers : Drivers} {serial : Bool} {added : List Node}
  {parts : List (List Edge)} (h : Replicated node drivers serial added parts g g')

include h

/-- Edges after a node was repeated join others as before, or belong to a repetition. -/
theorem Replicated.leads_iff {u v : NodeId} : Leads g'.edges u v ↔
    (Leads g.edges u v ∧ u ≠ node.id ∧ v ≠ node.id) ∨ ∃ own ∈ parts, Leads own u v := by
  obtain ⟨base, hbase, hedges⟩ := h.edges
  rw [hedges, leads_append, leads_removed, hbase.leads_iff]
  refine or_congr_right ⟨?_, ?_⟩
  · rintro ⟨edge, he, rfl, rfl⟩
    obtain ⟨own, hown, he⟩ := List.mem_flatten.mp he
    exact ⟨own, hown, leads_of_mem he⟩
  · rintro ⟨own, hown, hl⟩
    exact hl.mono fun edge he => List.mem_flatten.mpr ⟨own, hown, he⟩

/-- What an edge of a repetition joins. -/
theorem Replicated.leads_own {u v : NodeId} {own : List Edge} (ho : own ∈ parts)
    (hl : Leads own u v) :
    (Leads g.edges u node.id ∧ v ∈ added.map (·.id)) ∨
      (Leads g.edges node.id v ∧ u ∈ added.map (·.id)) ∨
      serial = true ∧ ∃ place : Nat, (added.map (·.id))[place]? = some u ∧
        (added.map (·.id))[place + 1]? = some v := by
  obtain ⟨edge, he, rfl, rfl⟩ := hl
  obtain ⟨place, replica, other, hr, he, -, howned⟩ :=
    h.exists_owned (List.mem_flatten.mpr ⟨own, ho, he⟩)
  cases howned.made edge he with
  | inward old hold hid hs ht _ =>
    exact .inl ⟨⟨old, hold, hs.symm, hid⟩, ht ▸ List.mem_of_getElem? hr⟩
  | outward old hold hid hs ht _ =>
    exact .inr (.inl ⟨⟨old, hold, hid, ht.symm⟩, hs ▸ List.mem_of_getElem? hr⟩)
  | chain hserial hs ht =>
    cases place with
    | zero => cases hs
    | succ place => exact .inr (.inr ⟨hserial, place, hs, ht ▸ hr⟩)

variable {job : String} (hw : g.WellFormed)
  (hsize : drivers.size? job = .ok (some added.length)) (hsome : added ≠ [])

include hsize in
/-- Whatever comes in is handed on to some repetition. -/
theorem Replicated.exists_inward (hsome : added ≠ []) {u : NodeId}
    (hl : Leads g.edges u node.id) : ∃ v ∈ added.map (·.id), Leads g'.edges u v := by
  obtain ⟨old, hold, rfl, hid⟩ := hl
  obtain ⟨other, hother⟩ := List.mem_iff_getElem?.mp hold
  have hlengths := length_of_size? hsize
  -- It is enough to find a place whose repetition has such an edge among its own.
  suffices hplace : ∃ place < added.length, ∀ replica own,
      Owned g.edges node.id drivers serial place (previousOf none (added.map (·.id)) place)
        replica own → Leads own old.source replica by
    obtain ⟨place, hlt, howns⟩ := hplace
    have hr : (added.map (·.id))[place]? = some added[place].id := by simp [hlt]
    obtain ⟨own, hown, howned⟩ := h.exists_own hr
    exact ⟨_, List.mem_of_getElem? hr, h.leads_iff.mpr (.inr ⟨own, hown, howns _ own howned⟩)⟩
  cases hconsumes : drivers.consumes other with
  | false =>
    refine ⟨0, List.length_pos_of_ne_nil hsome, fun replica own howned => ?_⟩
    obtain ⟨edge, he, hs, ht, -⟩ := howned.inward other old hother hid hconsumes
    exact ⟨edge, he, hs, ht⟩
  | true =>
    rcases Drivers.consumes_iff.mp hconsumes with ⟨entry, hentry, share, hshare, rfl⟩ |
      ⟨strand, hstrand, hmem⟩
    · obtain ⟨place, hplace⟩ := List.mem_iff_getElem?.mp hshare
      have hlength : entry.2.length = added.length := hlengths (entry.1, entry.2.length) (by
        simp only [Drivers.sizes, List.mem_append, List.mem_map]
        exact .inl (.inl ⟨entry, hentry, rfl⟩))
      have hlt := (List.getElem?_eq_some_iff.mp hplace).1
      refine ⟨place, hlength ▸ hlt, fun replica own howned => ?_⟩
      obtain ⟨share', hshare', hl⟩ := howned.shares entry hentry
      obtain rfl := Option.some.inj (hplace.symm.trans hshare')
      rwa [h.traced.sources entry hentry share hshare old hother]
    · obtain ⟨place, hplace⟩ := List.mem_iff_getElem?.mp hmem
      have hlength : strand.edges.length = added.length :=
        hlengths (strand.property, strand.edges.length) (by
          simp only [Drivers.sizes, List.mem_append, List.mem_map]
          exact .inr ⟨strand, hstrand, rfl⟩)
      have hlt := (List.getElem?_eq_some_iff.mp hplace).1
      refine ⟨place, hlength ▸ hlt, fun replica own howned => ?_⟩
      obtain ⟨other', old', hother', hold', hl⟩ := howned.strands strand hstrand
      obtain rfl := Option.some.inj (hplace.symm.trans hother')
      obtain rfl := Option.some.inj (hother.symm.trans hold')
      exact hl

include hw in
/-- No edge touched a handle that a repetition has got. -/
theorem Replicated.not_fresh {u v : NodeId} (hl : Leads g.edges u v) :
    u ∉ added.map (·.id) ∧ v ∉ added.map (·.id) := by
  obtain ⟨edge, he, rfl, rfl⟩ := hl
  obtain ⟨hs, ht⟩ := hw.lt_nextId he
  exact ⟨fun hmem => absurd (h.fresh hmem) (Nat.not_le.mpr hs),
    fun hmem => absurd (h.fresh hmem) (Nat.not_le.mpr ht)⟩

include hw hsize hsome in
/-- A node that is repeated is multiplied into its repetitions. -/
theorem Replicated.multiplied :
    Multiplied node.id (added.map (·.id)) serial g.edges g'.edges where
  stay u hu v hv := by
    refine h.leads_iff.trans (or_iff_left ?_)
    rintro ⟨own, hown, hl⟩
    rcases h.leads_own hown hl with ⟨-, hfresh⟩ | ⟨-, hfresh⟩ | ⟨-, place, hfresh, -⟩
    · exact hv hfresh
    · exact hu hfresh
    · exact hu (List.mem_of_getElem? hfresh)
  inward u hu := by
    refine ⟨?_, h.exists_inward hsize hsome⟩
    rintro ⟨v, hv, hl⟩
    rcases h.leads_iff.mp hl with ⟨hl, -⟩ | ⟨own, hown, hl⟩
    · exact absurd hv (h.not_fresh hw hl).2
    · rcases h.leads_own hown hl with ⟨hl, -⟩ | ⟨-, hfresh⟩ | ⟨-, place, hfresh, -⟩
      · exact hl
      · exact absurd hfresh hu
      · exact absurd (List.mem_of_getElem? hfresh) hu
  outward u hu v hv := by
    constructor
    · intro hl
      rcases h.leads_iff.mp hl with ⟨hl, -⟩ | ⟨own, hown, hl⟩
      · exact absurd hu (h.not_fresh hw hl).1
      · rcases h.leads_own hown hl with ⟨-, hfresh⟩ | ⟨hl, -⟩ | ⟨-, place, -, hfresh⟩
        · exact absurd hfresh hv
        · exact hl
        · exact absurd (List.mem_of_getElem? hfresh) hv
    · rintro ⟨old, hold, hid, rfl⟩
      obtain ⟨place, hplace⟩ := List.mem_iff_getElem?.mp hu
      obtain ⟨own, hown, howned⟩ := h.exists_own hplace
      obtain ⟨edge, he, hs, ht, -⟩ := howned.outward old hold hid
      exact h.leads_iff.mpr (.inr ⟨own, hown, edge, he, hs, ht⟩)
  among i j u v hi hj := by
    have hu := List.mem_of_getElem? hi
    have hv := List.mem_of_getElem? hj
    constructor
    · intro hl
      rcases h.leads_iff.mp hl with ⟨hl, -⟩ | ⟨own, hown, hl⟩
      · exact absurd hu (h.not_fresh hw hl).1
      · rcases h.leads_own hown hl with ⟨hl, -⟩ | ⟨hl, -⟩ | ⟨hserial, place, hpu, hpv⟩
        · exact absurd hu (h.not_fresh hw hl).1
        · exact absurd hv (h.not_fresh hw hl).2
        · rw [place_unique h.nodup hi hpu, place_unique h.nodup hj hpv]
          exact ⟨hserial, rfl⟩
    · rintro ⟨hserial, rfl⟩
      obtain ⟨own, hown, howned⟩ := h.exists_own hj
      exact h.leads_iff.mpr (.inr ⟨own, hown, _, howned.chain hserial u hi, rfl, rfl⟩)

end Multiplying

/-- The nodes made from the job of a node, in their order and without their values. -/
def copiesOf (graph : Graph) (node : Node) : List Node :=
  (graph.nodes.filter (·.spec.id == node.spec.id)).map Node.outline

theorem copiesOf_eq (graph : Graph) (node : Node) : graph.copiesOf node =
    (graph.nodes.map Node.outline).filter (·.spec.id == node.spec.id) := by
  rw [List.filter_map]
  rfl

/-- What a node has become after nodes were repeated: it is still there, or several repetitions
stand in its place, and of two of them one comes before the other just if they wait for each other
and it has the lower place. -/
inductive Becomes (graph : Graph) (node : Node) : Prop
  | kept (h : graph.copiesOf node = [node.outline])
  | repeated {serial : Bool} (hserial : isSerial node = .ok serial)
      (hseveral : 1 < (graph.copiesOf node).length)
      (hmade : ∀ (place : Nat) (copy : Node), (graph.copiesOf node)[place]? = some copy →
        copy.name = node.name ++ "_" ++ replicaSuffix serial place ∧ copy.isReplica)
      (hpaths : ∀ (i j : Nat) (first second : Node), (graph.copiesOf node)[i]? = some first →
        (graph.copiesOf node)[j]? = some second →
          (Reaches graph.edges first.id second.id ↔ serial = true ∧ i < j))

/-- A graph while its nodes are being repeated, as far as it is about what comes before what. -/
structure Preceding (built graph : Graph) : Prop where
  /-- There is no circle. -/
  acyclic : Acyclic graph.edges
  /-- Handles fit together. -/
  wellFormed : graph.WellFormed
  /-- Handles are given out one after another. -/
  nextId : built.nextId ≤ graph.nextId
  /-- A node with a handle from before is one that was built. -/
  waiting : ∀ node ∈ graph.nodes, node.id < built.nextId →
    node.outline ∈ built.nodes.map Node.outline
  /-- Nodes have become repetitions or are still there. -/
  becomes : ∀ node ∈ built.nodes, Becomes graph node
  /-- One job comes before another just if it did. -/
  precedes : ∀ first ∈ built.nodes, ∀ second ∈ built.nodes, first ≠ second →
    (Reaches built.edges first.id second.id ↔ ∃ m ∈ graph.copiesOf first,
      ∃ n ∈ graph.copiesOf second, Reaches graph.edges m.id n.id)

theorem Retains.copiesOf {g g' : Graph} (h : Retains g g') (node : Node) :
    g'.copiesOf node = g.copiesOf node := by
  rw [copiesOf_eq, copiesOf_eq, h.nodes]

theorem EdgesKept.reaches_iff {edges edges' : List Edge} (h : EdgesKept edges edges')
    {u v : NodeId} : Reaches edges' u v ↔ Reaches edges u v := by
  have hleads : Leads edges' = Leads edges := by
    funext u v
    exact propext h.leads_iff
  rw [Reaches, hleads]

theorem Preceding.retains {built g g' : Graph} (h : Preceding built g) (hr : Retains g g') :
    Preceding built g' where
  acyclic v hv := h.acyclic v (hr.edges.reaches_iff.mp hv)
  wellFormed := hr.wellFormed h.wellFormed
  nextId := hr.nextId ▸ h.nextId
  waiting node' hn' hlt := by
    have hmem : node'.outline ∈ g.nodes.map Node.outline := hr.nodes ▸ List.mem_map_of_mem hn'
    obtain ⟨node, hn, houtline⟩ := List.mem_map.mp hmem
    have hid : node.id = node'.id := id_of_outline houtline
    exact houtline ▸ h.waiting node hn (hid ▸ hlt)
  becomes node hn := by
    cases h.becomes node hn with
    | kept hk => exact .kept (hr.copiesOf node ▸ hk)
    | repeated hserial hseveral hmade hpaths =>
      refine .repeated hserial ?_ ?_ ?_ <;> simp only [hr.copiesOf, hr.edges.reaches_iff]
      · exact hseveral
      · exact hmade
      · exact hpaths
  precedes first hf second hs hne := by
    simp only [hr.copiesOf, hr.edges.reaches_iff]
    exact h.precedes first hf second hs hne

section Copies

variable {built g g' : Graph} {node : Node} {drivers : Drivers} {serial : Bool}
  {added : List Node} {parts : List (List Edge)}

/-- The copies are nodes of the graph. -/
theorem exists_of_mem_copiesOf {node copy : Node} (h : copy ∈ g.copiesOf node) :
    ∃ other ∈ g.nodes, other.outline = copy ∧ other.spec.id = node.spec.id := by
  obtain ⟨other, hother, houtline⟩ := List.mem_map.mp h
  obtain ⟨hother, hspec⟩ := List.mem_filter.mp hother
  exact ⟨other, hother, houtline, by simpa using hspec⟩

theorem Replicated.copiesOf (h : Replicated node drivers serial added parts g g') (job : Node) :
    g'.copiesOf job = (g.copiesOf job).filter (·.id ≠ node.id) ++
      (added.map Node.outline).filter (·.spec.id == job.spec.id) := by
  have hfilter : (g.nodes.filter (·.id ≠ node.id)).map Node.outline =
      (g.nodes.map Node.outline).filter (·.id ≠ node.id) := by
    rw [List.filter_map]
    rfl
  rw [copiesOf_eq, h.nodes, List.map_append, List.filter_append, hfilter, copiesOf_eq,
    List.filter_filter, List.filter_filter]
  simp only [Bool.and_comm]

/-- The copies of another job stay. -/
theorem Replicated.copiesOf_of_ne (h : Replicated node drivers serial added parts g g')
    (hw : g.WellFormed) (hn : node ∈ g.nodes) {job : Node} (hne : node.spec.id ≠ job.spec.id) :
    g'.copiesOf job = g.copiesOf job := by
  have hothers : (g.copiesOf job).filter (·.id ≠ node.id) = g.copiesOf job := by
    refine List.filter_eq_self.mpr fun copy hcopy => decide_eq_true fun heq => hne ?_
    obtain ⟨other, hother, rfl, hspec⟩ := exists_of_mem_copiesOf hcopy
    obtain rfl : other = node := List.inj_on_of_nodup_map hw.nodup hother hn heq
    exact hspec
  have hadded : (added.map Node.outline).filter (·.spec.id == job.spec.id) = [] := by
    refine List.filter_eq_nil_iff.mpr fun copy hcopy => ?_
    obtain ⟨replica, hreplica, rfl⟩ := List.mem_map.mp hcopy
    have hspec : replica.outline.spec = node.spec := h.specs replica hreplica
    simpa [hspec] using hne
  rw [h.copiesOf, hothers, hadded, List.append_nil]

/-- The copies of the job of the node are its repetitions. -/
theorem Replicated.copiesOf_self (h : Replicated node drivers serial added parts g g') {job : Node}
    (houtline : job.outline = node.outline) (hcopies : g.copiesOf job = [node.outline]) :
    g'.copiesOf job = added.map Node.outline := by
  have hgone : [node.outline].filter (·.id ≠ node.id) = [] := by simp [Node.outline]
  have hadded : (added.map Node.outline).filter (·.spec.id == job.spec.id) =
      added.map Node.outline := by
    refine List.filter_eq_self.mpr fun copy hcopy => ?_
    obtain ⟨replica, hreplica, rfl⟩ := List.mem_map.mp hcopy
    have hspec : replica.outline.spec = node.spec := h.specs replica hreplica
    rw [hspec, spec_of_outline houtline]
    exact beq_self_eq_true _
  rw [h.copiesOf, hcopies, hgone, hadded, List.nil_append]

variable (hp : Preceding built g) (hplain : ∀ node ∈ built.nodes, ¬ node.isReplica)
  (hn : node ∈ g.nodes)

include hp hplain hn

/-- A node that was built is the only one made from its job. -/
theorem Preceding.copiesOf_of_outline {job : Node} (hjob : job ∈ built.nodes)
    (houtline : job.outline = node.outline) : g.copiesOf job = [node.outline] := by
  have hmem : node.outline ∈ g.copiesOf job := by
    refine List.mem_map_of_mem (List.mem_filter.mpr ⟨hn, ?_⟩)
    rw [spec_of_outline houtline]
    exact beq_self_eq_true _
  cases hp.becomes job hjob with
  | kept h => rw [h, houtline]
  | repeated _ _ hmade _ =>
    obtain ⟨place, hplace⟩ := List.mem_iff_getElem?.mp hmem
    have hreplica : node.isReplica := (hmade place _ hplace).2
    rw [← isReplica_of_outline houtline] at hreplica
    exact absurd hreplica (hplain job hjob)

end Copies

/-- A repetition has the name of its place. -/
theorem name_of_isReplica {node : Node} {drivers : Drivers} {serial : Bool} {added : List Node}
    {count place : Nat} {replica : Node}
    (h : List.Forall₂ (IsReplica node drivers serial) (List.range count) added)
    (hr : added[place]? = some replica) :
    replica.name = node.name ++ "_" ++ replicaSuffix serial place ∧ replica.isReplica := by
  obtain ⟨hlt, hreplica⟩ := List.getElem?_eq_some_iff.mp hr
  have hmade := (List.forall₂_iff_get.mp h).2 place (h.length_eq ▸ hlt) hlt
  simp only [List.get_eq_getElem, List.getElem_range, hreplica] at hmade
  obtain ⟨overrides, t, t', -, heq⟩ := hmade
  rw [heq]
  exact ⟨rfl, rfl⟩

theorem ids_ne_nil {added : List Node} (h : 1 < added.length) : added.map (·.id) ≠ [] := by
  rw [Ne, List.map_eq_nil_iff, ← List.length_eq_zero_iff]
  omega

section Replacing

variable {built g g' : Graph} {node : Node} {drivers : Drivers} {serial : Bool} {count : Nat}
  {added : List Node} {parts : List (List Edge)} (hp : Preceding built g)
  (hplain : ∀ node ∈ built.nodes, ¬ node.isReplica)
  (hnames : (built.nodes.map (·.spec.id)).Nodup) (hn : node ∈ g.nodes)
  (hlt : node.id < built.nextId) (h : Replicated node drivers serial added parts g g')
  (hserial : isSerial node = .ok serial)
  (hmade : List.Forall₂ (IsReplica node drivers serial) (List.range count) added)
  (hm : Multiplied node.id (added.map (·.id)) serial g.edges g'.edges)
  (hseveral : 1 < added.length)

include hp hplain hnames hn hlt h

/-- The copies of the node become its repetitions, and those of other jobs stay. -/
theorem Preceding.copies_cases {job : Node} (hjob : job ∈ built.nodes) :
    (job.outline = node.outline ∧ g.copiesOf job = [node.outline] ∧
        g'.copiesOf job = added.map Node.outline) ∨
      (g'.copiesOf job = g.copiesOf job ∧ ∀ copy ∈ g.copiesOf job, copy.id ≠ node.id) := by
  by_cases hspec : node.spec.id = job.spec.id
  · obtain ⟨other, hother, houtline⟩ := List.mem_map.mp (hp.waiting node hn hlt)
    have hsame : other.spec = node.spec := spec_of_outline houtline
    obtain rfl : other = job := List.inj_on_of_nodup_map hnames hother hjob (hsame ▸ hspec)
    have hcopies := hp.copiesOf_of_outline hplain hn hother houtline
    exact .inl ⟨houtline, hcopies, h.copiesOf_self houtline hcopies⟩
  · refine .inr ⟨h.copiesOf_of_ne hp.wellFormed hn hspec, fun copy hcopy hid => hspec ?_⟩
    obtain ⟨other, hother, rfl, hsame⟩ := exists_of_mem_copiesOf hcopy
    obtain rfl : other = node := List.inj_on_of_nodup_map hp.wellFormed.nodup hother hn hid
    exact hsame

/-- The copies of a job are those that stand for the copies it had. -/
theorem Preceding.mem_copiesOf {job : Node} (hjob : job ∈ built.nodes) (id : NodeId) :
    (∃ copy ∈ g'.copiesOf job, copy.id = id) ↔
      ∃ copy ∈ g.copiesOf job, id ∈ heirs node.id (added.map (·.id)) copy.id := by
  rcases hp.copies_cases hplain hnames hn hlt h hjob with ⟨-, hbefore, hbehind⟩ | ⟨hsame, hne⟩
  · simp [hbefore, hbehind, Node.outline]
  · rw [hsame]
    refine exists_congr fun copy => and_congr_right fun hcopy => ?_
    rw [heirs_of_ne (hne copy hcopy), List.mem_singleton, eq_comm]

include hm hseveral

/-- What precedes what stays the same when a node is replaced by its repetitions. -/
theorem Preceding.precedes_replicated {first second : Node} (hf : first ∈ built.nodes)
    (hs : second ∈ built.nodes) (hne : first ≠ second) :
    Reaches built.edges first.id second.id ↔ ∃ m ∈ g'.copiesOf first,
      ∃ n ∈ g'.copiesOf second, Reaches g'.edges m.id n.id := by
  have hsome := ids_ne_nil hseveral
  have hstand : ∀ m ∈ g.copiesOf first, ∀ n ∈ g.copiesOf second,
      (Reaches g.edges m.id n.id ↔ ∃ a ∈ heirs node.id (added.map (·.id)) m.id,
        ∃ b ∈ heirs node.id (added.map (·.id)) n.id, Reaches g'.edges a b) := by
    intro m hmem n hnem
    obtain ⟨one, hone, rfl, hspec₁⟩ := exists_of_mem_copiesOf hmem
    obtain ⟨two, htwo, rfl, hspec₂⟩ := exists_of_mem_copiesOf hnem
    have hold : ∀ other ∈ g.nodes, other.id ∉ added.map (·.id) := fun other ho hnew =>
      absurd (h.fresh hnew) (Nat.not_le.mpr (hp.wellFormed.below _ (List.mem_map_of_mem ho)))
    refine hm.reaches_iff hp.acyclic (fun _ _ => h.not_fresh hp.wellFormed) h.nodup hsome
      (hold one hone) (hold two htwo) fun hid => hne ?_
    obtain rfl : one = two := List.inj_on_of_nodup_map hp.wellFormed.nodup hone htwo hid
    exact List.inj_on_of_nodup_map hnames hf hs (hspec₁.symm.trans hspec₂)
  rw [hp.precedes first hf second hs hne]
  constructor
  · rintro ⟨m, hmem, n, hnem, hr⟩
    obtain ⟨a, ha, b, hb, hr⟩ := (hstand m hmem n hnem).mp hr
    obtain ⟨m', hm', rfl⟩ := (hp.mem_copiesOf hplain hnames hn hlt h hf a).mpr ⟨m, hmem, ha⟩
    obtain ⟨n', hn', rfl⟩ := (hp.mem_copiesOf hplain hnames hn hlt h hs b).mpr ⟨n, hnem, hb⟩
    exact ⟨m', hm', n', hn', hr⟩
  · rintro ⟨m', hm', n', hn', hr⟩
    obtain ⟨m, hmem, ha⟩ := (hp.mem_copiesOf hplain hnames hn hlt h hf m'.id).mp ⟨m', hm', rfl⟩
    obtain ⟨n, hnem, hb⟩ := (hp.mem_copiesOf hplain hnames hn hlt h hs n'.id).mp ⟨n', hn', rfl⟩
    exact ⟨m, hmem, n, hnem, (hstand m hmem n hnem).mpr ⟨m'.id, ha, n'.id, hb, hr⟩⟩

include hserial hmade

/-- The node becomes its repetitions, and others go on to be what they have become. -/
theorem Preceding.becomes_replicated {job : Node} (hjob : job ∈ built.nodes) : Becomes g' job := by
  have hsome := ids_ne_nil hseveral
  rcases hp.copies_cases hplain hnames hn hlt h hjob with
    ⟨houtline, -, hbehind⟩ | ⟨hsame, hothers⟩
  · have hplace : ∀ (place : Nat) (copy : Node), (g'.copiesOf job)[place]? = some copy →
        ∃ replica, added[place]? = some replica ∧ replica.outline = copy := by
      intro place copy hcopy
      rw [hbehind, List.getElem?_map] at hcopy
      exact Option.map_eq_some_iff.mp hcopy
    have hid : ∀ (place : Nat) (copy : Node), (g'.copiesOf job)[place]? = some copy →
        (added.map (·.id))[place]? = some copy.id := by
      intro place copy hcopy
      obtain ⟨replica, hreplica, rfl⟩ := hplace place copy hcopy
      rw [List.getElem?_map, hreplica]
      rfl
    refine .repeated ((eq_of_outline houtline isSerial fun _ => rfl).trans hserial) ?_
      (fun place copy hcopy => ?_) fun i j first second hi hj => ?_
    · rwa [hbehind, List.length_map]
    · obtain ⟨replica, hreplica, rfl⟩ := hplace place copy hcopy
      have hnamed := name_of_isReplica hmade hreplica
      rw [name_of_outline houtline]
      exact hnamed
    · exact hm.reaches_among hp.acyclic h.nodup (hid i first hi) (hid j second hj)
  · cases hp.becomes job hjob with
    | kept hk => exact .kept (hsame ▸ hk)
    | repeated hs hlong hnamed hpaths =>
      refine .repeated hs ?_ ?_ ?_ <;> rw [hsame]
      · exact hlong
      · exact hnamed
      · intro i j first second hi hj
        rw [← hpaths i j first second hi hj]
        have hfree : ∀ copy ∈ g.copiesOf job, copy.id ∉ added.map (·.id) := by
          intro copy hcopy hnew
          obtain ⟨other, hother, rfl, -⟩ := exists_of_mem_copiesOf hcopy
          have hbelow := hp.wellFormed.below _ (List.mem_map_of_mem hother)
          exact absurd (h.fresh hnew) (Nat.not_le.mpr hbelow)
        have hfirst := List.mem_of_getElem? hi
        have hsecond := List.mem_of_getElem? hj
        exact hm.reaches_others hp.acyclic (fun _ _ => h.not_fresh hp.wellFormed) h.nodup hsome
          (hfree first hfirst) (hothers first hfirst) (hfree second hsecond) (hothers second hsecond)

/-- The graph goes on to be as it should when a node is replaced by its repetitions. -/
theorem Preceding.replicated : Preceding built g' := by
  have hloop : ∀ edge ∈ g.edges, edge.source ≠ edge.target := fun edge he heq =>
    hp.acyclic edge.source (.single ⟨edge, he, rfl, heq.symm⟩)
  refine ⟨hm.acyclic hp.acyclic h.nodup, h.wellFormed hp.wellFormed hloop hn, ?_,
    fun other ho hold => ?_, fun job hjob => ?_, fun first hf second hs hne => ?_⟩
  · exact hp.nextId.trans (h.nextId ▸ Nat.le_add_right _ _)
  · obtain ⟨old, houtline, hcase⟩ := h.exists_node ho
    have hid : old.id = other.id := id_of_outline houtline
    rcases hcase with ⟨hin, -⟩ | hnew
    · exact houtline ▸ hp.waiting old hin (hid ▸ hold)
    · have hfresh := h.fresh (List.mem_map_of_mem hnew)
      exact absurd (hid ▸ hold) (Nat.not_lt.mpr (hp.nextId.trans hfresh))
  · exact hp.becomes_replicated hplain hnames hn hlt h hserial hmade hm hseveral hjob
  · exact hp.precedes_replicated hplain hnames hn hlt h hm hseveral hf hs hne

end Replacing

/-- Whatever the turn of a node comes to, the graph goes on to be as it should. -/
theorem Preceding.splitNode {built g g' : Graph} {id : NodeId} {u : Unit}
    (hp : Preceding built g) (hplain : ∀ node ∈ built.nodes, ¬ node.isReplica)
    (hnames : (built.nodes.map (·.spec.id)).Nodup) (hlt : id < built.nextId)
    (h : splitNode id g = .ok u g') : Preceding built g' := by
  cases turned_of_splitNode h with
  | absent _ => exact hp
  | idle _ hf _ => exact hp.retains ((moves_drivers id).of_ok hf).retains
  | collapsed _ hf _ hc =>
    exact hp.retains (trans_of Retains ((moves_drivers id).of_ok hf).retains
      ((moves_collapse _ _).of_ok hc))
  | @replaced node plan t _ count hn hf hsize hne hr =>
    obtain ⟨hin, rfl⟩ := id_of_node? hn
    obtain ⟨serial, added, parts, hserial, hmade, hreplicated⟩ := replicated_of_replicate
      (hp.wellFormed.below _ (List.mem_map_of_mem hin)) (traced_of_drivers hf)
      ((moves_drivers _).of_ok hf).retains hr
    obtain rfl : count = added.length := by simpa using hmade.length_eq
    have hseveral := several_of_drivers hf hsize hne
    have hm := hreplicated.multiplied hp.wellFormed hsize
      (List.length_pos_iff.mp (Nat.zero_lt_of_lt hseveral))
    exact hp.replicated hplain hnames hin hlt hreplicated hserial hmade hm hseveral

/-- A graph as it is built, in which nothing was repeated yet. -/
theorem preceding_of_build {pipeline : Pipeline} {built : Graph}
    (hbuild : build pipeline = .ok built) (hnames : (built.nodes.map (·.spec.id)).Nodup)
    (ha : Acyclic built.edges) :
    Preceding built built := by
  have hw := (build_spec hbuild).2.1
  have hcopies : ∀ node ∈ built.nodes, built.copiesOf node = [node.outline] := fun node hn => by
    rw [copiesOf, filter_eq_singleton_of_nodup hnames hn, List.map_singleton]
  refine ⟨ha, hw, le_rfl, fun node hn _ => List.mem_map_of_mem hn,
    fun node hn => .kept (hcopies node hn), fun first hf second hs _ => ?_⟩
  simp [hcopies first hf, hcopies second hs, Node.outline]

/-- When all nodes of a pipeline have had their turns. -/
theorem preceding_of_split {pipeline : Pipeline} {built repeated : Graph} {u : Unit}
    (hbuild : build pipeline = .ok built) (h : split built = .ok u repeated) :
    Preceding built repeated := by
  obtain ⟨hall, hw, -, hjobs⟩ := build_spec hbuild
  have hnames : (built.nodes.map (·.spec.id)).Nodup := by
    rw [← (specs_of_ofJob hall).1, List.map_map] at hjobs
    exact hjobs
  obtain ⟨order, horder, h⟩ := split_eq_ok h
  obtain ⟨-, -, hsubset⟩ := ordered_of_topologicalOrder hw.closed horder
  refine forM_keeps (fun node hn _ _ _ ht hstep => ?_)
    (preceding_of_build hbuild hnames (rising_of_topologicalOrder hw.closed horder).acyclic) h
  exact ht.splitNode (fun node hn => (nodes_of_build hbuild node hn).2.2.2) hnames
    (hw.below _ (List.mem_map_of_mem (hsubset hn))) hstep

/-- Repeating the nodes of a pipeline keeps what comes before what: of two of them, one came before
the other just if something that was made from it comes before something made from the other. And a
node either stays or becomes several repetitions, that come before each other just if they were to
wait for each other, in their order. -/
theorem precedes_iff_of_split {pipeline : Pipeline} {built repeated : Graph} {u : Unit}
    (hbuild : build pipeline = .ok built) (h : split built = .ok u repeated) :
    (∀ first ∈ built.nodes, ∀ second ∈ built.nodes, first ≠ second →
      (Reaches built.edges first.id second.id ↔ ∃ m ∈ repeated.copiesOf first,
        ∃ n ∈ repeated.copiesOf second, Reaches repeated.edges m.id n.id)) ∧
    ∀ node ∈ built.nodes, Becomes repeated node := by
  obtain ⟨hall, hw, -, hjobs⟩ := build_spec hbuild
  have hplain : ∀ node ∈ built.nodes, ¬ node.isReplica := fun node hn =>
    (nodes_of_build hbuild node hn).2.2.2
  have hnames : (built.nodes.map (·.spec.id)).Nodup := by
    rw [← (specs_of_ofJob hall).1, List.map_map] at hjobs
    exact hjobs
  obtain ⟨order, horder, h⟩ := split_eq_ok h
  obtain ⟨-, -, hsubset⟩ := ordered_of_topologicalOrder hw.closed horder
  have hstart := preceding_of_build hbuild hnames
    (rising_of_topologicalOrder hw.closed horder).acyclic
  have hend : Preceding built repeated := forM_keeps (fun node hn _ _ _ ht hstep =>
    ht.splitNode hplain hnames (hw.below _ (List.mem_map_of_mem (hsubset hn))) hstep) hstart h
  exact ⟨hend.precedes, hend.becomes⟩

/-- What is found about a pipeline by building its graph and repeating the nodes. -/
theorem exists_split (pipeline : Pipeline) (P : Graph → Graph → Prop)
    [∀ built repeated, Decidable (P built repeated)]
    (h : (match build pipeline with
      | .error _ => false
      | .ok built => match split built with
        | .ok _ repeated => decide (P built repeated)
        | .error _ _ => false) = true) :
    ∃ built repeated, build pipeline = .ok built ∧ split built = .ok () repeated ∧
      P built repeated := by
  split at h
  next => cases h
  next built hbuild =>
    split at h
    next _ repeated hsplit => exact ⟨built, repeated, hbuild, hsplit, of_decide_eq_true h⟩
    next => cases h

/-- A book of two parts that are written one after another, printed side by side, and bound. -/
def press : Pipeline where
  jobs := [
    { id := "write"
      parameters := [{ name := "part", expandMode := .serial },
        { name := "text", isOutput := true }]
      configuration := .ofList [("part", .list [.str "head", .str "tail"]),
        ("text", .str "$\x7bpart\x7d.txt")] },
    { id := "print"
      parameters := [{ name := "page" }]
      configuration := .ofList [("page", .str "$\x7bwrite.text\x7d")] },
    { id := "bind", after := ["print"] }]

/-- The press is built and two of its nodes are repeated, one for parts that wait for each other and
one for pages that do not, and what came before what still does. -/
theorem precedes_in_press : ∃ built repeated, build press = .ok built ∧
    split built = .ok () repeated ∧
    repeated.nodes.map (·.name) =
      ["bind", "write_seq_0", "write_seq_1", "print_split_0", "print_split_1"] ∧
    (∀ first ∈ built.nodes, ∀ second ∈ built.nodes, first ≠ second →
      (Reaches built.edges first.id second.id ↔ ∃ m ∈ repeated.copiesOf first,
        ∃ n ∈ repeated.copiesOf second, Reaches repeated.edges m.id n.id)) ∧
    ∀ node ∈ built.nodes, Becomes repeated node := by
  obtain ⟨built, repeated, hbuild, hsplit, hnodes⟩ := exists_split press
    (fun _ repeated => repeated.nodes.map (·.name) =
      ["bind", "write_seq_0", "write_seq_1", "print_split_0", "print_split_1"]) (by decide +kernel)
  exact ⟨built, repeated, hbuild, hsplit, hnodes, precedes_iff_of_split hbuild hsplit⟩

end Graph

end Pipework
