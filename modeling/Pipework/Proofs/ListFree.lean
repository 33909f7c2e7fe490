import Pipework.Proofs.Adoption
import Pipework.Proofs.Alignment

/-!
# Nothing is repeated without a list

In a pipeline without lists all values are scalars, and stay scalars when they are found out and
handed on. So no list meets a parameter that takes a single value, and a node could only be repeated
for several edges into one parameter from one output of a job. No two edges are made for that as long as
the parameters of a job that refer to something have names of their own.
-/

namespace Pipework

open Step Resolve Value

/-- Being a scalar passes from values to what they resolve to. -/
theorem Value.hereditary_scalar : Value.Hereditary (·.isList = false) := fun _ h => {
  derive := fun _ _ _ _ hv hw => (FileField.shapes_derive hw).scalar hv
  value := fun id raw _ _ hraw hanswer hv =>
    isList_of_valueWith (h id raw hraw) (fun path _ => hanswer path) hv }

/-- There are no lists in the pipeline. -/
structure Pipeline.ListFree (pipeline : Pipeline) : Prop where
  /-- No value that is given or is a default is a list. -/
  values : pipeline.All (·.isList = false)
  /-- No parameter takes a list. -/
  parameters : ∀ job ∈ pipeline.jobs, ∀ parameter ∈ job.parameters, parameter.isList = false
  /-- Parameters of a job whose values have references have different names. -/
  apart : ∀ job ∈ pipeline.jobs, ((job.parameters.filter job.asks).map (·.name)).Nodup

/-- There are no lists in the pipeline and in the pipelines inside its jobs. -/
inductive Pipeline.ListFreeThroughout : Pipeline → Prop
  | intro {pipeline : Pipeline} (listFree : pipeline.ListFree)
      (nested : ∀ job ∈ pipeline.jobs, ∀ nested ∈ job.nested?, ListFreeThroughout nested) :
      ListFreeThroughout pipeline

/-- Where there are no lists, none holds a list. -/
theorem Pipeline.ListFreeThroughout.flat {pipeline : Pipeline} (h : pipeline.ListFreeThroughout) :
    pipeline.FlatThroughout := by
  induction h with
  | intro hfree _ ih =>
    exact .intro (Pipeline.flat_iff.mpr (hfree.values.mono fun _ => isFlat_of_scalar)) ih

/-- A pipeline stays so when scalars are laid over its own values. -/
theorem Pipeline.ListFreeThroughout.overlay {pipeline : Pipeline} (h : pipeline.ListFreeThroughout)
    {settings : Settings} (hsettings : ∀ entry ∈ settings.entries, entry.2.isList = false) :
    Pipeline.ListFreeThroughout
      { pipeline with configuration := pipeline.configuration.overlay settings } := by
  cases h with
  | intro hfree hnested =>
    exact .intro ⟨hfree.values.overlay hsettings, hfree.parameters, hfree.apart⟩ hnested

/-- Where no job has a pipeline inside, there is nothing further in that could be a list. -/
theorem Pipeline.ListFree.throughout {pipeline : Pipeline} (h : pipeline.ListFree)
    (hnested : ∀ job ∈ pipeline.jobs, job.nested? = none) : pipeline.ListFreeThroughout :=
  .intro h fun job hj nested hsome => by
    rw [hnested job hj] at hsome
    cases hsome

/-- The edge hands on a single value as a whole, if it hands on one. -/
def Edge.IsWhole (edge : Edge) : Prop := ∀ link, edge.kind = .data link →
  link.cardinality = .oneToOne ∧ link.splitIndex? = none ∧ link.value.isList = false

/-- An edge that hands on a whole value to one that takes it brings no list to a single value. -/
theorem Edge.IsWhole.firm {edge : Edge} (h : edge.IsWhole) : edge.Firm := by
  intro link hk hc
  rw [(h link hk).1] at hc
  cases hc

namespace Graph

/-- Without lists all edges hand on single values. -/
theorem whole_of_build {pipeline : Pipeline} {built : Graph} (hpipeline : pipeline.ListFree)
    (h : build pipeline = .ok built) : ∀ edge ∈ built.edges, edge.IsWhole := by
  have hstocked := stocked_of_build hpipeline.values hereditary_scalar h
  intro edge he link hk
  rcases referred_of_build h he with hafter |
    ⟨node, hn, start, -, parameter, hp, -, -, path, -, owner, v, howner, -, rfl⟩
  · rw [hafter] at hk
    cases hk
  obtain ⟨leaf, -, hat⟩ := Option.bind_eq_some_iff.mp howner
  obtain ⟨hin, hparameter⟩ := outputOwner?_spec hat
  have hone : ∀ node ∈ built.nodes, ∀ parameter ∈ node.spec.parameters, parameter.isList = false :=
    fun node hn => hpipeline.parameters _ (nodes_of_build h node hn).1
  have hvalue := hstocked _ he link hk
  obtain rfl := EdgeKind.data.inj hk
  refine ⟨?_, rfl, hvalue⟩
  rw [hone _ hin _ (List.mem_of_find?_eq_some hparameter), hone node hn parameter hp]
  rfl

section Turn

variable {g t : Graph} {id : NodeId} (hw : g.WellFormed) (hg : g.scope.All (·.isList = false))
  (hfirm : ∀ edge ∈ g.edges, edge.Firm)
  (hshort : ∀ property origin output, (g.strand id property origin output).length ≤ 1)

include hw hg hfirm hshort

/-- Where no list meets a single value, no value is a list, and no two edges into one parameter come
from one output, there is nothing to repeat a node for. -/
theorem sizes_of_drivers {plan : Drivers} (h : drivers id g = .ok plan t) :
    plan.sizes = [] ∧ SameButMemo g t := by
  obtain ⟨-, -, hstrands, -⟩ := strands_of_drivers hw h
  obtain ⟨found, u, node, lists, hfold, hnode, hlists, rfl⟩ := drivers_eq_ok h
  have hfound : u = g ∧ found.shares = [] := by
    refine foldlM_keeps (P := fun found t => t = g ∧ found.shares = []) ?_ ⟨rfl, rfl⟩ hfold
    rintro place - found t found' t' ⟨rfl, hnone⟩ hstep
    obtain ⟨edge, hedge, hnoted⟩ := noted_of_addDriver hstep
    have hthis := hfirm edge (List.mem_of_getElem? hedge)
    cases hnoted with
    | order _ | list _ _ | strand _ _ _ => exact ⟨rfl, hnone⟩
    | empty hk hc _ _ | shares hk hc _ _ => exact absurd hc (hthis _ hk)
  obtain ⟨rfl, hshares⟩ := hfound
  have hsame : SameButMemo u t := (moves_listDrivers _ _ _).of_ok hlists
  obtain ⟨-, rfl⟩ := id_of_node? hnode
  refine ⟨?_, hsame⟩
  have hno : lists = [] := List.eq_nil_iff_forall_not_mem.mpr fun entry hentry => by
    obtain ⟨leaf, -, -, hlookup⟩ := listDrivers_spec hnode hlists entry hentry
    exact nomatch (hsame.all hereditary_scalar hg).memory leaf _ hlookup
  have hnone : (found.strands.filter fun s => 1 < s.edges.length) = [] :=
    List.eq_nil_iff_forall_not_mem.mpr fun strand hstrand => by
      have hlong : 1 < strand.edges.length := of_decide_eq_true (List.mem_filter.mp hstrand).2
      rw [hstrands strand hstrand, length_placesWhere] at hlong
      exact Nat.not_le.mpr hlong (hshort _ _ _)
  simp [Drivers.sizes, hshares, hno, hnone]

/-- Its turn then changes nothing but what is remembered. -/
theorem same_of_splitNode {u : Unit} (h : splitNode id g = .ok u t) : SameButMemo g t := by
  have hnone : ∀ {plan t job count}, drivers id g = .ok plan t → plan.size? job ≠ .ok (some count) := by
    intro plan t job count hf hs
    rw [Drivers.size?, (sizes_of_drivers hw hg hfirm hshort hf).1] at hs
    cases hs
  cases turned_of_splitNode h with
  | absent _ => exact refl_of SameButMemo g
  | idle _ hf _ => exact (sizes_of_drivers hw hg hfirm hshort hf).2
  | collapsed _ hf hs _ | replaced _ hf hs _ _ => exact absurd hs (hnone hf)

end Turn

/-- Without lists no node is repeated. -/
theorem same_of_split {pipeline : Pipeline} {built repeated : Graph} {u : Unit}
    (hpipeline : pipeline.ListFree) (hbuild : build pipeline = .ok built)
    (hsplit : split built = .ok u repeated) : SameButMemo built repeated := by
  have hw := (build_spec hbuild).2.1
  have hall := all_build hpipeline.values hereditary_scalar hbuild
  have hwhole := whole_of_build hpipeline hbuild
  obtain ⟨order, horder, hturns⟩ := split_eq_ok hsplit
  have haligned := aligned_of_build hpipeline.apart hbuild horder
  have hids := (ordered_of_topologicalOrder hw.closed horder).2.1
  have hsingle : ∀ job, (built.idsOf job).length ≤ 1 := by
    intro job
    cases hof : built.idsOf job with
    | nil => exact Nat.zero_le 1
    | cons id others =>
      obtain ⟨node, hn, rfl, -⟩ := mem_idsOf.mp (hof ▸ List.mem_cons_self)
      rw [← hof, haligned.single node hn ((hids _).mpr (List.mem_map_of_mem hn))]
      rfl
  refine forM_keeps (P := SameButMemo built) (fun node hn t v t' ht hstep => ?_)
    (refl_of SameButMemo built) hturns
  have hmem : node.id ∈ order.map (·.id) := List.mem_map_of_mem hn
  have hshort : ∀ property origin output, (built.strand node.id property origin output).length ≤ 1 := by
    intro property origin output
    rw [← List.length_map (f := Edge.source)]
    rcases haligned.strands node.id hmem property origin output with hnone | hall
    · rw [hnone]
      exact Nat.zero_le 1
    · rw [hall]
      exact hsingle origin
  refine trans_of SameButMemo ht (same_of_splitNode (ht.sameOutline.wellFormed hw)
    (ht.all hereditary_scalar hall) (fun edge he => ?_) ?_ hstep)
  · exact (hwhole edge (ht.edges ▸ he)).firm
  · obtain ⟨memo, -, rfl⟩ := ht
    exact hshort

/-- A graph without lists of which no node is a repetition. -/
structure Unrepeated (g : Graph) : Prop where
  /-- All values are scalars. -/
  scalars : g.scope.All (·.isList = false)
  /-- No node is a repetition. -/
  whole : ∀ node ∈ g.nodes, node.isReplica = false

/-- A whole single value is handed on. -/
theorem Handed.scalars {edge : Edge} {g g' : Graph} (hm : g.Mirrored)
    (hg : g.scope.All (·.isList = false)) (hwhole : edge.IsWhole) (h : Handed edge g g') :
    g'.scope.All (·.isList = false) := by
  cases h with
  | order _ => exact hg
  | @value link current source target value t _ hk hv _ _ hmerge hset =>
    obtain ⟨hone, hplace, hspare⟩ := hwhole link hk
    have hsame : SameButMemo g t := (moves_propertyValue _ _).of_ok hv
    have hcurrent : (current.getD link.value).isList = false := by
      cases current with
      | none => exact hspare
      | some v => exact all_of_propertyValue hereditary_scalar hg hv v rfl
    refine all_of_setNodeValue (hsame.inStep hm).1 (hsame.all hereditary_scalar hg) ?_ hset
    have hfill := (Merge.filled_or_gathered hmerge).resolve_right (by simp [hone])
    refine (Merge.shapes_fill hfill).scalar ?_
    rw [Merge.pick_of_whole hplace]
    exact (shapes_located source target link _).scalar hcurrent

/-- Before nodes are replaced by those of their pipelines, there is one node for each job. -/
theorem unrepeated_of_spread {pipeline : Pipeline} {built filled : Graph} {u : Unit}
    (hpipeline : pipeline.ListFree) (hbuild : build pipeline = .ok built)
    (h : spread built = .ok u filled) :
    filled.Unrepeated ∧ filled.nodes.map (·.name) = pipeline.jobs.map (·.id) := by
  obtain ⟨_, repeated, hsplit, hconfigure⟩ := bind_eq_ok.mp h
  have hsame := same_of_split hpipeline hbuild hsplit
  have hwhole := whole_of_build hpipeline hbuild
  obtain ⟨hall, hw, -⟩ := build_spec hbuild
  obtain ⟨hspecs, hnames⟩ := specs_of_ofJob hall
  have houtline : SameOutline built filled :=
    trans_of SameOutline hsame.sameOutline (moves_configure.of_ok hconfigure)
  refine ⟨⟨?_, fun node hn => ?_⟩, ?_⟩
  · obtain ⟨places, -, hrun⟩ := configure_eq_ok (hsame.sameOutline.wellFormed hw) hconfigure
    refine (forM_keeps (P := fun t : Graph => t.edges = built.edges ∧ t.Mirrored ∧
      t.scope.All (·.isList = false)) (fun place _ t v t' ht hstep => ?_) ⟨hsame.edges,
        (hsame.inStep (mirrored_build hbuild)).1, hsame.all hereditary_scalar
          (all_build hpipeline.values hereditary_scalar hbuild)⟩ hrun).2.2
    obtain ⟨hedges, hm, hscalars⟩ := ht
    obtain ⟨edge, hedge, hhanded⟩ := handed_of_applyEdge hstep
    exact ⟨hhanded.edges.trans hedges, (hhanded.inStep hm).1,
      hhanded.scalars hm hscalars (hwhole edge (hedges ▸ List.mem_of_getElem? hedge))⟩
  · have hflag : node.isReplica ∈ built.nodes.map (·.isReplica) :=
      houtline.map_nodes Node.isReplica (fun _ => rfl) ▸ List.mem_map_of_mem hn
    obtain ⟨old, hold, heq⟩ := List.mem_map.mp hflag
    obtain ⟨job, -, hjob⟩ := exists_of_mem_right hall hold
    rw [← heq, hjob]
    rfl
  · rw [houtline.map_nodes Node.name fun _ => rfl, ← hspecs, List.map_map]
    exact List.map_congr_left fun node hn => (hnames node hn).2

/-- Graphs of pipelines without lists come out without repetitions. -/
def PreparesUnrepeated (prepare : GraphM Unit) : Prop :=
  ∀ (pipeline : Pipeline) (built prepared : Graph) (u : Unit), pipeline.ListFreeThroughout →
    build pipeline = .ok built → prepare built = .ok u prepared → prepared.Unrepeated

section Expansion

variable {prepare : GraphM Unit} {filled g g' : Graph} {id : NodeId} {u : Unit}

/-- A node is replaced by those of its pipeline, none of which is a repetition. -/
theorem Unrepeated.expandNode (h : g.Unrepeated) (hg : Unfolding filled g)
    (hfinishes : Finishes prepare) (hprepare : PreparesUnrepeated prepare) (hid : id < filled.nextId)
    (hnested : ∀ owner ∈ filled.nodes, ∀ nested ∈ owner.spec.nested?,
      Pipeline.ListFreeThroughout nested)
    (hstep : expandNode prepare id g = .ok u g') : g'.Unrepeated := by
  cases expands_of_expandNode hstep with
  | plain _ _ => exact h
  | @replaced owner nested settings built inner t t' more _ _ hn hsome hsettings hbuild hinner hadopt
    hbetween =>
    obtain ⟨hin, rfl⟩ := id_of_node? hn
    have hread : SameButMemo g t := (moves_configuration _).of_ok hsettings
    have hfree := (hnested owner (hg.older owner hin hid) nested hsome).overlay
      (all_of_configuration hereditary_scalar h.scalars hg.unresolved hsettings)
    have hfinished := hfinishes _ _ _ _ hfree.flat hbuild hinner
    have hunrepeated := hprepare _ _ _ _ hfree hbuild hinner
    have hlast : SameButMemo t' more := (moves_adoptEdges _ _).of_ok hbetween
    have ht' : t'.scope.All (·.isList = false) := all_of_adoptNodes hfinished.settled
      hunrepeated.scalars (hread.inStep hg.mirrored).1 (hread.all hereditary_scalar h.scalars) hadopt
    have hwhole : ∀ node ∈ t'.nodes, node.isReplica = false := by
      refine mapM_keeps (P := fun s : Graph => ∀ node ∈ s.nodes, node.isReplica = false)
        (fun old hold s handle s' hs hstep => ?_) ?_ hadopt
      · obtain ⟨id, _, hadd, hstep⟩ := bind_eq_ok.mp hstep
        obtain ⟨-, rfl⟩ := pure_eq_ok.mp hstep
        obtain ⟨-, -, scope, rfl⟩ := adds_of_addNode hadd
        intro node hn
        rcases List.mem_append.mp hn with hn | hn
        · exact hs node hn
        · rw [List.mem_singleton.mp hn]
          exact hunrepeated.whole old hold
      · obtain ⟨memo, -, rfl⟩ := hread
        exact h.whole
    refine ⟨(hlast.all hereditary_scalar ht' : more.scope.All _), fun node hn => ?_⟩
    obtain ⟨memo, -, rfl⟩ := hlast
    exact hwhole node (List.mem_of_mem_filter hn)

/-- Having nodes keep what their values resolve to repeats none. -/
theorem unrepeated_of_finalize (hg : g.Unrepeated) (h : finalize g = .ok u g') : g'.Unrepeated := by
  refine ⟨all_of_finalize hereditary_scalar hg.scalars h, fun node hn => ?_⟩
  have hflag : node.isReplica ∈ g.nodes.map (·.isReplica) :=
    (moves_finalize.of_ok h).map_nodes Node.isReplica (fun _ => rfl) ▸ List.mem_map_of_mem hn
  obtain ⟨old, hold, heq⟩ := List.mem_map.mp hflag
  exact heq ▸ hg.whole old hold

end Expansion

/-- The stages of a preparation repeat nothing, if those of pipelines inside jobs do not. -/
theorem preparesUnrepeated_prepareStages {options : CompileOptions} {prepare : GraphM Unit}
    (hfinishes : Finishes prepare) (hprepare : PreparesUnrepeated prepare) :
    PreparesUnrepeated (prepareStages options prepare) := by
  intro pipeline built prepared u hpipeline hbuild h
  rw [prepareStages_eq] at h
  obtain ⟨_, filled, hspread, h⟩ := bind_eq_ok.mp h
  obtain ⟨_, expanded, hexpand, hfinalize⟩ := bind_eq_ok.mp h
  obtain ⟨hunfolding, -, hids⟩ := unfolding_of_spread hpipeline.flat hbuild hspread
  obtain ⟨ho, -⟩ := spread_spec hbuild hspread
  cases hpipeline with
  | intro hfree hnested =>
    obtain ⟨hfilled, -⟩ := unrepeated_of_spread hfree hbuild hspread
    have hinside : ∀ owner ∈ filled.nodes, ∀ nested ∈ owner.spec.nested?,
        Pipeline.ListFreeThroughout nested := fun owner howner => hnested _ (ho.specs owner howner)
    refine unrepeated_of_finalize ?_ hfinalize
    have hcase := expandWithin_eq_ok hexpand
    split at hcase
    · refine (forM_keeps (P := fun t => Unfolding filled t ∧ t.Unrepeated)
        (fun id hid t v t' ht hstep => ⟨?_, ?_⟩) ⟨hunfolding, hfilled⟩ hcase).2
      · exact ht.1.step hfinishes (hids id hid) (fun owner howner nested hsome =>
          (hinside owner howner nested hsome).flat) hstep
      · exact ht.2.expandNode ht.1 hfinishes hprepare (hids id hid) hinside hstep
    · exact hcase ▸ hfilled

/-- At any depth preparation repeats nothing where there are no lists. -/
theorem preparesUnrepeated_prepareNested (depth : Nat) : PreparesUnrepeated (prepareNested depth) := by
  induction depth with
  | zero => exact fun _ _ _ _ _ _ h => absurd h throw_ne_ok
  | succ depth ih =>
    rw [prepareNested_succ]
    exact preparesUnrepeated_prepareStages (finishes_prepareNested depth) ih

end Graph

open Pipework.Graph

/-- **Nothing is repeated without a list.** In a graph that was prepared from a pipeline in which, at
any depth, no value is a list and no parameter takes one, no node is a repetition, provided that
parameters of a job whose values have references have different names. If no job has a pipeline of its
own, the nodes have just the names of the jobs. -/
theorem unrepeated_of_prepare {options : CompileOptions} {pipeline : Pipeline}
    {built prepared : Graph} {u : Unit} (hpipeline : pipeline.ListFreeThroughout)
    (hbuild : build pipeline = .ok built) (h : prepare options built = .ok u prepared) :
    (∀ node ∈ prepared.nodes, node.isReplica = false) ∧
      ((∀ job ∈ pipeline.jobs, job.nested? = none) →
        prepared.nodes.map (·.name) = pipeline.jobs.map (·.id)) := by
  rw [prepare_eq] at h
  refine ⟨(preparesUnrepeated_prepareStages (finishes_prepareNested _)
    (preparesUnrepeated_prepareNested _) _ _ _ _ hpipeline hbuild h).whole, fun hplain => ?_⟩
  rw [prepareStages_eq] at h
  obtain ⟨_, filled, hspread, h⟩ := bind_eq_ok.mp h
  obtain ⟨_, expanded, hexpand, hfinalize⟩ := bind_eq_ok.mp h
  obtain ⟨ho, -⟩ := spread_spec hbuild hspread
  cases hpipeline with
  | intro hfree _ =>
    have hnames := (unrepeated_of_spread hfree hbuild hspread).2
    have hno : filled.nestedIds = [] := by
      rw [nestedIds, List.filter_eq_nil_iff.mpr, List.map_nil]
      intro node hn
      rw [hplain _ (ho.specs node hn)]
      exact Bool.false_ne_true
    have hsame : expanded = filled := by
      have hcase := expandWithin_eq_ok hexpand
      split at hcase
      · rw [hno] at hcase
        exact (pure_eq_ok.mp hcase).2.symm
      · exact hcase
    rw [(moves_finalize.of_ok hfinalize).map_nodes Node.name fun _ => rfl, hsame, hnames]

/-- What is given is crushed and strained. -/
def crushing : Pipeline where
  jobs := [
    { id := "crush"
      parameters := [{ name := "pulp", isOutput := true }]
      configuration := .ofList [("pulp", .str "crushed $\x7bwhat\x7d")] },
    { id := "strain"
      parameters := [{ name := "pulp" }]
      configuration := .ofList [("pulp", .str "$\x7bcrush.pulp\x7d")] }]

/-- Apples are picked and pressed. -/
def pressing : Pipeline where
  jobs := [
    { id := "pick"
      parameters := [{ name := "fruit", isOutput := true }]
      configuration := .ofList [("fruit", .str "apple")] },
    { id := "press"
      parameters := [{ name := "what" }]
      configuration := .ofList [("what", .str "$\x7bpick.fruit\x7d")]
      nested? := some crushing }]

/-- Apples are picked, and each of two cups is to be filled with them. -/
def filling : Pipeline where
  jobs := [
    { id := "pick"
      parameters := [{ name := "fruit", isOutput := true }]
      configuration := .ofList [("fruit", .str "apple")] },
    { id := "fill"
      parameters := [{ name := "cup" }, { name := "bowl" }]
      configuration := .ofList [("cup", .str "$\x7bpick.fruit\x7d"),
        ("bowl", .str "$\x7bpick.fruit\x7d pie")] }]

theorem pressing_is_not_repeated :
    (pressing.ListFreeThroughout ∧ ∃ built prepared, build pressing = .ok built ∧
      prepare {} built = .ok () prepared ∧
      prepared.nodes.map (·.name) = ["pick", "press_crush", "press_strain"] ∧
      ∀ node ∈ prepared.nodes, node.isReplica = false) ∧
    (filling.ListFreeThroughout ∧ ∃ built prepared, build filling = .ok built ∧
      prepare {} built = .ok () prepared ∧ built.edges.length = 2 ∧
      (∀ node ∈ prepared.nodes, node.isReplica = false) ∧
      prepared.nodes.map (·.name) = filling.jobs.map (·.id)) := by
  have hpressing : pressing.ListFreeThroughout := by
    refine .intro ⟨⟨by decide, by decide, by decide, by decide⟩, by decide, by decide +kernel⟩ ?_
    intro job hj nested hsome
    rcases List.mem_cons.mp hj with rfl | hj
    · cases hsome
    · obtain rfl := List.mem_singleton.mp hj
      obtain rfl := Option.some.inj hsome
      exact Pipeline.ListFree.throughout
        ⟨⟨by decide, by decide, by decide, by decide⟩, by decide, by decide +kernel⟩ (by decide)
  have hfilling : filling.ListFreeThroughout := Pipeline.ListFree.throughout
    ⟨⟨by decide, by decide, by decide, by decide⟩, by decide, by decide +kernel⟩ (by decide)
  obtain ⟨built, -, prepared, hbuild, -, hprepare, hnames⟩ := exists_prepared {} pressing
    (fun _ _ prepared => prepared.nodes.map (·.name) = ["pick", "press_crush", "press_strain"])
    (by decide +kernel)
  obtain ⟨built', -, prepared', hbuild', -, hprepare', hedges⟩ := exists_prepared {} filling
    (fun built _ _ => built.edges.length = 2) (by decide +kernel)
  obtain ⟨hwhole, hids⟩ := unrepeated_of_prepare hfilling hbuild' hprepare'
  exact ⟨⟨hpressing, built, prepared, hbuild, hprepare, hnames,
      (unrepeated_of_prepare hpressing hbuild hprepare).1⟩,
    hfilling, built', prepared', hbuild', hprepare', hedges, hwhole, hids (by decide)⟩

/-- Apples are picked, and a cup is to be filled with them. It is named twice. -/
def refilling : Pipeline where
  jobs := [
    { id := "pick"
      parameters := [{ name := "fruit", isOutput := true }]
      configuration := .ofList [("fruit", .str "apple")] },
    { id := "fill"
      parameters := [{ name := "cup" }, { name := "cup" }]
      configuration := .ofList [("cup", .str "$\x7bpick.fruit\x7d")] }]

/-- For each of two parameters of one name an edge is made from the output that their value refers to.
These count as several values for the one key, so the job is repeated without a list anywhere. -/
theorem cup_is_filled_twice : refilling.All (·.isList = false) ∧
    (∀ job ∈ refilling.jobs, job.nested? = none ∧ ∀ p ∈ job.parameters, p.isList = false) ∧
    ∃ built repeated prepared, build refilling = .ok built ∧ split built = .ok () repeated ∧
      prepare {} built = .ok () prepared ∧
      prepared.nodes.map (·.name) = ["pick", "fill_split_0", "fill_split_1"] ∧
      prepared.nodes.map (·.isReplica) = [false, true, true] :=
  ⟨⟨by decide, by decide, by decide, by decide⟩, by decide,
    exists_prepared {} refilling _ (by decide +kernel)⟩

end Pipework
