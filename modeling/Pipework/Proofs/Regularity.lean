import Pipework.Proofs.Depth
import Pipework.Proofs.Jobs
import Pipework.Proofs.Lookups

/-!
# Pipelines that are refused for their structure

The structure of a pipeline is checked before its graph is built. Nothing is found exactly if jobs have
names, different ones, and come after jobs that there are, in the pipeline and in those inside its jobs.
So when nodes are put into the graph, every job that another one comes after is there. The pipelines
inside jobs are looked at again much later, with other values, after nodes have been repeated and others
have come in their place. But nodes are always of jobs whose pipelines passed the first check, and values
do not count for it, so none of them is refused then.
-/

namespace Pipework

open Step

/-- The jobs of a pipeline have names, different ones, and come after jobs of the same pipeline. -/
structure Pipeline.Regular (pipeline : Pipeline) : Prop where
  /-- Each job has a name. -/
  named : ∀ job ∈ pipeline.jobs, job.id ≠ ""
  /-- No two jobs have the same. -/
  distinct : (pipeline.jobs.map (·.id)).Nodup
  /-- What a job comes after is the name of a job. -/
  follows : ∀ job ∈ pipeline.jobs, ∀ after ∈ job.after, ∃ other ∈ pipeline.jobs, other.id = after

/-- So it is in a pipeline and in the pipelines inside its jobs, however deep. -/
inductive Pipeline.RegularThroughout : Pipeline → Prop
  | intro {pipeline : Pipeline} (regular : pipeline.Regular)
      (nested : ∀ job ∈ pipeline.jobs, ∀ nested ∈ job.nested?, RegularThroughout nested) :
      RegularThroughout pipeline

/-- The pipeline inside a job is regular, however deep. -/
def Job.RegularInside (job : Job) : Prop :=
  ∀ nested ∈ job.nested?, Pipeline.RegularThroughout nested

/-- What makes the pipelines inside a job regular does so for the jobs in them. -/
theorem Job.descends_regularInside : Job.Descends Job.RegularInside := by
  intro job hjob nested hnested inner hinner
  cases hjob nested hnested with
  | intro _ hinside => exact hinside inner hinner

/-- Values do not count. -/
theorem Pipeline.RegularThroughout.overlay {pipeline : Pipeline} (h : pipeline.RegularThroughout)
    (settings : Settings) : Pipeline.RegularThroughout
      { pipeline with configuration := pipeline.configuration.overlay settings } := by
  cases h with
  | intro hregular hinside =>
    exact .intro ⟨hregular.named, hregular.distinct, hregular.follows⟩ hinside

/-! ### The check of the structure -/

namespace Structure

/-- Nothing is found about what a job comes after if there are such jobs. -/
theorem afterFindings_eq_nil {names : List String} {job : String} {after : List String} :
    afterFindings names job after = [] ↔ ∀ id ∈ after, id ∈ names := by
  simp [afterFindings]

/-- Nothing is found about the pipeline inside a job if nothing is found in it. -/
theorem nestedFindings_eq_nil {nested? : Option Pipeline} :
    nestedFindings nested? = [] ↔ ∀ nested ∈ nested?, findings nested = [] := by
  cases nested? <;> simp [nestedFindings]

/-- Nothing is found about jobs if nothing is found about each of them. -/
theorem jobsFindings_eq_nil {names : List String} {jobs : List Job} :
    jobsFindings names jobs = [] ↔
      ∀ job ∈ jobs, (∀ id ∈ job.after, id ∈ names) ∧ ∀ nested ∈ job.nested?, findings nested = [] := by
  induction jobs with
  | nil => simp [jobsFindings]
  | cons job jobs ih =>
    obtain ⟨id, _, _, after, _, nested?⟩ := job
    rw [jobsFindings, List.append_eq_nil_iff, List.append_eq_nil_iff, ih, afterFindings_eq_nil,
      nestedFindings_eq_nil, List.forall_mem_cons]

/-- One level of the check. -/
theorem findings_eq_nil {pipeline : Pipeline} : findings pipeline = [] ↔ pipeline.Regular ∧
    ∀ job ∈ pipeline.jobs, ∀ nested ∈ job.nested?, findings nested = [] := by
  obtain ⟨configuration, parameters, jobs⟩ := pipeline
  rw [findings, List.append_eq_nil_iff, nameFindings_eq_nil, jobsFindings_eq_nil]
  simp only [List.mem_map, forall_exists_index, and_imp, forall_apply_eq_imp_iff₂,
    List.not_mem_nil, not_false_eq_true, implies_true, and_true]
  constructor
  · rintro ⟨⟨hnamed, hnodup⟩, hjobs⟩
    exact ⟨⟨hnamed, hnodup, fun job hj => (hjobs job hj).1⟩, fun job hj => (hjobs job hj).2⟩
  · rintro ⟨⟨hnamed, hnodup, hfollows⟩, hnested⟩
    exact ⟨⟨hnamed, hnodup⟩, fun job hj => ⟨hfollows job hj, hnested job hj⟩⟩

/-- Nothing is found just about pipelines that are regular throughout. -/
theorem findings_eq_nil_iff {pipeline : Pipeline} :
    findings pipeline = [] ↔ pipeline.RegularThroughout := by
  constructor
  · induction hdepth : jobsDepth pipeline.jobs using Nat.strong_induction_on generalizing pipeline with
    | _ depth ih =>
      intro h
      obtain ⟨hregular, hinside⟩ := findings_eq_nil.mp h
      refine .intro hregular fun job hj nested hnested => ?_
      have hlt : jobsDepth nested.jobs < depth :=
        hdepth ▸ (jobsDepth_lt hnested).trans_le (depth_le_jobsDepth hj)
      exact ih _ hlt rfl (hinside job hj nested hnested)
  · intro h
    induction h with
    | intro hregular _ ih => exact findings_eq_nil.mpr ⟨hregular, ih⟩

end Structure

/-- The pipeline is refused for its structure. -/
def GraphError.IsRefusal : GraphError → Prop
  | .invalidPipeline _ | .unknownJob _ _ => True
  | _ => False

/-- What may come up whenever values are resolved does not refuse a pipeline. -/
theorem GraphError.IsOrdinary.not_isRefusal {error : GraphError} (h : error.IsOrdinary) :
    ¬ error.IsRefusal := by
  cases error <;> simp_all [IsOrdinary, IsRefusal]

namespace Graph

/-! ### Building a graph -/

/-- The edges for the order to a job are made if there are the jobs that it comes after. -/
theorem ordinary_afterEdges {g : Graph} {job : Job} (h : ∀ after ∈ job.after, (g.find? after).isSome)
    (target : NodeId) : FailsAt GraphError.IsOrdinary (afterEdges job target) g := by
  refine FailsAt.forM (R := AddsEdges) (fun after _ => moves_afterEdge job target after)
    fun after hafter t ht => FailsAt.get_bind ?_
  have hfound : t.find? after = g.find? after := by rw [find?, find?, ht.nodes]
  obtain ⟨source, hsource⟩ := Option.isSome_iff_exists.mp (h after hafter)
  rw [hfound, hsource]
  exact FailsFor.modify _ t

/-- As there is a node for each job before edges are drawn, all jobs that others come after are found. -/
theorem ordinary_construct {pipeline : Pipeline} (h : pipeline.Regular) :
    FailsAt GraphError.IsOrdinary (construct pipeline) (initial pipeline) := by
  refine (ordinary_addGlobals pipeline).here.bind fun _ g₁ hglobals => ?_
  refine (FailsFor.mapM fun _ _ => ordinary_addNode _).here.bind fun ids g₂ hnodes => ?_
  obtain ⟨tree, rfl⟩ := (moves_addGlobals pipeline).of_ok hglobals
  have hseed := seeded_of_addNodes hnodes
  refine FailsAt.bind (FailsAt.forM (R := AddsEdges)
    (fun entry _ => moves_afterEdges entry.1 entry.2) fun entry hentry t ht => ?_)
    fun _ g₃ _ => (FailsFor.forM fun id _ => ordinary_findDependencies id) g₃
  refine ordinary_afterEdges (fun after hafter => ?_) entry.2
  obtain ⟨other, ho, rfl⟩ := h.follows entry.1 (List.of_mem_zip hentry).1 after hafter
  obtain ⟨node, hn, heq⟩ := exists_of_mem_left hseed.nodes ho
  exact List.find?_isSome.mpr ⟨node, ht.nodes ▸ hn, by rw [heq]; exact beq_self_eq_true other.id⟩

/-- A pipeline is refused for what is found about it. If nothing is, its values may still not let a graph
be built. -/
theorem build_eq_error {pipeline : Pipeline} {e : GraphError} (h : build pipeline = .error e) :
    (¬ pipeline.RegularThroughout ∧ e = .invalidPipeline (Structure.findings pipeline)) ∨
      pipeline.RegularThroughout ∧ e.IsOrdinary := by
  rw [← Structure.findings_eq_nil_iff]
  rw [build] at h
  cases hfindings : Structure.findings pipeline with
  | nil =>
    simp only [hfindings] at h
    cases hconstruct : construct pipeline (initial pipeline) with
    | ok u graph => simp [hconstruct] at h
    | error cause graph =>
      simp only [hconstruct] at h
      obtain rfl := Except.error.inj h
      have hregular := (Structure.findings_eq_nil.mp hfindings).1
      exact .inr ⟨rfl, ordinary_construct hregular _ _ hconstruct⟩
  | cons finding findings =>
    simp only [hfindings] at h
    exact .inl ⟨List.cons_ne_nil finding findings, (Except.error.inj h).symm⟩

/-- A pipeline whose graph was built is regular throughout. -/
theorem regularThroughout_of_build {pipeline : Pipeline} {g : Graph} (h : build pipeline = .ok g) :
    pipeline.RegularThroughout := by
  obtain ⟨_, _, _, _, hfindings, -⟩ := build_eq_ok h
  exact Structure.findings_eq_nil_iff.mp hfindings

/-! ### Preparing it -/

/-- The step does not refuse a pipeline, if it starts in this graph. -/
abbrev AcceptsIn {α : Type} (x : GraphM α) (g : Graph) : Prop := FailsAt (¬ GraphError.IsRefusal ·) x g

/-- Repeating nodes and handing on values has nothing to do with the structure. -/
theorem accepts_spread : FailsFor (¬ GraphError.IsRefusal ·) spread := by
  have horder : ∀ g : Graph, FailsFor (¬ GraphError.IsRefusal ·) (ofExcept g.topologicalOrder) :=
    failsFor_topologicalOrder fun _ => id
  have hsplit : FailsFor (¬ GraphError.IsRefusal ·) split :=
    FailsFor.get.bind fun g => (horder g).bind fun _ =>
      .forM fun node _ => (ordinary_splitNode node.id).mono fun _ h => h.not_isRefusal
  refine hsplit.bind fun _ => FailsFor.get.bind fun g => (horder g).bind
    fun _ => .forM fun place _ => ?_
  intro t e t' h
  rcases isOrdinary_or_of_applyEdge h with hordinary | ⟨⟨job, parameter, rfl⟩, -⟩
  · exact hordinary.not_isRefusal
  · exact id

section Expanding

variable {prepare : GraphM Unit}
  (hprepare : ∀ g, AllJobs Job.RegularInside g → AcceptsIn prepare g)

include hprepare

/-- A node is not kept from being replaced for the structure of the pipeline inside it, as that is
regular throughout. -/
theorem accepts_expandNode {g : Graph} (hg : AllJobs Job.RegularInside g) (id : NodeId) :
    AcceptsIn (expandNode prepare id) g := by
  intro e g' h
  rcases failure_of_expandNode h with hordinary | ⟨node, nested, settings, t, hnode, hnested, -, h⟩
  · exact hordinary.not_isRefusal
  have hregular := (hg node (List.mem_of_find?_eq_some hnode) nested hnested).overlay settings
  obtain ⟨-, hbuild | ⟨built, left, hbuild, hrun⟩⟩ := prepareInner_eq_error.mp h
  · rcases build_eq_error hbuild with ⟨hnot, -⟩ | ⟨-, hordinary⟩
    · exact absurd hregular hnot
    · exact hordinary.not_isRefusal
  · cases hregular with
    | intro _ hinside => exact hprepare built (allJobs_of_build hinside hbuild) e left hrun

/-- The stages of a preparation refuse no pipeline if the pipelines inside jobs are regular. -/
theorem accepts_prepareStages (hkeeps : Moves (Keeps (AllJobs Job.RegularInside)) prepare) {g : Graph}
    (hg : AllJobs Job.RegularInside g) (options : CompileOptions) :
    AcceptsIn (prepareStages options prepare) g := by
  intro e g' h
  rcases failure_of_prepareStages h with h | hordinary | ⟨t, hspread, -, h⟩
  · exact accepts_spread g e g' h
  · exact hordinary.not_isRefusal
  · have ht := allJobs_spread.of_ok hspread hg
    exact FailsAt.forM (R := Keeps (AllJobs Job.RegularInside))
      (fun id _ => allJobs_expandNode Job.descends_regularInside hkeeps id)
      (fun id _ t' ht' => accepts_expandNode hprepare (ht' ht) id) e g' h

end Expanding

/-- At any depth preparation refuses no pipeline if the pipelines inside jobs are regular. -/
theorem accepts_prepareNested (depth : Nat) {g : Graph} (hg : AllJobs Job.RegularInside g) :
    AcceptsIn (prepareNested depth) g := by
  induction depth generalizing g with
  | zero => exact (FailsFor.throw (P := (¬ GraphError.IsRefusal ·)) id).here
  | succ depth ih =>
    rw [prepareNested_succ]
    exact accepts_prepareStages (fun _ => ih)
      (allJobs_prepareNested Job.descends_regularInside depth) hg {}

/-- No pipeline is refused when a graph is prepared, whatever was asked of it before. -/
theorem accepts_prepare {pipeline : Pipeline} {g : Graph} (h : Reachable pipeline g)
    (options : CompileOptions) : AcceptsIn (prepare options) g := by
  have hpipeline : pipeline.RegularThroughout := by
    induction h with
    | built hbuild => exact regularThroughout_of_build hbuild
    | step _ _ ih => exact ih
  have hjobs : AllJobs Job.RegularInside g := by
    cases hpipeline with
    | intro _ hinside => exact h.allJobs Job.descends_regularInside hinside
  intro e g' he
  rw [prepare_eq] at he
  exact accepts_prepareStages (fun _ => accepts_prepareNested g.depth)
    (allJobs_prepareNested Job.descends_regularInside g.depth) hjobs options e g' he

/-- **Regularity.** The structure check finds nothing just about pipelines whose jobs have names,
different ones, and come after jobs of the same pipeline, throughout all pipelines inside them. Building
a graph fails for a finding just if there is one, and then with all of them, and never for a job that
comes after one that is not there. And once it is built, no preparation of it refuses a pipeline, with any
options and whatever was asked of the graph before. -/
theorem structure_checked {pipeline : Pipeline} :
    (Structure.findings pipeline = [] ↔ pipeline.RegularThroughout) ∧
    (∀ findings, build pipeline = .error (.invalidPipeline findings) ↔
      ¬ pipeline.RegularThroughout ∧ findings = Structure.findings pipeline) ∧
    (∀ job after, build pipeline ≠ .error (.unknownJob job after)) ∧
    ∀ graph, Reachable pipeline graph → ∀ options findings left,
      prepare options graph ≠ .error (.invalidPipeline findings) left := by
  refine ⟨Structure.findings_eq_nil_iff, fun findings => ⟨fun h => ?_, ?_⟩, fun job after h => ?_,
    fun graph hreach options findings left h => ?_⟩
  · rcases build_eq_error h with ⟨hnot, heq⟩ | ⟨-, hordinary⟩
    · exact ⟨hnot, GraphError.invalidPipeline.inj heq⟩
    · exact hordinary.elim
  · rintro ⟨hnot, rfl⟩
    rw [← Structure.findings_eq_nil_iff] at hnot
    rw [build]
    cases hfindings : Structure.findings pipeline with
    | nil => exact absurd hfindings hnot
    | cons finding findings => rfl
  · rcases build_eq_error h with ⟨-, heq⟩ | ⟨-, hordinary⟩
    · cases heq
    · exact hordinary.elim
  · exact accepts_prepare hreach options _ left h trivial

/-- A pipeline inside a job has two jobs of one name, one of which comes after a job outside. -/
def tangle : Pipeline where
  jobs := [
    { id := "fetch" },
    { id := "work", after := ["fetch"],
      nested? := some { jobs := [{ id := "sort" }, { id := "sort", after := ["fetch"] }] } }]

/-- The tangle inside a job is found when the graph is to be built. The knot is not one for the check: the
preparation that it makes fail refuses no pipeline, and neither does another one with what is left. -/
theorem knot_is_no_tangle :
    Structure.findings tangle = [.duplicateJobId "sort", .unknownAfter "sort" "fetch"] ∧
    ¬ tangle.RegularThroughout ∧
    build tangle = .error (.invalidPipeline (Structure.findings tangle)) ∧
    knot.RegularThroughout ∧ ∃ built e graph e' rest, build knot = .ok built ∧
      prepare {} built = .error e graph ∧ Reachable knot graph ∧ prepare {} graph = .error e' rest ∧
      ∀ findings, e ≠ .invalidPipeline findings ∧ e' ≠ .invalidPipeline findings := by
  have hfindings : Structure.findings tangle =
      [.duplicateJobId "sort", .unknownAfter "sort" "fetch"] := by decide +kernel
  have htangled : ¬ tangle.RegularThroughout := fun h => by
    rw [← (@structure_checked tangle).1, hfindings] at h
    cases h
  refine ⟨hfindings, htangled, (structure_checked.2.1 _).mpr ⟨htangled, rfl⟩,
    structure_checked.1.mp (by decide +kernel), ?_⟩
  obtain ⟨built, e, graph, e', rest, hbuild, hprepare, hreach, hrest⟩ := knot_fails_again
  have haccepts := (@structure_checked knot).2.2.2
  refine ⟨built, e, graph, e', rest, hbuild, hprepare, hreach, hrest, fun findings => ⟨?_, ?_⟩⟩
  · rintro rfl
    exact haccepts built (.built hbuild) {} findings graph hprepare
  · rintro rfl
    exact haccepts graph hreach {} findings rest hrest

end Graph

end Pipework
