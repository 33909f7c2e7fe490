import Pipework.Proofs.Turns

/-!
# How deep preparation goes

A graph is prepared with as many levels as pipelines lie in each other in it. More levels make no
difference. So the pipelines inside jobs are prepared as they are on their own, and what is said about
levels can be left out of what is said about preparation.
-/

namespace Pipework

open Step

/-- The pipeline inside a job is less deep than the job. -/
theorem jobsDepth_lt {job : Job} {nested : Pipeline} (h : job.nested? = some nested) :
    jobsDepth nested.jobs < job.depth := by
  obtain ⟨_, _, _, _, _, nested?⟩ := job
  obtain rfl : nested? = some nested := h
  rw [Job.depth, nestedDepth]
  exact Nat.lt_succ_self _

theorem depth_le_jobsDepth {jobs : List Job} {job : Job} (h : job ∈ jobs) :
    job.depth ≤ jobsDepth jobs := by
  induction jobs with
  | nil => cases h
  | cons first jobs ih =>
    rw [jobsDepth]
    rcases List.mem_cons.mp h with rfl | h
    · exact Nat.le_max_left _ _
    · exact (ih h).trans (Nat.le_max_right _ _)

theorem foldl_max_depth (jobs : List Job) (depth : Nat) :
    (jobs.map Job.depth).foldl max depth = max depth (jobsDepth jobs) := by
  induction jobs generalizing depth with
  | nil => exact (Nat.max_zero depth).symm
  | cons job jobs ih => rw [List.map_cons, List.foldl_cons, ih, jobsDepth, Nat.max_assoc]

namespace Graph

/-- A graph is as deep as the jobs that it is built of. -/
theorem depth_of_build {pipeline : Pipeline} {built : Graph} (h : build pipeline = .ok built) :
    built.depth = jobsDepth pipeline.jobs := by
  obtain ⟨hall, -⟩ := build_spec h
  have hspecs : built.nodes.map (·.spec.depth) = pipeline.jobs.map Job.depth := by
    rw [← (specs_of_ofJob hall).1, List.map_map]
    rfl
  rw [depth, hspecs, foldl_max_depth, Nat.zero_max]

section Congruence

variable {prepare prepare' : GraphM Unit}

theorem prepareInner_congr {pipeline : Pipeline}
    (h : ∀ built, build pipeline = .ok built → prepare built = prepare' built) :
    prepareInner prepare pipeline = prepareInner prepare' pipeline := by
  rw [prepareInner, prepareInner]
  cases hbuild : build pipeline with
  | error e => rfl
  | ok built => simp only [h built hbuild]

/-- Nodes are replaced in the same way if the pipelines inside them are prepared in the same way. -/
theorem expandNode_congr {id : NodeId} {g : Graph}
    (h : ∀ owner, g.node? id = some owner → ∀ nested, owner.spec.nested? = some nested →
      ∀ inside : Pipeline, inside.jobs = nested.jobs → ∀ built, build inside = .ok built →
        prepare built = prepare' built) : expandNode prepare id g = expandNode prepare' id g := by
  refine bind_congr_of_ok fun owner t hat => ?_
  obtain ⟨hn, rfl⟩ := nodeAt_eq_ok.mp hat
  cases hnested : owner.spec.nested? with
  | none => rfl
  | some nested =>
    refine bind_congr_of_ok fun settings t _ => ?_
    simp only [prepareInner_congr (h owner hn nested hnested
      { nested with configuration := nested.configuration.overlay settings } rfl)]

/-- So are graphs. -/
theorem prepareStages_congr {options : CompileOptions} {pipeline : Pipeline} {built : Graph}
    (hbuild : build pipeline = .ok built)
    (h : ∀ job ∈ pipeline.jobs, ∀ nested, job.nested? = some nested → ∀ inside : Pipeline,
      inside.jobs = nested.jobs → ∀ built, build inside = .ok built → prepare built = prepare' built) :
    prepareStages options prepare built = prepareStages options prepare' built := by
  rw [prepareStages_eq, prepareStages_eq]
  refine bind_congr_of_ok fun _ filled hspread => ?_
  obtain ⟨ho, -⟩ := spread_spec hbuild hspread
  -- A node whose turn comes was there before, and so has one of the jobs.
  have hexpand : expand prepare filled = expand prepare' filled := by
    refine bind_congr_of_ok fun _ _ hget => ?_
    obtain ⟨rfl, rfl⟩ := get_eq_ok.mp hget
    refine forM_congr_of_keeps (P := fun t => filled.nextId ≤ t.nextId ∧
      ∀ node ∈ t.nodes, node.id < filled.nextId → node ∈ filled.nodes)
      ⟨le_rfl, fun _ hn _ => hn⟩ (fun first hfirst t ht => ?_) fun first _ t _ t' ht hstep => ?_
    · refine expandNode_congr fun owner hn nested hnested => ?_
      obtain ⟨hin, hid⟩ := id_of_node? hn
      have hlt := ho.wellFormed.below _ (List.mem_map_of_mem (List.mem_of_mem_filter hfirst))
      exact h _ (ho.specs owner (ht.2 owner hin (hid ▸ hlt))) nested hnested
    · obtain ⟨hnext, holder, -⟩ := mem_of_expandNode hstep
      exact ⟨ht.1.trans hnext, fun node hn hlt => ht.2 node (holder node hn (hlt.trans_le ht.1)) hlt⟩
  change EStateM.bind (expandWithin options prepare) _ filled =
    EStateM.bind (expandWithin options prepare') _ filled
  rw [EStateM.bind, EStateM.bind, expandWithin, expandWithin]
  cases options.expandNested with
  | false => rfl
  | true => simp only [if_true, hexpand]

end Congruence

/-- A graph is prepared in the same way with as many levels as it has and with any more. -/
theorem prepareWithin_eq_of_le {options : CompileOptions} {first second : Nat} {pipeline : Pipeline}
    {built : Graph} (hbuild : build pipeline = .ok built) (hfirst : jobsDepth pipeline.jobs ≤ first)
    (hsecond : jobsDepth pipeline.jobs ≤ second) :
    prepareWithin first options built = prepareWithin second options built := by
  induction first generalizing second pipeline built options with
  | zero =>
    rw [prepareWithin_eq, prepareWithin_eq]
    refine prepareStages_congr hbuild fun job hj nested hnested => ?_
    have hlt := (jobsDepth_lt hnested).trans_le ((depth_le_jobsDepth hj).trans hfirst)
    exact absurd hlt (Nat.not_lt_zero _)
  | succ first ih =>
    rw [prepareWithin_eq, prepareWithin_eq]
    refine prepareStages_congr hbuild fun job hj nested hnested inside hjobs built' hbuilt => ?_
    have hlt := (jobsDepth_lt hnested).trans_le (depth_le_jobsDepth hj)
    cases second with
    | zero => exact absurd (hlt.trans_le hsecond) (Nat.not_lt_zero _)
    | succ second =>
      rw [← hjobs] at hlt
      exact ih hbuilt (Nat.le_of_lt_succ (hlt.trans_le hfirst))
        (Nat.le_of_lt_succ (hlt.trans_le hsecond))

/-- **Preparation.** A graph is prepared by repeating nodes, handing on values, replacing nodes by what
the pipelines inside them are prepared as, and resolving all values. -/
theorem prepare_eq_stages {options : CompileOptions} {pipeline : Pipeline} {built : Graph}
    (hbuild : build pipeline = .ok built) :
    prepare options built = prepareStages options (prepare {}) built := by
  rw [prepare_eq]
  refine prepareStages_congr hbuild fun job hj nested hnested inside hjobs built' hbuilt => ?_
  have hlt := (jobsDepth_lt hnested).trans_le (depth_le_jobsDepth hj)
  rw [← hjobs, ← depth_of_build hbuild] at hlt
  cases hdepth : built.depth with
  | zero => exact absurd (hdepth ▸ hlt) (Nat.not_lt_zero _)
  | succ depth =>
    rw [hdepth] at hlt
    have hsame : prepare {} built' = prepareWithin built'.depth {} built' := rfl
    rw [hsame, prepareNested]
    exact prepareWithin_eq_of_le hbuilt (Nat.le_of_lt_succ hlt) (depth_of_build hbuilt).ge

end Graph

end Pipework
