import Pipework.Proofs.Calls

/-!
# What holds of the jobs of all nodes

A node that is added is of the job of a pipeline, of the same job as the node that it repeats, or of a
job from the pipeline inside that of a node. So what passes from a job to those inside it, and holds of
the jobs of a pipeline, holds of the jobs of all nodes, whatever is asked of the graph.
-/

namespace Pipework

open Step

/-- What holds of a job holds of the jobs of the pipeline inside it. -/
def Job.Descends (P : Job → Prop) : Prop :=
  ∀ job, P job → ∀ nested ∈ job.nested?, ∀ inner ∈ nested.jobs, P inner

namespace Graph

/-- It holds of the jobs of all nodes. -/
def AllJobs (P : Job → Prop) (g : Graph) : Prop := ∀ node ∈ g.nodes, P node.spec

section AllJobs

variable {P : Job → Prop}

/-- What holds of all jobs does so where nodes are kept. -/
theorem Retains.allJobs {g g' : Graph} (h : Retains g g') : Keeps (AllJobs P) g g' := by
  intro hg node hn
  obtain ⟨old, hold, -, hspec⟩ := h.exists_node hn
  exact hspec ▸ hg old hold

/-- What holds of all jobs depends on the outline only. -/
theorem SameOutline.allJobs {g g' : Graph} (h : SameOutline g g') : Keeps (AllJobs P) g g' :=
  h.retains.allJobs

/-- What holds of all jobs does so after values were read. -/
theorem SameButMemo.allJobs {g g' : Graph} (h : SameButMemo g g') : Keeps (AllJobs P) g g' :=
  h.sameOutline.allJobs

/-- Taking a node out and adding edges brings in no job. -/
theorem allJobs_replaceEdges (g : Graph) (id : NodeId) (edges : List Edge) :
    Keeps (AllJobs P) g ((g.removeNode id).addEdges edges) :=
  fun hg node hn => hg node (List.mem_of_mem_filter hn)

/-- Giving a node a value brings in no job. -/
theorem allJobs_setNodeValue (id : NodeId) (key : String) (value : Value) :
    Moves (Keeps (AllJobs P)) (setNodeValue id key value) :=
  (moves_setNodeValue id key value).mono fun _ _ h => h.allJobs

/-- A node of a job of which the property holds may be added. -/
theorem allJobs_addNode {node : Node} (hnode : P node.spec) :
    Moves (Keeps (AllJobs P)) (addNode node) := by
  intro g hg
  cases h : addNode node g with
  | error e g' => exact (failsWithin_addNode node g e g' h).sameOutline.allJobs hg
  | ok id g' =>
    obtain ⟨-, -, scope, rfl⟩ := adds_of_addNode h
    intro other ho
    rcases List.mem_append.mp ho with ho | ho
    · exact hg other ho
    · exact List.mem_singleton.mp ho ▸ hnode

/-- Repetitions are of the same job. -/
theorem allJobs_replicate {node : Node} (hnode : P node.spec) (drivers : Drivers) (count : Nat) :
    Moves (Keeps (AllJobs P)) (replicate node drivers count) := by
  refine (moves_ofExcept _).bind fun serial => Moves.bind ?_ fun replicas => ?_
  · exact .mapM fun place _ => ((moves_shareOut node drivers place).mono fun _ _ h =>
      h.allJobs).bind fun _ => allJobs_addNode hnode
  refine (moves_separateOutputs (fun _ _ h => h.allJobs) drivers serial fun _ _ _ _ _ _ _ _ =>
    allJobs_setNodeValue _ _ _).bind fun _ => Moves.get.bind fun graph => ?_
  exact ((moves_replicaEdges _ _ _ _ _ _ _ _).mono fun _ _ h => h.allJobs).bind fun edges =>
    .modify fun g => allJobs_replaceEdges g node.id edges

/-- The repetitions of a node are of its job. -/
theorem allJobs_splitNode (id : NodeId) : Moves (Keeps (AllJobs P)) (splitNode id) := by
  have hplans : ∀ t t', Plans t t' → Keeps (AllJobs P) t t' := fun _ _ h => h.retains.allJobs
  refine Keeps.get_bind fun g hg => ?_
  cases hnode : g.node? id with
  | none => exact .pure _
  | some node =>
    refine ((moves_drivers id).mono hplans).bind fun drivers => (moves_ofExcept _).bind fun _ => ?_
    split
    · exact .pure _
    · exact moves_collapse_of hplans fun _ _ _ _ => allJobs_setNodeValue _ _ _
    · exact allJobs_replicate (hg node (List.mem_of_find?_eq_some hnode)) drivers _

/-- Repeating nodes and handing on values brings in no job. -/
theorem allJobs_spread : Moves (Keeps (AllJobs P)) spread := by
  have hsplit : Moves (Keeps (AllJobs P)) split := Moves.get.bind fun _ =>
    (moves_ofExcept _).bind fun _ => .forM fun node _ => allJobs_splitNode node.id
  exact hsplit.bind fun _ => moves_configure.mono fun _ _ h => h.allJobs

/-- What holds of the jobs of a pipeline holds of the jobs of its graph. -/
theorem allJobs_of_build {pipeline : Pipeline} {g : Graph} (hjobs : ∀ job ∈ pipeline.jobs, P job)
    (h : build pipeline = .ok g) : AllJobs P g := by
  intro node hn
  obtain ⟨job, hj, heq⟩ := exists_of_mem_right (build_spec h).1 hn
  rw [heq]
  exact hjobs job hj

section Expanding

variable {prepare : GraphM Unit} (hP : Job.Descends P) (hprepare : Moves (Keeps (AllJobs P)) prepare)

include hP hprepare

/-- The nodes that a node gives way to are of jobs of the pipeline inside it. -/
theorem allJobs_expandNode (id : NodeId) : Moves (Keeps (AllJobs P)) (expandNode prepare id) := by
  refine Moves.bind_of_ok (moves_nodeAt id) fun g node t hat hg => ?_
  obtain ⟨hnode, rfl⟩ := nodeAt_eq_ok.mp hat
  have hnode : P node.spec := hg node (List.mem_of_find?_eq_some hnode)
  cases hnested : node.spec.nested? with
  | none => exact hg
  | some nested =>
    refine Moves.bind ((moves_configuration _).mono fun _ _ h => h.allJobs) (fun settings => ?_) g hg
    refine (moves_prepareInner prepare _).bind_of_ok fun t inner t' hat ht => ?_
    obtain ⟨rfl, built, u, hbuild, hprepared⟩ := prepareInner_eq_ok.mp hat
    have hbuilt : AllJobs P built :=
      allJobs_of_build (by exact hP node.spec hnode nested hnested) hbuild
    have hinner : AllJobs P inner := hprepare.of_ok hprepared hbuilt
    have hadopt : ∀ old ∈ inner.nodes, Moves (Keeps (AllJobs P)) (adoptNode node.name old) := by
      refine fun old hold => Moves.bind (allJobs_addNode ?_) fun _ => .pure _
      exact hinner old hold
    refine Moves.bind (.mapM hadopt) (fun handles => ?_) t ht
    refine ((moves_adoptEdges handles inner.edges).mono fun _ _ h => h.allJobs).bind fun edges => ?_
    exact Moves.get.bind fun graph => .modify fun g => allJobs_replaceEdges g id _

/-- The stages of a preparation keep what holds of all jobs. -/
theorem allJobs_prepareStages (options : CompileOptions) :
    Moves (Keeps (AllJobs P)) (prepareStages options prepare) := by
  rw [prepareStages_eq]
  refine allJobs_spread.bind fun _ => Moves.bind ?_ fun _ => moves_finalize.mono fun _ _ h => h.allJobs
  rw [expandWithin]
  split
  · exact Moves.get.bind fun _ => .forM fun node _ => allJobs_expandNode hP hprepare node.id
  · exact .pure _

end Expanding

variable (hP : Job.Descends P)

include hP

/-- At any depth preparation keeps what holds of all jobs. -/
theorem allJobs_prepareNested (depth : Nat) : Moves (Keeps (AllJobs P)) (prepareNested depth) :=
  prepareNested_induct (.throw _) (fun _ ih => allJobs_prepareStages hP ih {}) depth

/-- Whatever is asked of a graph, what holds of all jobs still does. -/
theorem allJobs_run (call : Call) : Moves (Keeps (AllJobs P)) call.run := by
  have hread : ∀ g g', SameButMemo g g' → Keeps (AllJobs P) g g' := fun _ _ h => h.allJobs
  cases call with
  | prepare options =>
    intro g
    rw [Call.run, prepare_eq]
    exact allJobs_prepareStages hP (allJobs_prepareNested hP g.depth) options g
  | reduce =>
    refine Moves.bind (fun g hg => ?_) fun _ => .pure _
    rcases left_reduce g with h | ⟨order, -, h⟩ <;> rwa [h]
  | validate => exact .modify fun g => hread _ _ (shifts_validate g)
  | configuration name => exact ((moves_configuration name).mono hread).bind fun _ => .pure _
  | summarize => exact (moves_summarize.mono hread).bind fun _ => .pure _

/-- What passes to jobs inside others, and holds of those of the pipeline, holds of all jobs that nodes are
of. -/
theorem Reachable.allJobs {pipeline : Pipeline} {g : Graph} (h : Reachable pipeline g)
    (hjobs : ∀ job ∈ pipeline.jobs, P job) : AllJobs P g := by
  induction h with
  | built hbuild => exact allJobs_of_build hjobs hbuild
  | step _ call ih => exact allJobs_run hP call _ ih

end AllJobs

end Graph

end Pipework
