import Pipework.Compile
import Pipework.Proofs.Expansion
import Pipework.Proofs.Reduction

/-!
# The order of jobs in a compiled graph

A job that comes after another one by definition does so in the compiled graph: all that was
made from the one waits for all that was made from the other, however often the two are
repeated, whatever pipelines they hold, and also when implied edges are dropped.
-/

namespace Pipework

open Step

namespace Graph

/-- An attempt at a step that only reads shifts the graph as reading does. -/
theorem shifts_attempt {α : Type} {action : ScopeM α} (h : Moves ScopeTree.SameButMemo action) :
    Shifts SameButMemo (attempt action) := by
  intro g
  have hs := h g.scope
  rw [attempt]
  cases ha : action g.scope with
  | ok a tree =>
    obtain ⟨memo, hlearns, rfl⟩ : ScopeTree.SameButMemo g.scope tree := by rwa [ha] at hs
    exact ⟨memo, hlearns, rfl⟩
  | error e tree =>
    obtain ⟨memo, hlearns, rfl⟩ : ScopeTree.SameButMemo g.scope tree := by rwa [ha] at hs
    exact ⟨memo, hlearns, rfl⟩

/-- Checking a parameter of the pipeline only reads. -/
theorem shifts_checkPipelineParameter (parameter : Parameter) :
    Shifts SameButMemo (checkPipelineParameter parameter) := by
  refine Shifts.get.bind fun graph => ?_
  dsimp only
  split
  · exact (shifts_attempt (ScopeTree.moves_resolve _ _)).bind fun _ => .pure _
  · exact .pure _

/-- Checking a node only reads. -/
theorem shifts_checkNode (node : Node) : Shifts SameButMemo (checkNode node) := by
  refine (Shifts.mapM fun parameter _ => ?_).bind fun _ => .pure _
  rw [checkParameter]
  split
  · exact .pure _
  · exact (shifts_attempt (moves_readProperty _ _)).bind fun _ => .pure _

/-- Checking obligatory parameters leaves nodes, edges and values alone. -/
theorem shifts_validate : Shifts SameButMemo validate := by
  refine Shifts.get.bind fun graph => ?_
  refine (Shifts.mapM fun parameter _ => shifts_checkPipelineParameter parameter).bind fun _ => ?_
  exact (Shifts.mapM fun node _ => shifts_checkNode node).bind fun _ => .pure _

/-- A graph in which values could be handed on has no circle. -/
theorem acyclic_of_configure {g g' : Graph} {u : Unit} (hw : g.WellFormed)
    (h : configure g = .ok u g') : Acyclic g'.edges := by
  rw [(moves_configure.of_ok h).edges]
  obtain ⟨_, _, hget, h⟩ := bind_eq_ok.mp h
  obtain ⟨rfl, rfl⟩ := get_eq_ok.mp hget
  obtain ⟨order, _, hat, h⟩ := bind_eq_ok.mp h
  obtain ⟨horder, rfl⟩ := ofExcept_eq_ok.mp hat
  exact (rising_of_topologicalOrder hw.closed horder).acyclic

/-- The handles of the nodes with a pipeline of their own. -/
def nestedIds (graph : Graph) : List NodeId :=
  (graph.nodes.filter (·.spec.nested?.isSome)).map (·.id)

/-- In a graph without circles, the nodes with pipelines inside are still to give way. -/
theorem awaits_nestedIds {graph : Graph} (hw : graph.WellFormed) (ha : Acyclic graph.edges) :
    Awaits graph.nestedIds graph where
  wellFormed := hw
  acyclic := ha
  nested id hid := by
    obtain ⟨node, hn, rfl⟩ := List.mem_map.mp hid
    obtain ⟨hn, hnested⟩ := List.mem_filter.mp hn
    exact ⟨node, hn, rfl, hnested⟩
  nodup := (List.filter_sublist.map _).nodup hw.nodup

/-- Pipelines inside jobs are put in their place one after the other. -/
theorem expand_eq_ok {prepare : GraphM Unit} {g g' : Graph} {u : Unit} :
    expand prepare g = .ok u g' ↔ g.nestedIds.forM (expandNode prepare) g = .ok u g' := by
  have hmap : g.nestedIds.forM (expandNode prepare) =
      (g.nodes.filter (·.spec.nested?.isSome)).forM (expandNode prepare ·.id) := by
    simp [nestedIds]
  rw [hmap, expand, bind_eq_ok]
  simp only [get_eq_ok]
  constructor
  · rintro ⟨_, _, ⟨rfl, rfl⟩, h⟩
    exact h
  · exact fun h => ⟨g, g, ⟨rfl, rfl⟩, h⟩

/-- The graph with its nodes repeated and values handed on, before pipelines inside jobs are put
in their place. -/
def spread : GraphM Unit := do
  split
  configure

/-- The part of a preparation that puts pipelines inside jobs in their place. -/
def expandWithin (options : CompileOptions) (prepare : GraphM Unit) : GraphM Unit :=
  if options.expandNested then expand prepare else pure ()

/-- A preparation repeats nodes and hands on values, then puts in pipelines inside jobs, and then
resolves all. -/
theorem prepareStages_eq (options : CompileOptions) (prepare : GraphM Unit) :
    prepareStages options prepare = (do spread; expandWithin options prepare; finalize) := by
  rw [prepareStages, spread, expandWithin]
  cases options.expandNested <;> simp

/-- Pipelines inside jobs are put in their place only if that is asked for. -/
theorem expandWithin_eq_ok {options : CompileOptions} {prepare : GraphM Unit} {g g' : Graph}
    {u : Unit} (h : expandWithin options prepare g = .ok u g') :
    if options.expandNested then g.nestedIds.forM (expandNode prepare) g = .ok u g' else g' = g := by
  rw [expandWithin] at h
  split at h
  next hon =>
    rw [if_pos hon]
    exact expand_eq_ok.mp h
  next hoff =>
    rw [if_neg hoff]
    exact (pure_eq_ok.mp h).2.symm

/-- What repeating nodes and handing on values makes of a graph as it is built. -/
theorem spread_spec {pipeline : Pipeline} {g g' : Graph} {u : Unit} (hbuild : build pipeline = .ok g)
    (h : spread g = .ok u g') : g'.Orderly pipeline.jobs ∧ Acyclic g'.edges := by
  obtain ⟨hall, hw, hlinked, -⟩ := build_spec hbuild
  obtain ⟨v, t, hsplit, hconfigure⟩ := bind_eq_ok.mp h
  have hspecs : ∀ node ∈ g.nodes, node.spec ∈ pipeline.jobs :=
    fun node hn => ((specs_of_ofJob hall).2 node hn).1
  have ho := orderly_split hw hlinked hspecs hsplit
  exact ⟨(moves_configure.of_ok hconfigure).retains.orderly ho,
    acyclic_of_configure ho.wellFormed hconfigure⟩

/-- When values were handed on, the nodes with pipelines inside are still to give way. -/
theorem awaits_of_spread {pipeline : Pipeline} {g g' : Graph} {u : Unit}
    (hbuild : build pipeline = .ok g) (h : spread g = .ok u g') : Awaits g'.nestedIds g' := by
  obtain ⟨ho, ha⟩ := spread_spec hbuild h
  exact awaits_nestedIds ho.wellFormed ha

/-- The stages of a preparation make no circle, if pipelines inside jobs are prepared without one. -/
theorem preparesAcyclic_prepareStages {options : CompileOptions} {prepare : GraphM Unit}
    (hprepare : PreparesAcyclic prepare) : PreparesAcyclic (prepareStages options prepare) := by
  intro pipeline g g' u hbuild h
  rw [prepareStages_eq] at h
  obtain ⟨_, g₁, hspread, h⟩ := bind_eq_ok.mp h
  obtain ⟨_, g₂, hexpand, hfinalize⟩ := bind_eq_ok.mp h
  have hsame := moves_finalize.of_ok hfinalize
  obtain ⟨ho, ha⟩ := spread_spec hbuild hspread
  have hboth : g₂.WellFormed ∧ Acyclic g₂.edges := by
    have hcase := expandWithin_eq_ok hexpand
    split at hcase
    · have hend := (expanded_of_forM hprepare (awaits_nestedIds ho.wellFormed ha) hcase).1
      exact ⟨hend.wellFormed, hend.acyclic⟩
    · exact hcase ▸ ⟨ho.wellFormed, ha⟩
  exact ⟨hsame.wellFormed hboth.1, hsame.edges ▸ hboth.2⟩

/-- How graphs of pipelines inside jobs are prepared, when pipelines lie in each other at most so
deep. -/
def prepareNested : Nat → GraphM Unit
  | 0 => throw .dangling
  | depth + 1 => prepareWithin depth {}

/-- Preparing a graph within some depth means preparing the pipelines inside jobs within one less. -/
theorem prepareWithin_eq (depth : Nat) (options : CompileOptions) :
    prepareWithin depth options = prepareStages options (prepareNested depth) := by
  cases depth <;> rfl

/-- The graph of a pipeline inside a job goes through all stages, too. -/
theorem prepareNested_succ (depth : Nat) :
    prepareNested (depth + 1) = prepareStages {} (prepareNested depth) := prepareWithin_eq depth {}

/-- What holds of giving up at once, and of the stages of a preparation if it holds of how pipelines
inside jobs are prepared, holds of preparing at any depth. -/
@[elab_as_elim]
theorem prepareNested_induct {P : GraphM Unit → Prop} (zero : P (throw .dangling))
    (stages : ∀ prepare, P prepare → P (prepareStages {} prepare)) (depth : Nat) :
    P (prepareNested depth) := by
  induction depth with
  | zero => exact zero
  | succ depth ih =>
    rw [prepareNested_succ]
    exact stages _ ih

/-- A graph goes through its stages with as many levels as pipelines lie in each other in it. -/
theorem prepare_eq (options : CompileOptions) (graph : Graph) :
    prepare options graph = prepareStages options (prepareNested graph.depth) graph := by
  rw [← prepareWithin_eq]
  rfl

/-- At any depth preparation makes no circle. -/
theorem preparesAcyclic_prepareNested (depth : Nat) : PreparesAcyclic (prepareNested depth) :=
  prepareNested_induct (fun _ _ _ _ _ h => absurd h throw_ne_ok)
    (fun _ => preparesAcyclic_prepareStages) depth

/-- Preparation makes no circle. -/
theorem preparesAcyclic_prepare (options : CompileOptions) : PreparesAcyclic (prepare options) := by
  intro pipeline built prepared u hbuild h
  rw [prepare_eq] at h
  exact preparesAcyclic_prepareStages (preparesAcyclic_prepareNested _) _ _ _ _ hbuild h

/-- Dropping implied edges leaves the nodes alone and does not part what is connected. -/
theorem reaches_of_reduce {g g' : Graph} {count : Nat} (hw : g.WellFormed) (ha : Acyclic g.edges)
    (h : reduce g = .ok count g') :
    g'.nodes = g.nodes ∧ ∀ u v, Reaches g.edges u v → Reaches g'.edges u v := by
  obtain ⟨order, horder⟩ := exists_topologicalOrder ha hw.closed
  rw [reduce_of_acyclic ha hw.closed] at h
  obtain ⟨-, rfl⟩ := EStateM.Result.ok.inj h
  exact ⟨rfl, fun u v => reaches_transitiveReduction (rising_of_topologicalOrder hw.closed horder)⟩

end Graph

open Pipework.Graph

/-- Which pipeline was compiled, and what of it is left after the check of obligatory
parameters. -/
theorem compile_eq_ok {options : CompileOptions} {pipeline : Pipeline} {compiled : Compiled}
    (h : compile options pipeline = .ok compiled) :
    ∃ built reduced u, build pipeline = .ok built ∧ compileStages options built = .ok u reduced ∧
      SameButScope reduced compiled.graph := by
  cases hbuild : build pipeline with
  | error e => simp [compile, hbuild, bind, Except.bind] at h
  | ok built =>
    simp only [compile, hbuild, bind, Except.bind] at h
    cases hstages : compileStages options built with
    | error e t => simp [hstages] at h
    | ok u reduced =>
      simp only [hstages] at h
      refine ⟨built, reduced, u, rfl, hstages, ?_⟩
      split at h
      · obtain rfl := Except.ok.inj h
        exact (shifts_validate reduced).sameButScope
      · obtain rfl := Except.ok.inj h
        exact refl_of SameButScope reduced

/-- A compilation prepares the graph, and what comes behind leaves the nodes alone and does not
part what is connected. -/
theorem compileStages_eq_ok {options : CompileOptions} {pipeline : Pipeline} {built reduced : Graph}
    {u : Unit} (hbuild : build pipeline = .ok built)
    (h : compileStages options built = .ok u reduced) :
    ∃ prepared v, prepareStages options (prepareNested built.depth) built = .ok v prepared ∧
      reduced.nodes = prepared.nodes ∧
      ∀ u v, Reaches prepared.edges u v → Reaches reduced.edges u v := by
  rw [compileStages] at h
  obtain ⟨v, prepared, hprepare, h⟩ := bind_eq_ok.mp h
  obtain ⟨_, _, hget, hprepare⟩ := bind_eq_ok.mp hprepare
  obtain ⟨rfl, rfl⟩ := get_eq_ok.mp hget
  rw [prepareWithin_eq] at hprepare
  obtain ⟨hw, ha⟩ := preparesAcyclic_prepareStages (preparesAcyclic_prepareNested built.depth)
    _ _ _ _ hbuild hprepare
  refine ⟨prepared, v, hprepare, ?_⟩
  split at h
  · obtain ⟨count, _, hreduce, h⟩ := bind_eq_ok.mp h
    obtain ⟨-, rfl⟩ := pure_eq_ok.mp h
    exact reaches_of_reduce hw ha hreduce
  · obtain ⟨-, rfl⟩ := pure_eq_ok.mp h
    exact ⟨rfl, fun _ _ => id⟩

/-- The nodes of the compiled graph that were made from the job of this name: its own node or the
repetitions of it, and in the place of each that was replaced, all nodes that its pipeline became. -/
def madeFrom (options : CompileOptions) (pipeline : Pipeline) (job : String) : List NodeId :=
  match build pipeline with
  | .error _ => []
  | .ok built =>
    match spread built with
    | .error _ _ => []
    | .ok _ graph =>
      let own := (graph.nodes.filter (·.spec.id == job)).map (·.id)
      if options.expandNested then
        own.flatMap (standIns (expansions (prepareNested built.depth) graph.nestedIds graph))
      else own

/-- In a compiled graph each node was made from some job, and whatever was made from a job comes
after whatever was made from the jobs that it comes after by definition. -/
theorem made_after_of_compile {options : CompileOptions} {pipeline : Pipeline}
    {compiled : Compiled} (h : compile options pipeline = .ok compiled) :
    (∀ id, id ∈ compiled.graph.nodes.map (·.id) ↔
      ∃ job ∈ pipeline.jobs, id ∈ madeFrom options pipeline job.id) ∧
    ∀ job ∈ pipeline.jobs, ∀ before ∈ job.after, ∀ m ∈ madeFrom options pipeline before,
      ∀ n ∈ madeFrom options pipeline job.id, Reaches compiled.graph.edges m n := by
  obtain ⟨built, reduced, u, hbuild, hstages, scope, hgraph⟩ := compile_eq_ok h
  obtain ⟨prepared, v, hprepare, hnodes, hreduced⟩ := compileStages_eq_ok hbuild hstages
  rw [hgraph]
  simp only [hnodes]
  rw [prepareStages_eq] at hprepare
  obtain ⟨_, graph, hspread, hprepare⟩ := bind_eq_ok.mp hprepare
  obtain ⟨_, expanded, hexpand, hfinalize⟩ := bind_eq_ok.mp hprepare
  have hsame := moves_finalize.of_ok hfinalize
  obtain ⟨ho, ha⟩ := spread_spec hbuild hspread
  have hnames := (build_spec hbuild).2.2.2
  have hown : ∀ id, id ∈ graph.nodes.map (·.id) ↔ ∃ job ∈ pipeline.jobs,
      id ∈ (graph.nodes.filter (·.spec.id == job.id)).map (·.id) := by
    intro id
    simp only [List.mem_map, List.mem_filter, beq_iff_eq]
    constructor
    · rintro ⟨node, hn, rfl⟩
      exact ⟨node.spec, ho.specs node hn, node, ⟨hn, rfl⟩, rfl⟩
    · rintro ⟨job, -, node, ⟨hn, -⟩, rfl⟩
      exact ⟨node, hn, rfl⟩
  have hlinked : ∀ job ∈ pipeline.jobs, ∀ before ∈ job.after,
      ∀ m ∈ (graph.nodes.filter (·.spec.id == before)).map (·.id),
      ∀ n ∈ (graph.nodes.filter (·.spec.id == job.id)).map (·.id), Leads graph.edges m n := by
    simp only [List.mem_map, List.mem_filter, beq_iff_eq]
    rintro job hjob _ hbefore _ ⟨first, ⟨hf, rfl⟩, rfl⟩ _ ⟨second, ⟨hs, hid⟩, rfl⟩
    obtain rfl := List.inj_on_of_nodup_map hnames (ho.specs second hs) hjob hid
    exact leads_of_mem (ho.linked first hf second hs hbefore)
  have hcase := expandWithin_eq_ok hexpand
  simp only [madeFrom, hbuild, hspread]
  split at hcase
  next hon =>
    simp only [hon, if_true, List.mem_flatMap]
    obtain ⟨-, hids, hpaths⟩ := expanded_of_forM (preparesAcyclic_prepareNested built.depth)
      (awaits_nestedIds ho.wellFormed ha) hcase
    refine ⟨fun id => ?_, ?_⟩
    · rw [hsame.ids, hids]
      constructor
      · rintro ⟨w, hw, hid⟩
        obtain ⟨job, hjob, hw⟩ := (hown w).mp hw
        exact ⟨job, hjob, w, hw, hid⟩
      · rintro ⟨job, hjob, w, hw, hid⟩
        exact ⟨w, (hown w).mpr ⟨job, hjob, hw⟩, hid⟩
    · rintro job hjob before hbefore m ⟨first, hf, hm⟩ n ⟨second, hs, hn⟩
      have hl := hlinked job hjob before hbefore first hf second hs
      refine hreduced m n (hsame.edges ▸ hpaths first ?_ second ?_ ?_ (.edge hl) m hm n hn)
      · exact (hl.mem_closed ho.wellFormed.closed).1
      · exact (hl.mem_closed ho.wellFormed.closed).2
      · exact fun heq => ha first (.single (heq ▸ hl))
  next hoff =>
    simp only [hoff]
    subst hcase
    refine ⟨fun id => ?_, fun job hjob before hbefore m hm n hn => ?_⟩
    · rw [hsame.ids]
      exact hown id
    · exact hreduced m n (hsame.edges ▸ .single (hlinked job hjob before hbefore m hm n hn))

/-- Two parts to fetch, a job with a pipeline inside that works on them, and a report. -/
def relay : Pipeline where
  jobs := [
    { id := "fetch", parameters := [{ name := "part" }],
      configuration := .ofList [("part", .list [.str "head", .str "tail"])] },
    { id := "work", after := ["fetch"],
      nested? := some { jobs := [{ id := "align" }, { id := "count", after := ["align"] }] } },
    { id := "report", after := ["work"] }]

theorem made_after_in_relay : ∃ compiled, compile {} relay = .ok compiled ∧
    madeFrom {} relay "fetch" = [3, 4] ∧ madeFrom {} relay "work" = [5, 6] ∧
    ∀ m ∈ [3, 4], ∀ n ∈ [5, 6], Reaches compiled.graph.edges m n := by
  have hfetch : madeFrom {} relay "fetch" = [3, 4] := by decide +kernel
  have hwork : madeFrom {} relay "work" = [5, 6] := by decide +kernel
  have hok : (compile {} relay).isOk = true := by decide +kernel
  cases hcompile : compile {} relay with
  | error e =>
    rw [hcompile] at hok
    cases hok
  | ok compiled =>
    refine ⟨compiled, rfl, hfetch, hwork, ?_⟩
    have hjob : ∃ job ∈ relay.jobs, "fetch" ∈ job.after ∧ job.id = "work" := by simp [relay]
    obtain ⟨job, hjob, hafter, hid⟩ := hjob
    have hpaths := (made_after_of_compile hcompile).2 job hjob "fetch" hafter
    rwa [hid, hfetch, hwork] at hpaths

end Pipework
