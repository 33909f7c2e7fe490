import Pipework.Proofs.LastHanded

/-!
# Nodes from pipelines inside jobs

When a job with a pipeline of its own is replaced, the nodes of that pipeline come with what their
values were resolved to there. So where no list in the definitions holds a list, at any depth, none
does in a prepared graph.
-/

namespace Pipework

open Step Resolve Value

/-- No list holds a list in a pipeline and in the pipelines inside its jobs. -/
inductive Pipeline.FlatThroughout : Pipeline → Prop
  | intro {pipeline : Pipeline} (flat : pipeline.Flat)
      (nested : ∀ job ∈ pipeline.jobs, ∀ nested ∈ job.nested?, FlatThroughout nested) :
      FlatThroughout pipeline

/-- Where no job has a pipeline inside, there is nothing further in that could hold a list in a list. -/
theorem Pipeline.Flat.throughout {pipeline : Pipeline} (h : pipeline.Flat)
    (hnested : ∀ job ∈ pipeline.jobs, job.nested? = none) : pipeline.FlatThroughout :=
  .intro h fun job hj nested hsome => by
    rw [hnested job hj] at hsome
    cases hsome

/-- A pipeline stays so when values without a list in a list are laid over its own. -/
theorem Pipeline.FlatThroughout.overlay {pipeline : Pipeline} (h : pipeline.FlatThroughout)
    {settings : Settings} (hsettings : ∀ entry ∈ settings.entries, entry.2.isFlat = true) :
    Pipeline.FlatThroughout
      { pipeline with configuration := pipeline.configuration.overlay settings } := by
  cases h with
  | intro hflat hnested =>
    refine .intro ⟨fun entry hentry => ?_, hflat.defaults, hflat.given, hflat.standing⟩ hnested
    exact (Settings.mem_overlay hentry).elim (hsettings entry) (hflat.configuration entry)

namespace Graph

open ScopeTree

/-- No node keeps what its values were resolved to. -/
def Unresolved (g : Graph) : Prop := ∀ node ∈ g.nodes, node.resolved? = none

section Unresolved

/-- Reading values leaves nodes without resolved ones. -/
theorem SameButMemo.unresolved {g g' : Graph} (h : SameButMemo g g') : Keeps Unresolved g g' := by
  obtain ⟨memo, -, rfl⟩ := h
  exact id

/-- Taking a node out and adding edges leaves nodes without resolved values. -/
theorem unresolved_replaceEdges (g : Graph) (id : NodeId) (edges : List Edge) :
    Keeps Unresolved g ((g.removeNode id).addEdges edges) :=
  fun hg node hn => hg node (List.mem_of_mem_filter hn)

/-- A node without resolved values may be added. -/
theorem unresolved_addNode {node : Node} {id : NodeId} {g g' : Graph} (hnone : node.resolved? = none)
    (h : addNode node g = .ok id g') : Keeps Unresolved g g' := by
  obtain ⟨-, -, scope, rfl⟩ := adds_of_addNode h
  intro hg other ho
  rcases List.mem_append.mp ho with ho | ho
  · exact hg other ho
  · rw [List.mem_singleton.mp ho]
    exact hnone

/-- Giving a node a value leaves nodes without resolved ones. -/
theorem unresolved_setNodeValue (id : NodeId) (key : String) (value : Value) :
    Moves (Keeps Unresolved) (setNodeValue id key value) := by
  refine moves_setNodeValue_of (fun g hg node hn => ?_) fun g g' hsame hg => ?_
  · obtain ⟨old, hold, ⟨-, rfl⟩ | ⟨-, rfl⟩⟩ := mem_modifyNode hn
    · rfl
    · exact hg node hold
  · obtain ⟨tree, rfl⟩ := hsame
    exact hg

/-- Nothing is resolved before nodes are replaced. -/
theorem unresolved_of_spread {pipeline : Pipeline} {built g : Graph} {u : Unit}
    (hbuild : build pipeline = .ok built) (h : spread built = .ok u g) : Unresolved g := by
  obtain ⟨_, repeated, hsplit, hconfigure⟩ := bind_eq_ok.mp h
  have hstart : Unresolved built := by
    obtain ⟨hall, -⟩ := build_spec hbuild
    intro node hn
    obtain ⟨job, -, hjob⟩ := exists_of_mem_right hall hn
    rw [hjob]
    rfl
  have hrepeated : Keeps Unresolved built repeated :=
    relates_split (R := Keeps Unresolved) (fun _ _ hplans hg node hn => hg node (hplans.nodes ▸ hn))
      unresolved_replaceEdges (fun node drivers serial place replica t t' hadd => by
        obtain ⟨overrides, _, hshare, hadd⟩ := bind_eq_ok.mp hadd
        exact trans_of (Keeps Unresolved) ((moves_shareOut _ _ _).of_ok hshare).unresolved
          (unresolved_addNode rfl hadd)) unresolved_setNodeValue hsplit
  have hlast : Keeps Unresolved repeated g :=
    (moves_configure_of (R := Keeps Unresolved) (fun _ _ h => h.unresolved) unresolved_setNodeValue).of_ok
      hconfigure
  exact hlast (hrepeated hstart)

end Unresolved

/-- What the values of a node were resolved to has what all values have. -/
theorem all_of_configuration {P : Value → Prop} (hP : Value.Hereditary P) {name : String}
    {settings : Settings} {g t : Graph} (hg : g.scope.All P) (hu : Unresolved g)
    (h : configuration name g = .ok settings t) : ∀ entry ∈ settings.entries, P entry.2 := by
  have ht : t.scope.All P := ((moves_configuration name).of_ok h).all hP hg
  obtain ⟨_, _, hget, h⟩ := bind_eq_ok.mp h
  obtain ⟨rfl, rfl⟩ := get_eq_ok.mp hget
  cases hfind : g.find? name with
  | none =>
    simp only [hfind] at h
    exact absurd h throw_ne_ok
  | some node =>
    simp only [hfind] at h
    rw [resolvedOf, hu node (List.mem_of_find?_eq_some hfind)] at h
    have hnothing : Recorded g.scope node.name ∅ := fun key v hv => by simp at hv
    obtain ⟨hrecorded, -⟩ := resolveKeys_spec hnothing h
    intro entry hentry
    obtain ⟨leaf, -, -, hlookup⟩ := hrecorded entry.1 entry.2 (Settings.get?_eq_some.mpr hentry)
    exact ht.memory leaf _ hlookup

/-- What the values of a node were resolved to has no list in a list. -/
theorem flat_of_configuration {name : String} {settings : Settings} {g t : Graph}
    (hg : g.scope.Flat) (hu : Unresolved g) (h : configuration name g = .ok settings t) :
    ∀ entry ∈ settings.entries, entry.2.isFlat = true :=
  all_of_configuration hereditary_isFlat (flat_iff.mp hg) hu h

/-- A graph whose values have been resolved, and have no list in a list. -/
structure Finished (g : Graph) : Prop where
  /-- The graph mirrors its nodes. -/
  mirrored : g.Mirrored
  /-- No list holds a list. -/
  flat : g.scope.Flat
  /-- All nodes keep what their values were resolved to. -/
  settled : ∀ node ∈ g.nodes, g.Settled node

/-- The values of a node of a finished graph, resolved and with what they are in the definition laid
under them. -/
theorem Settled.resolved {g : Graph} {node : Node} (h : g.Settled node) {key : String} {v : Value}
    (hv : ((node.resolved?.getD node.overrides).get? key).or (node.spec.declared? key) = some v) :
    (node.resolved?.bind (·.get? key)) = some v ∧ Remembers g.scope node.name key v := by
  obtain ⟨resolved, hresolved, hrecorded, hall⟩ := h
  rw [hresolved, Option.getD_some] at hv
  rw [hresolved, Option.bind_some]
  rcases Option.or_eq_some_iff.mp hv with hgiven | ⟨hnone, hdeclared⟩
  · exact ⟨hgiven, hrecorded key v hgiven⟩
  · have hsome := hall key (by
      rw [Node.configured?, hdeclared, Option.isSome_or]
      exact Bool.or_true _)
    rw [hnone] at hsome
    cases hsome

/-- Graphs of pipelines without a list in a list come out finished. -/
def Finishes (prepare : GraphM Unit) : Prop :=
  ∀ (pipeline : Pipeline) (built prepared : Graph) (u : Unit), pipeline.FlatThroughout →
    build pipeline = .ok built → prepare built = .ok u prepared → prepared.Finished

/-- A graph while nodes are replaced by those of their pipelines. -/
structure Unfolding (filled g : Graph) : Prop where
  /-- The graph mirrors its nodes. -/
  mirrored : g.Mirrored
  /-- No list holds a list. -/
  flat : g.scope.Flat
  /-- Nothing is resolved yet. -/
  unresolved : Unresolved g
  /-- Handles are given out one after another. -/
  nextId : filled.nextId ≤ g.nextId
  /-- Nodes that were there before are still the same. -/
  older : ∀ node ∈ g.nodes, node.id < filled.nextId → node ∈ filled.nodes

section Unfolding

variable {prepare : GraphM Unit} {filled g g' : Graph} {id : NodeId} {u : Unit}

/-- Taking over nodes with what they were resolved to, which has what all values have. -/
theorem all_of_adoptNodes {P : Value → Prop} {owner : String} {inner : Graph}
    (hsettled : ∀ node ∈ inner.nodes, inner.Settled node) (hall : inner.scope.All P)
    {handles : List (NodeId × NodeId)} (hm : g.Mirrored) (hg : g.scope.All P)
    (h : inner.nodes.mapM (adoptNode owner) g = .ok handles g') : g'.scope.All P := by
  refine (mapM_keeps (P := fun t : Graph => t.Mirrored ∧ t.scope.All P)
    (fun old hold t handle t' ht hstep => ?_) ⟨hm, hg⟩ h).2
  obtain ⟨id, _, hadd, hstep⟩ := bind_eq_ok.mp hstep
  obtain ⟨-, rfl⟩ := pure_eq_ok.mp hstep
  refine ⟨(inStep_addNode hadd ht.1).1, all_of_addNode ht.1 ht.2 (fun key v hv => ?_) hadd⟩
  obtain ⟨-, leaf, -, -, hlookup⟩ := (hsettled old hold).resolved hv
  exact hall.memory leaf v hlookup

/-- Putting in the pipeline inside one more node leads on. -/
theorem Unfolding.step (h : Unfolding filled g) (hprepare : Finishes prepare)
    (hid : id < filled.nextId)
    (hnested : ∀ owner ∈ filled.nodes, ∀ nested ∈ owner.spec.nested?,
      Pipeline.FlatThroughout nested)
    (hstep : expandNode prepare id g = .ok u g') : Unfolding filled g' := by
  obtain ⟨hnext, hnodes, -⟩ := mem_of_expandNode hstep
  refine ⟨(relates_expandNode (fun _ _ h => h.inStep) inStep_replaceEdges
    (fun _ _ _ _ _ => inStep_addNode) hstep h.mirrored).1, ?_,
    relates_expandNode (R := Keeps Unresolved) (fun _ _ h => h.unresolved) unresolved_replaceEdges
      (fun _ _ _ _ => unresolved_addNode) hstep h.unresolved, h.nextId.trans hnext,
    fun node hn hlt => h.older node (hnodes node hn (hlt.trans_le h.nextId)) hlt⟩
  cases expands_of_expandNode hstep with
  | plain _ _ => exact h.flat
  | @replaced owner nested settings built inner t t' more _ _ hn hsome hsettings hbuild hinner hadopt
    hbetween =>
    obtain ⟨hin, rfl⟩ := id_of_node? hn
    have hread : SameButMemo g t := (moves_configuration _).of_ok hsettings
    have hflat := (hnested owner (h.older owner hin hid) nested hsome).overlay
      (flat_of_configuration h.flat h.unresolved hsettings)
    have hinner' := hprepare _ _ _ _ hflat hbuild hinner
    have ht' : t'.scope.Flat := flat_iff.mpr (all_of_adoptNodes hinner'.settled
      (flat_iff.mp hinner'.flat) (hread.inStep h.mirrored).1 (flat_iff.mp (hread.flat h.flat)) hadopt)
    exact (((moves_adoptEdges _ _).of_ok hbetween).flat ht' : more.scope.Flat)

/-- The nodes with pipelines of their own are replaced one after another. -/
theorem Unfolding.forM {ids : List NodeId} (h : Unfolding filled g) (hprepare : Finishes prepare)
    (hids : ∀ id ∈ ids, id < filled.nextId)
    (hnested : ∀ owner ∈ filled.nodes, ∀ nested ∈ owner.spec.nested?,
      Pipeline.FlatThroughout nested)
    (hrun : ids.forM (expandNode prepare) g = .ok u g') : Unfolding filled g' :=
  forM_keeps (P := Unfolding filled)
    (fun id hid _ _ _ ht hstep => ht.step hprepare (hids id hid) hnested hstep) h hrun

/-- Resolving all values leaves them what they have. -/
theorem all_of_finalize {P : Value → Prop} (hP : Value.Hereditary P) (hg : g.scope.All P)
    (h : finalize g = .ok u g') : g'.scope.All P := by
  obtain ⟨_, _, hget, h⟩ := bind_eq_ok.mp h
  obtain ⟨rfl, rfl⟩ := get_eq_ok.mp hget
  refine forM_keeps (P := fun t : Graph => t.scope.All P) (fun node _ t v t' ht hstep => ?_) hg h
  obtain ⟨resolved, s, hresolve, hstep⟩ := bind_eq_ok.mp hstep
  obtain rfl := modify_eq_ok.mp hstep
  have hs : s.scope.All P := ((moves_resolveKeys _ _ _).of_ok hresolve).all hP ht
  exact hs

end Unfolding

section Stages

variable {options : CompileOptions} {prepare : GraphM Unit} {pipeline : Pipeline}
  {built repeated filled : Graph} {u v : Unit}

/-- When values have been handed on, the graph is ready for nodes to be replaced. -/
theorem unfolding_of_spread (hpipeline : pipeline.FlatThroughout) (hbuild : build pipeline = .ok built)
    (h : spread built = .ok u filled) : Unfolding filled filled ∧
      (∀ owner ∈ filled.nodes, ∀ nested ∈ owner.spec.nested?, Pipeline.FlatThroughout nested) ∧
      ∀ id ∈ filled.nestedIds, id < filled.nextId := by
  have hunresolved := unresolved_of_spread hbuild h
  have hm : filled.Mirrored := (inStep_spread h (mirrored_build hbuild)).1
  obtain ⟨ho, -⟩ := spread_spec hbuild h
  cases hpipeline with
  | intro hflat hnested =>
    obtain ⟨_, repeated, hsplit, hconfigure⟩ := bind_eq_ok.mp h
    have hfitting := fitting_of_split hflat hbuild hsplit
    obtain ⟨places, -, hrun⟩ := configure_eq_ok (orderly_of_split hbuild hsplit).wellFormed hconfigure
    refine ⟨⟨hm, flat_of_applied hfitting.level.mirrored hfitting.level.flat hfitting.edges hrun,
      hunresolved, le_rfl, fun _ hn _ => hn⟩, fun owner howner => hnested _ (ho.specs owner howner),
      fun id hid => ?_⟩
    obtain ⟨node, hn, rfl⟩ := List.mem_map.mp hid
    exact hm.below _ (List.mem_map_of_mem (List.mem_of_mem_filter hn))

/-- The stages of a preparation end without lists in lists, if those of pipelines inside jobs do. -/
theorem finishes_prepareStages (hprepare : Finishes prepare) :
    Finishes (prepareStages options prepare) := by
  intro pipeline built prepared u hpipeline hbuild h
  rw [prepareStages_eq] at h
  obtain ⟨_, filled, hspread, h⟩ := bind_eq_ok.mp h
  obtain ⟨_, expanded, hexpand, hfinalize⟩ := bind_eq_ok.mp h
  obtain ⟨hstart, hnested, hids⟩ := unfolding_of_spread hpipeline hbuild hspread
  have hlast : Unfolding filled expanded := by
    have hcase := expandWithin_eq_ok hexpand
    split at hcase
    · exact hstart.forM hprepare hids hnested hcase
    · exact hcase ▸ hstart
  obtain ⟨hm, hsettled⟩ := settled_of_finalize hlast.mirrored hfinalize
  exact ⟨hm, flat_iff.mpr (all_of_finalize hereditary_isFlat (flat_iff.mp hlast.flat) hfinalize), hsettled⟩

/-- At any depth preparation ends without lists in lists. -/
theorem finishes_prepareNested (depth : Nat) : Finishes (prepareNested depth) :=
  prepareNested_induct (fun _ _ _ _ _ _ h => absurd h throw_ne_ok)
    (fun _ => finishes_prepareStages) depth

end Stages

end Graph

end Pipework
