import Pipework.Proofs.Calls
import Pipework.Proofs.Readiness
import Pipework.Proofs.Singleness

/-!
# What must be given is given

When a compilation finds nothing wrong, the obligatory parameters of the pipeline have values, and so
have those of all nodes of the compiled graph. Every job that runs a tool has such nodes, however deep
the pipeline lies that it belongs to. Jobs that hold a pipeline give way to it, and neither their own
parameters nor those that their pipelines ask for are looked at.
-/

namespace Pipework

open Step Resolve

/-- A job of a list, or one that lies inside jobs of it. The path has the names of the jobs that it
lies in, and its own. -/
inductive Holds : List Job → List String → Job → Prop
  | own {jobs : List Job} {job : Job} (hj : job ∈ jobs) : Holds jobs [job.id] job
  | inside {jobs : List Job} {owner : Job} {nested : Pipeline} {path : List String} {job : Job}
      (howner : owner ∈ jobs) (hnested : owner.nested? = some nested)
      (h : Holds nested.jobs path job) : Holds jobs (owner.id :: path) job

/-- The node of a job has its name, and a repetition is told apart by a suffix. -/
def IsNameFor (job name : String) : Prop :=
  name = job ∨ ∃ serial place, name = job ++ "_" ++ Graph.replicaSuffix serial place

/-- How nodes are called that were made from the job at a path. -/
inductive CalledAfter : List String → String → Prop
  | own {job name : String} (h : IsNameFor job name) : CalledAfter [job] name
  | inside {job owner name : String} {path : List String} (howner : IsNameFor job owner)
      (h : CalledAfter path name) : CalledAfter (job :: path) (owner ++ "_" ++ name)

/-- If all that is found is nothing, so is what each of the steps found. -/
theorem eq_nil_of_mapM {σ α β : Type} {R : σ → σ → Prop} [Std.Refl R] [IsTrans σ R]
    {f : α → StateM σ (List β)} {l : List α} (hf : ∀ a ∈ l, Shifts R (f a)) {s : σ}
    (h : (l.mapM f s).1.flatten = []) {a : α} (ha : a ∈ l) :
    ∃ t, R s t ∧ (f a t).1 = [] ∧ R (f a t).2 (l.mapM f s).2 := by
  induction l generalizing s with
  | nil => cases ha
  | cons b l ih =>
    have hrest : ∀ c ∈ l, Shifts R (f c) := fun c hc => hf c (List.mem_cons_of_mem b hc)
    rw [List.mapM_cons] at h ⊢
    change ((f b s).1 :: (l.mapM f (f b s).2).1).flatten = [] at h
    change ∃ t, R s t ∧ (f a t).1 = [] ∧ R (f a t).2 (l.mapM f (f b s).2).2
    rw [List.flatten_cons, List.append_eq_nil_iff] at h
    rcases List.mem_cons.mp ha with rfl | ha
    · exact ⟨s, refl_of R s, h.1, Shifts.mapM hrest _⟩
    · obtain ⟨t, ht, hnil, hlast⟩ := ih hrest h.2 ha
      exact ⟨t, trans_of R (hf b (by simp) s) ht, hnil, hlast⟩

/-- If what a step comes to is the same wherever the steps before it end, a run comes to what each step
does at first. -/
theorem run_mapM {σ α β : Type} {P : σ → Prop} {f : α → StateM σ β} {result : α → β} {l : List α}
    (hf : ∀ a ∈ l, ∀ s, P s → (f a s).1 = result a ∧ P (f a s).2) {s : σ} (hs : P s) :
    (l.mapM f s).1 = l.map result ∧ P (l.mapM f s).2 := by
  induction l generalizing s with
  | nil => exact ⟨rfl, hs⟩
  | cons a l ih =>
    obtain ⟨hfirst, hnext⟩ := hf a List.mem_cons_self s hs
    obtain ⟨hrest, hlast⟩ := ih (fun b hb => hf b (List.mem_cons_of_mem a hb)) hnext
    rw [List.mapM_cons]
    change (f a s).1 :: (l.mapM f (f a s).2).1 = _ ∧ P (l.mapM f (f a s).2).2
    rw [hfirst, hrest]
    exact ⟨rfl, hlast⟩

/-- The empty list is the only value that counts as one. -/
theorem Value.isEmptyList_iff {v : Value} : v.isEmptyList = true ↔ v = .list [] := by
  match v with
  | .list [] => simp [isEmptyList]
  | .list (_ :: _) | .str _ | .bool _ | .int _ | .float _ => simp [isEmptyList]

namespace Graph

/-- The graphs belong to the same pipeline. -/
def SamePipeline (g g' : Graph) : Prop := g'.pipeline = g.pipeline

instance : Std.Refl SamePipeline := ⟨fun _ => rfl⟩

instance : IsTrans Graph SamePipeline := ⟨fun _ _ _ h h' => h'.trans h⟩

section SamePipeline

/-- A step that keeps the outline keeps the pipeline. -/
theorem SameOutline.samePipeline {g g' : Graph} (h : SameOutline g g') : SamePipeline g g' := by
  have hsame : g'.outline.pipeline = g.outline.pipeline := congrArg Graph.pipeline h
  exact hsame

/-- A step that keeps the outline keeps the pipeline, also in a failure. -/
theorem moves_samePipeline {α : Type} {x : GraphM α} (h : Moves SameOutline x) :
    Moves SamePipeline x := h.mono fun _ _ hsame => hsame.samePipeline

/-- A step on the tree keeps the pipeline. -/
theorem moves_samePipeline_onScope {α : Type} (action : ScopeM α) :
    Moves SamePipeline (onScope action) :=
  moves_samePipeline ((moves_onScope action).mono fun _ _ h => h.sameOutline)

/-- Adding a node keeps the pipeline. -/
theorem samePipeline_addNode (node : Node) : Moves SamePipeline (addNode node) := by
  refine (moves_samePipeline_onScope _).bind fun scope => Moves.bind ?_ fun _ => ?_
  · exact .forM fun entry _ => (moves_samePipeline_onScope _).bind fun _ => .pure _
  · exact Moves.get.bind fun g => Moves.bind (.modify fun g => rfl) fun _ => .pure _

/-- Whatever is asked of a graph, it goes on to belong to its pipeline. -/
theorem covers_samePipeline : Covers SamePipeline where
  plan g g' h := by
    obtain ⟨memo, edges, -, -, rfl⟩ := h
    rfl
  replaceEdges g id edges := rfl
  setEdges g edges := rfl
  addNode := samePipeline_addNode
  setNodeValue id key value := moves_samePipeline (moves_setNodeValue id key value)
  settle g id resolved := rfl

/-- A graph belongs to the pipeline that it was built for. -/
theorem pipeline_of_build {pipeline : Pipeline} {built : Graph} (h : build pipeline = .ok built) :
    built.pipeline = pipeline := by
  obtain ⟨g₁, ids, g₂, g₃, -, hglobals, hnodes, hafter, hdeps⟩ := build_eq_ok h
  have hread : ∀ {α : Type} {x : GraphM α}, Moves SameButMemo x → Moves SamePipeline x :=
    fun h => moves_samePipeline (h.mono fun _ _ hsame => hsame.sameOutline)
  have h₁ : SamePipeline (initial pipeline) g₁ :=
    (moves_samePipeline ((moves_addGlobals pipeline).mono fun _ _ h => h.sameOutline)).of_ok hglobals
  have h₂ : SamePipeline g₁ g₂ :=
    (Moves.mapM fun job _ => samePipeline_addNode (Node.ofJob 0 job)).of_ok hnodes
  have h₃ : SamePipeline g₂ g₃ := by
    refine (Moves.forM fun entry _ => .forM fun after _ => ?_).of_ok hafter
    refine Moves.get.bind fun g => ?_
    cases g.find? after with
    | none => exact .throw _
    | some source => exact .modify fun _ => rfl
  have h₄ : SamePipeline g₃ built := by
    refine (Moves.forM fun id _ => ?_).of_ok hdeps
    refine (hread (moves_nodeAt id)).bind fun node => Moves.get.bind fun g => ?_
    cases g.scopeOf? id with
    | none => exact .pure _
    | some start => exact (hread (moves_linksOf _ _ _)).bind fun _ => .modify fun _ => rfl
  exact trans_of SamePipeline (trans_of SamePipeline h₁ h₂) (trans_of SamePipeline h₃ h₄)

end SamePipeline

section Checking

/-- What a value given to a pipeline as a whole comes to, as far as all that it refers to is
remembered. -/
def given? (graph : Graph) (raw : Value) : Option Value :=
  (valueWith (fromMemory graph.scope.forest graph.scope.memo Forest.root) raw).toOption

/-- What a value comes to at the root is what it comes to later on when more is remembered. -/
theorem given?_of_resolve {tree tree' : ScopeTree} {raw v : Value} {graph : Graph}
    (h : ScopeTree.resolve Forest.root raw tree = .ok v tree')
    (hlast : ScopeTree.SameButMemo tree' graph.scope) : graph.given? raw = some v := by
  obtain ⟨memo, hvalue, rfl⟩ := ScopeTree.resolving_eq_ok.mp h
  obtain ⟨last, hlearns, hscope⟩ := hlast
  have hd : ∀ path ∈ raw.references,
      Moves (Learns tree.forest []) (fromScope tree.forest Forest.root path) ∧
        Answered (fromScope tree.forest Forest.root)
          (fun m => fromMemory tree.forest m Forest.root) path := fun path _ =>
    ⟨moves_follow (fun id reference => moves_scopeValue tree.forest id reference) path,
      answered_follow (fun _ _ _ _ _ hv => lookup_of_scopeValue hv) path⟩
  have hv : valueWith (fromMemory tree.forest last Forest.root) raw = .ok v :=
    valueWith_eq_ok.mpr (value_answered (fun _ _ h => h.recalls) raw hd hvalue hlearns.recalls)
  rw [given?, hscope]
  dsimp only
  rw [hv]
  rfl

/-- A list without elements comes to one. -/
theorem isEmptyList_of_given? {graph : Graph} {raw v : Value} (h : graph.given? raw = some v)
    (hv : v.isEmptyList = false) : raw.isEmptyList = false := by
  match raw, h with
  | .list [], h =>
    obtain rfl : Value.list [] = v := Option.some.inj h
    cases hv
  | .list (_ :: _), _ | .str _, _ | .bool _, _ | .int _, _ | .float _, _ => rfl

/-- A parameter of the pipeline without any value is reported missing. -/
theorem checkPipelineParameter_of_none {parameter : Parameter} {g : Graph}
    (h : (g.pipeline.configuration.get? parameter.name).or parameter.default? = none) :
    checkPipelineParameter parameter g = ([.missingPipelineParameter parameter.name], g) := by
  simp only [checkPipelineParameter, bind, StateT.bind, get, getThe, MonadStateOf.get, StateT.get,
    pure, h]
  rfl

/-- A parameter of the pipeline with a value is reported missing if this resolves to nothing. -/
theorem checkPipelineParameter_of_some {parameter : Parameter} {g : Graph} {raw : Value}
    (h : (g.pipeline.configuration.get? parameter.name).or parameter.default? = some raw) :
    checkPipelineParameter parameter g =
      (if isUnset (attempt (ScopeTree.resolve Forest.root raw) g).1.toOption
        then [.missingPipelineParameter parameter.name] else [],
      (attempt (ScopeTree.resolve Forest.root raw) g).2) := by
  simp only [checkPipelineParameter, bind, StateT.bind, get, getThe, MonadStateOf.get, StateT.get,
    pure, h]
  rfl

/-- A parameter of the pipeline about which nothing is found has a value. -/
theorem given_of_checkPipelineParameter {g graph : Graph} {parameter : Parameter}
    (h : (checkPipelineParameter parameter g).1 = [])
    (hlast : SameButMemo (checkPipelineParameter parameter g).2 graph) :
    ∃ raw v, (g.pipeline.configuration.get? parameter.name).or parameter.default? = some raw ∧
      graph.given? raw = some v ∧ v.isEmptyList = false := by
  cases hraw : (g.pipeline.configuration.get? parameter.name).or parameter.default? with
  | none =>
    rw [checkPipelineParameter_of_none hraw] at h
    cases h
  | some raw =>
    rw [checkPipelineParameter_of_some hraw] at h hlast
    cases hresolve : ScopeTree.resolve Forest.root raw g.scope with
    | error e tree => simp [attempt, hresolve, isUnset, Except.toOption] at h
    | ok v tree =>
      simp only [attempt, hresolve, Except.toOption] at h hlast
      refine ⟨raw, v, rfl, given?_of_resolve hresolve ?_, ?_⟩
      · obtain ⟨memo, hlearns, rfl⟩ := hlast
        exact ⟨memo, hlearns, rfl⟩
      · cases hempty : v.isEmptyList with
        | false => rfl
        | true => simp [isUnset, hempty] at h

/-- A parameter of a node is judged by what its value resolved to. -/
theorem checkParameter_eq {node : Node} {resolved : Settings}
    (hresolved : node.resolved? = some resolved) (parameter : Parameter) (g : Graph) :
    checkParameter node parameter g =
      (parameterFindings node.name parameter (.ok (resolved.get? parameter.name)), g) := by
  rw [checkParameter, hresolved]
  rfl

/-- A parameter of a node lacks a value among those that the node keeps. -/
inductive LacksAmong (resolved : Settings) (parameter : Parameter) : Prop
  /-- There is nothing in it. -/
  | empty (h : resolved.get? parameter.name = some (.list []))
  /-- None is kept, and there is no default with something in it. -/
  | absent (h : resolved.get? parameter.name = none)
      (hdefault : ∀ v, parameter.default? = some v → v = .list [])

/-- A parameter is unset just if it lacks a value among those the node kept. -/
theorem isUnset_iff_lacksAmong {resolved : Settings} {parameter : Parameter} :
    isUnset ((resolved.get? parameter.name).or parameter.default?) = true ↔
      LacksAmong resolved parameter := by
  cases h : resolved.get? parameter.name with
  | some v =>
    rw [Option.some_or, isUnset, Option.all_some, Value.isEmptyList_iff]
    constructor
    · rintro rfl
      exact .empty h
    · rintro (hempty | ⟨hnone, -⟩)
      · exact Option.some.inj (h.symm.trans hempty)
      · rw [h] at hnone
        cases hnone
  | none =>
    rw [Option.none_or, isUnset, Option.all_eq_true]
    constructor
    · exact fun hall => .absent h fun v hv => Value.isEmptyList_iff.mp (hall v hv)
    · rintro (hempty | ⟨-, hdefault⟩)
      · rw [h] at hempty
        cases hempty
      · exact fun v hv => Value.isEmptyList_iff.mpr (hdefault v hv)

instance (resolved : Settings) (parameter : Parameter) : Decidable (LacksAmong resolved parameter) :=
  decidable_of_iff _ isUnset_iff_lacksAmong

/-- What is not lacking has something in it. -/
theorem exists_of_not_lacksAmong {resolved : Settings} {parameter : Parameter}
    (h : ¬ LacksAmong resolved parameter) :
    ∃ v, (resolved.get? parameter.name).or parameter.default? = some v ∧ v.isEmptyList = false := by
  rw [← isUnset_iff_lacksAmong, isUnset] at h
  cases hvalue : (resolved.get? parameter.name).or parameter.default? with
  | none => simp [hvalue] at h
  | some v => exact ⟨v, rfl, by simpa [hvalue] using h⟩

/-- One finding for each of those that are due and lacking. -/
theorem flatten_map_ite {α : Type} (l : List α) (isDue : α → Bool) (lacks : α → Prop)
    [DecidablePred lacks] (finding : α → Finding) :
    ((l.filter isDue).map fun a => if lacks a then [finding a] else []).flatten =
      (l.filter fun a => isDue a ∧ lacks a).map finding := by
  induction l with
  | nil => rfl
  | cons a l ih =>
    rw [List.filter_cons, List.filter_cons]
    by_cases hdue : isDue a <;> by_cases hlacks : lacks a <;> simp [hdue, hlacks, ih]

/-- A parameter of a node is found just if it lacks a value. -/
theorem checkNode_eq {node : Node} {resolved : Settings} (hresolved : node.resolved? = some resolved)
    (g : Graph) : (checkNode node g).1 = (node.spec.parameters.filter fun parameter =>
      parameter.isMandatory ∧ LacksAmong resolved parameter).map
        (.missingParameter node.name ·.name) := by
  have hstep : ∀ parameter ∈ node.spec.parameters.filter (·.isMandatory), ∀ t, True →
      (checkParameter node parameter t).1 =
        parameterFindings node.name parameter (.ok (resolved.get? parameter.name)) ∧ True :=
    fun parameter _ t _ => ⟨congrArg Prod.fst (checkParameter_eq hresolved parameter t), trivial⟩
  have hrun := (run_mapM (P := fun _ => True) hstep (s := g) trivial).1
  change ((node.spec.parameters.filter (·.isMandatory)).mapM (checkParameter node) g).1.flatten = _
  rw [hrun]
  simp only [parameterFindings, isUnset_iff_lacksAmong]
  exact flatten_map_ite _ _ (LacksAmong resolved) (.missingParameter node.name ·.name)

/-- The obligatory parameters of a node about which nothing is found are set. -/
theorem set_of_checkNode {node : Node} {resolved : Settings} {g : Graph}
    (hresolved : node.resolved? = some resolved) (h : (checkNode node g).1 = []) :
    ∀ p ∈ node.spec.parameters, p.isMandatory →
      ∃ v, (resolved.get? p.name).or p.default? = some v ∧ v.isEmptyList = false := by
  intro p hp hmandatory
  rw [checkNode_eq hresolved, List.map_eq_nil_iff, List.filter_eq_nil_iff] at h
  exact exists_of_not_lacksAmong fun hlacks => h p hp (decide_eq_true ⟨hmandatory, hlacks⟩)

/-- No node is left out when a graph is checked. -/
theorem mem_checkOrder {g : Graph} (hw : g.WellFormed) {node : Node} (hn : node ∈ g.nodes) :
    node ∈ g.checkOrder := by
  rw [checkOrder]
  cases horder : g.topologicalOrder with
  | error e => exact hn
  | ok order =>
    obtain ⟨-, hids, hsubset⟩ := ordered_of_topologicalOrder hw.closed horder
    obtain ⟨other, hother, hid⟩ := List.mem_map.mp ((hids node.id).mpr (List.mem_map_of_mem hn))
    obtain rfl := List.inj_on_of_nodup_map hw.nodup (hsubset hother) hn hid
    exact hother

/-- If nothing is found about a graph, the obligatory parameters of its pipeline and of its nodes are
set. -/
theorem set_of_validate {g : Graph} (hw : g.WellFormed) (h : (validate g).1 = []) :
    (∀ p ∈ g.pipeline.parameters, p.isMandatory → ∃ raw v,
      (g.pipeline.configuration.get? p.name).or p.default? = some raw ∧
        (validate g).2.given? raw = some v ∧ v.isEmptyList = false) ∧
    ∀ node ∈ g.nodes, ∀ resolved, node.resolved? = some resolved →
      ∀ p ∈ node.spec.parameters, p.isMandatory →
        ∃ v, (resolved.get? p.name).or p.default? = some v ∧ v.isEmptyList = false := by
  let parameters := g.pipeline.parameters.filter (·.isMandatory)
  have hvalidate : validate g =
      (((parameters.mapM checkPipelineParameter) g).1.flatten ++
        ((g.checkOrder.mapM checkNode) ((parameters.mapM checkPipelineParameter) g).2).1.flatten,
        ((g.checkOrder.mapM checkNode) ((parameters.mapM checkPipelineParameter) g).2).2) := rfl
  rw [hvalidate] at h ⊢
  obtain ⟨hoverall, hown⟩ := List.append_eq_nil_iff.mp h
  refine ⟨fun p hp hmandatory => ?_, fun node hn resolved hresolved => ?_⟩
  · obtain ⟨t, hbefore, hnil, hbehind⟩ := eq_nil_of_mapM (R := SameButMemo)
      (fun q _ => shifts_checkPipelineParameter q) hoverall (List.mem_filter.mpr ⟨hp, hmandatory⟩)
    have hrest : Shifts SameButMemo (g.checkOrder.mapM checkNode) :=
      Shifts.mapM fun node _ => shifts_checkNode node
    have hlast := trans_of SameButMemo hbehind (hrest _)
    have hset := given_of_checkPipelineParameter hnil hlast
    have hsame : t.pipeline = g.pipeline := hbefore.sameOutline.samePipeline
    rwa [hsame] at hset
  · obtain ⟨t, -, hnil, -⟩ := eq_nil_of_mapM (R := SameButMemo)
      (fun node _ => shifts_checkNode node) hown (mem_checkOrder hw hn)
    exact set_of_checkNode hresolved hnil

end Checking

section Lasting

variable {pipeline : Pipeline} {built filled expanded prepared : Graph} {u : Unit}

/-- Each job has a node when all have been repeated. -/
theorem exists_of_job {repeated : Graph} (hbuild : build pipeline = .ok built)
    (h : split built = .ok u repeated) {job : Job} (hj : job ∈ pipeline.jobs) :
    ∃ node ∈ repeated.nodes, node.spec = job ∧ IsNameFor job.id node.name := by
  obtain ⟨hall, -, -, hjobs⟩ := build_spec hbuild
  obtain ⟨origin, horigin, heq⟩ := exists_of_mem_left hall hj
  have hspec : origin.spec = job := by rw [heq]; rfl
  have hname : origin.name = job.id := by rw [heq]; rfl
  -- One of those that the job has become is enough.
  have hcopy : ∃ copy ∈ repeated.copiesOf origin, IsNameFor job.id copy.name := by
    cases (preceding_of_split hbuild h).becomes origin horigin with
    | kept hkept => exact ⟨origin.outline, by simp [hkept], .inl hname⟩
    | repeated _ hseveral hmade _ =>
      have hpos := Nat.zero_lt_of_lt hseveral
      have hfirst := List.getElem?_eq_getElem hpos
      exact ⟨_, List.getElem_mem hpos, .inr ⟨_, 0, hname ▸ (hmade 0 _ hfirst).1⟩⟩
  obtain ⟨copy, hcopy, hcalled⟩ := hcopy
  obtain ⟨node, hn, rfl, hid⟩ := exists_of_mem_copiesOf hcopy
  have hin := (orderly_of_split hbuild h).specs node hn
  exact ⟨node, hn, List.inj_on_of_nodup_map hjobs hin hj (hspec ▸ hid), hcalled⟩

/-- Handing on values takes away none. -/
theorem exists_of_spread (hbuild : build pipeline = .ok built) (h : spread built = .ok u filled)
    {job : Job} (hj : job ∈ pipeline.jobs) :
    ∃ node ∈ filled.nodes, node.spec = job ∧ IsNameFor job.id node.name := by
  obtain ⟨_, repeated, hsplit, hconfigure⟩ := bind_eq_ok.mp h
  obtain ⟨node, hn, hspec, hname⟩ := exists_of_job hbuild hsplit hj
  have hsame : SameOutline repeated filled := moves_configure.of_ok hconfigure
  have hmem : node.outline ∈ filled.nodes.map Node.outline :=
    hsame.map_nodes Node.outline (fun _ => rfl) ▸ List.mem_map_of_mem hn
  obtain ⟨last, hlast, houtline⟩ := List.mem_map.mp hmem
  exact ⟨last, hlast, (spec_of_outline houtline).trans hspec,
    name_of_outline houtline ▸ hname⟩

/-- A node that is not replaced is there in the end, with what it holds. -/
theorem exists_of_finalize (h : finalize expanded = .ok u prepared) {node : Node}
    (hn : node ∈ expanded.nodes) :
    ∃ last ∈ prepared.nodes, last.spec = node.spec ∧ last.name = node.name := by
  have hmem : node.pending ∈ prepared.nodes.map Node.pending :=
    (pending_of_finalize h).2 ▸ List.mem_map_of_mem hn
  obtain ⟨last, hlast, hpending⟩ := List.mem_map.mp hmem
  have hspec : last.pending.spec = node.pending.spec := congrArg Node.spec hpending
  have hname : last.pending.name = node.pending.name := congrArg Node.name hpending
  exact ⟨last, hlast, hspec, hname⟩

/-- Every job that runs a tool has a node when all is prepared, however deep it lies. The induction
follows the path to it. -/
theorem exists_of_holds {jobs : List Job} {path : List String} {job : Job} (h : Holds jobs path job)
    (hplain : job.nested? = none) {pipeline : Pipeline} {built prepared : Graph}
    {options : CompileOptions} {u : Unit} (hjobs : pipeline.jobs = jobs)
    (hon : options.expandNested = true) (hbuild : build pipeline = .ok built)
    (hprepare : prepare options built = .ok u prepared) :
    ∃ node ∈ prepared.nodes, node.spec = job ∧ CalledAfter path node.name := by
  induction h generalizing pipeline built prepared options u with
  | own hj =>
    subst hjobs
    rw [prepare_eq_stages hbuild, prepareStages_eq] at hprepare
    obtain ⟨_, filled, hspread, hprepare⟩ := bind_eq_ok.mp hprepare
    obtain ⟨_, expanded, hexpand, hfinalize⟩ := bind_eq_ok.mp hprepare
    obtain ⟨node, hn, rfl, hname⟩ := exists_of_spread hbuild hspread hj
    have hw := (spread_spec hbuild hspread).1.wellFormed
    obtain ⟨last, hlast, hspec, hcalled⟩ := exists_of_finalize hfinalize
      (stays_of_expandWithin hexpand hw.nodup hn fun _ => hplain)
    exact ⟨last, hlast, hspec, .own (hcalled ▸ hname)⟩
  | inside howner hnested _ ih =>
    subst hjobs
    rw [prepare_eq_stages hbuild, prepareStages_eq] at hprepare
    obtain ⟨_, filled, hspread, hprepare⟩ := bind_eq_ok.mp hprepare
    obtain ⟨_, expanded, hexpand, hfinalize⟩ := bind_eq_ok.mp hprepare
    have hrun := expandWithin_eq_ok hexpand
    rw [if_pos hon] at hrun
    obtain ⟨owner, ho, rfl, hname⟩ := exists_of_spread hbuild hspread howner
    have hawaits := awaits_of_spread hbuild hspread
    have hacyclic := preparesAcyclic_prepare {}
    obtain ⟨pipeline, hhouses⟩ := exists_houses hacyclic hawaits hrun ho hnested
    obtain ⟨within, final, _, hwithin, hfinal, htransplanted⟩ :=
      hhouses.transplanted hacyclic hawaits hrun hfinalize
    obtain ⟨old, hold, hspec, hcalled⟩ := ih hplain (hhouses.jobs hnested) rfl hwithin hfinal
    obtain ⟨last, hlast, hadopted, -⟩ := htransplanted.nodes old hold
    exact ⟨last, hlast, hadopted.spec.trans hspec, hadopted.name ▸ .inside hname hcalled⟩

end Lasting

end Graph

open Pipework.Graph

/-- What a compilation for which nothing is found makes of a pipeline. -/
theorem exists_validated {pipeline : Pipeline} {compiled : Compiled}
    (h : compile {} pipeline = .ok compiled) : ∃ built prepared reduced u v,
      build pipeline = .ok built ∧ prepare {} built = .ok u prepared ∧
      reduce prepared = .ok v reduced ∧ reduced.WellFormed ∧ reduced.nodes = prepared.nodes ∧
      compiled = ⟨(Graph.validate reduced).2, (Graph.validate reduced).1⟩ := by
  cases hbuild : build pipeline with
  | error e => simp [compile, hbuild, bind, Except.bind] at h
  | ok built =>
    rw [compile_eq_inspect hbuild] at h
    cases hstages : compileStages {} built with
    | error e t => simp [hstages] at h
    | ok u reduced =>
      rw [hstages] at h
      obtain ⟨v, prepared, hprepare, hrest⟩ := bind_eq_ok.mp hstages
      obtain ⟨count, _, hreduce, hlast⟩ := bind_eq_ok.mp hrest
      obtain ⟨-, rfl⟩ := pure_eq_ok.mp hlast
      obtain ⟨hw, ha⟩ := preparesAcyclic_prepare {} pipeline built prepared v hbuild hprepare
      rw [reduce_of_acyclic ha hw.closed] at hreduce
      obtain ⟨rfl, rfl⟩ := EStateM.Result.ok.inj hreduce
      refine ⟨built, prepared, _, v, _, rfl, hprepare, reduce_of_acyclic ha hw.closed, ?_, rfl, ?_⟩
      · exact ⟨hw.below, hw.nodup, hw.closed.mono (transitiveReduction_subset prepared.edges)⟩
      · exact (Except.ok.inj h).symm

/-- **What must be given is given.** If a compilation finds nothing wrong, each obligatory parameter
of the pipeline has a value that comes to something other than an empty list. Every job without a
pipeline of its own, at any depth, has a node in the compiled graph, and each obligatory parameter of
each node has a value other than an empty list. -/
theorem complete_of_compile {pipeline : Pipeline} {compiled : Compiled}
    (h : compile {} pipeline = .ok compiled) (hfine : compiled.findings = []) :
    (∀ p ∈ pipeline.parameters, p.isMandatory → ∃ raw v,
      (pipeline.configuration.get? p.name).or p.default? = some raw ∧ raw.isEmptyList = false ∧
        compiled.graph.given? raw = some v ∧ v.isEmptyList = false) ∧
    (∀ path job, Holds pipeline.jobs path job → job.nested? = none →
      ∃ node ∈ compiled.graph.nodes, node.spec = job ∧ CalledAfter path node.name) ∧
    ∀ node ∈ compiled.graph.nodes, ∀ p ∈ node.spec.parameters, p.isMandatory → ∃ v,
      (compiled.graph.outcome? node.id p.name).or p.default? = some v ∧ v.isEmptyList = false := by
  obtain ⟨built, prepared, reduced, u, v, hbuild, hprepare, hreduce, hw, hnodes, rfl⟩ :=
    exists_validated h
  obtain ⟨-, hsettled, -⟩ := settled_of_prepare hbuild hprepare
  obtain ⟨hoverall, hown⟩ := set_of_validate hw hfine
  have hsame : SameButMemo reduced (Graph.validate reduced).2 := shifts_validate reduced
  have hkept : (Graph.validate reduced).2.nodes = prepared.nodes := by
    obtain ⟨memo, -, heq⟩ := hsame
    rw [heq]
    exact hnodes
  have hbelongs : reduced.pipeline = pipeline :=
    (covers_samePipeline.moves_reduce.of_ok hreduce).trans
      ((covers_samePipeline.moves_prepare {}).of_ok hprepare |>.trans (pipeline_of_build hbuild))
  rw [hbelongs] at hoverall
  refine ⟨fun p hp hmandatory => ?_, fun path job hholds hplain => ?_,
    fun node hn p hp hmandatory => ?_⟩
  · obtain ⟨raw, v, hraw, hv, hset⟩ := hoverall p hp hmandatory
    exact ⟨raw, v, hraw, isEmptyList_of_given? hv hset, hv, hset⟩
  · rw [hkept]
    exact exists_of_holds hholds hplain rfl rfl hbuild hprepare
  · rw [hkept] at hn
    obtain ⟨resolved, hresolved, -, -⟩ := hsettled node hn
    obtain ⟨v, hv, hset⟩ := hown node (hnodes ▸ hn) resolved hresolved p hp hmandatory
    have houtcome : (Graph.validate reduced).2.outcome? node.id p.name = resolved.get? p.name := by
      have hat : (Graph.validate reduced).2.node? node.id = some node :=
        (hsame.sameOutline.wellFormed hw).node?_eq_some.mpr (hkept ▸ hn)
      rw [outcome?, hat, Option.bind_some, hresolved, Option.bind_some]
    exact ⟨v, houtcome ▸ hv, hset⟩

/-- Guests come to a dinner, and its courses need them and the wine. -/
def dinner : Pipeline where
  parameters := [{ name := "guests", isMandatory := true }]
  configuration := .ofList [("guests", .list [.str "ann", .str "bob"])]
  jobs := [
    { id := "course"
      parameters := [{ name := "wine", isMandatory := true, default? := some (.str "red") }]
      nested? := some {
        jobs := [
          { id := "serve"
            parameters := [{ name := "plate", isMandatory := true }]
            configuration := .ofList [("plate", .str "soup and $\x7bwine\x7d")] }] } },
    { id := "greet"
      parameters := [{ name := "guest", isMandatory := true }]
      configuration := .ofList [("guest", .str "$\x7bguests\x7d")] }]

theorem dinner_is_complete : ∃ compiled, compile {} dinner = .ok compiled ∧
    compiled.findings = [] ∧
    (∃ raw v, dinner.configuration.get? "guests" = some raw ∧ raw.isEmptyList = false ∧
      compiled.graph.given? raw = some v ∧ v.isEmptyList = false) ∧
    (∃ node ∈ compiled.graph.nodes, CalledAfter ["course", "serve"] node.name ∧
      ∃ v, compiled.graph.outcome? node.id "plate" = some v ∧ v.isEmptyList = false) := by
  have hfound : ((compile {} dinner).toOption.map (·.findings)) = some [] := by decide +kernel
  cases hcompile : compile {} dinner with
  | error e =>
    rw [hcompile] at hfound
    cases hfound
  | ok compiled =>
    have hfine : compiled.findings = [] := by simpa [hcompile, Except.toOption] using hfound
    obtain ⟨hoverall, hjobs, hnodes⟩ := complete_of_compile hcompile hfine
    have hguests := hoverall { name := "guests", isMandatory := true } (by simp [dinner]) rfl
    rw [Option.or_none] at hguests
    refine ⟨compiled, rfl, hfine, hguests, ?_⟩
    have hholds : ∃ job, Holds dinner.jobs ["course", "serve"] job ∧ job.nested? = none ∧
        job.parameters = [{ name := "plate", isMandatory := true }] := by
      have hcourse : dinner.jobs.head (by decide) ∈ dinner.jobs := List.head_mem _
      exact ⟨_, .inside hcourse rfl (.own List.mem_cons_self), rfl, rfl⟩
    obtain ⟨job, hholds, hplain, hparameters⟩ := hholds
    obtain ⟨node, hn, rfl, hcalled⟩ := hjobs _ job hholds hplain
    have hplate := hnodes node hn { name := "plate", isMandatory := true } (by simp [hparameters]) rfl
    rw [Option.or_none] at hplate
    exact ⟨node, hn, hcalled, hplate⟩

/-- What a pass leaves if it is asked for. -/
theorem eq_ok_of_run' {pass : GraphM Unit} {g g' : Graph}
    (h : (do pass; get : GraphM Graph).run' g = some g') : pass g = .ok () g' := by
  cases hpass : pass g with
  | error e t =>
    have hfailed : (do pass; get : GraphM Graph) g = .error e t := bind_eq_error.mpr (.inl hpass)
    delta EStateM.run' EStateM.run at h
    rw [hfailed] at h
    cases h
  | ok u t =>
    have hdone : (do pass; get : GraphM Graph) g = .ok t t := bind_eq_ok.mpr ⟨u, t, hpass, rfl⟩
    delta EStateM.run' EStateM.run at h
    rw [hdone] at h
    exact congrArg (EStateM.Result.ok ()) (Option.some.inj h)

/-- A course that needs wine, and whose pipeline asks for guests, but neither is there. -/
def banquet : Pipeline where
  jobs := [
    { id := "course"
      parameters := [{ name := "wine", isMandatory := true }]
      nested? := some {
        parameters := [{ name := "guests", isMandatory := true }]
        jobs := [{ id := "serve" }] } }]

/-- Nothing is found about the banquet although its course has no wine, and the pipeline inside it no
guests with all that the course gives to it. -/
theorem banquet_lacks_wine : ∃ compiled built filled, compile {} banquet = .ok compiled ∧
    compiled.findings = [] ∧ build banquet = .ok built ∧ spread built = .ok () filled ∧
    ∃ course ∈ filled.nodes, ∃ nested ∈ course.spec.nested?,
      ∃ settings ∈ (configuration course.name).run' filled,
        (∃ p ∈ course.spec.parameters, p.isMandatory ∧
          (settings.get? p.name).or p.default? = none) ∧
        ∃ p ∈ nested.parameters, p.isMandatory ∧
          ((nested.configuration.overlay settings).get? p.name).or p.default? = none := by
  have hfound : ((compile {} banquet).toOption.map (·.findings)) = some [] := by decide +kernel
  obtain ⟨compiled, hcompile, hfine⟩ := Option.map_eq_some_iff.mp hfound
  have hmet : ∃ built ∈ (build banquet).toOption, ∃ filled ∈ (do spread; get : GraphM Graph).run' built,
      ∃ course ∈ filled.nodes, ∃ nested ∈ course.spec.nested?,
      ∃ settings ∈ (configuration course.name).run' filled,
        (∃ p ∈ course.spec.parameters, p.isMandatory ∧
          (settings.get? p.name).or p.default? = none) ∧
        ∃ p ∈ nested.parameters, p.isMandatory ∧
          ((nested.configuration.overlay settings).get? p.name).or p.default? = none := by
    decide +kernel
  obtain ⟨built, hbuild, filled, hspread, hlacks⟩ := hmet
  refine ⟨compiled, built, filled, ?_, hfine, ?_, ?_, hlacks⟩
  · exact eq_ok_of_toOption hcompile
  · exact eq_ok_of_toOption hbuild
  · exact eq_ok_of_run' hspread

end Pipework
