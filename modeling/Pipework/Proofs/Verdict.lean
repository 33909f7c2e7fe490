import Pipework.Proofs.Completeness
import Pipework.Proofs.Display
import Pipework.Proofs.ReferenceCycles

/-!
# What is found about prepared graphs

When a graph has been prepared its nodes have an order and keep what their values resolved to. So
nothing that is found about it depends on how the check goes on: an obligatory parameter is found just
if it lacks a value, those of the pipeline first, and then those of the nodes one after another. That
goes on being so until the graph is prepared again.
-/

namespace Pipework

open Step Resolve

namespace Graph

/-- A graph that was prepared, and then reduced, checked, asked for values and shown in any order. -/
inductive Prepared (pipeline : Pipeline) : Graph → Prop
  | prepare {graph prepared : Graph} {options : CompileOptions} (h : Reachable pipeline graph)
      (hprepare : prepare options graph = .ok () prepared) : Prepared pipeline prepared
  | step {graph : Graph} (h : Prepared pipeline graph) (call : Call)
      (hcall : ∀ options, call ≠ .prepare options) : Prepared pipeline (left (call.run graph))

/-- A parameter of the pipeline lacks a value. -/
inductive LacksOverall (pipeline : Pipeline) (tree : ScopeTree) (parameter : Parameter) : Prop
  /-- None is given, nor is there a default. -/
  | absent (h : (pipeline.configuration.get? parameter.name).or parameter.default? = none)
  /-- It cannot be resolved at the root. -/
  | failing {raw : Value} {e : ScopeError} {tree' : ScopeTree}
      (h : (pipeline.configuration.get? parameter.name).or parameter.default? = some raw)
      (hresolve : ScopeTree.resolve Forest.root raw tree = .error e tree')
  /-- There is nothing in it. -/
  | empty {raw : Value} {tree' : ScopeTree}
      (h : (pipeline.configuration.get? parameter.name).or parameter.default? = some raw)
      (hresolve : ScopeTree.resolve Forest.root raw tree = .ok (.list []) tree')

section Overall

variable {pipeline : Pipeline} {tree : ScopeTree} {parameter : Parameter}

/-- What the value of a parameter of the pipeline comes to, if there is one and it comes to
something. -/
def overall? (pipeline : Pipeline) (tree : ScopeTree) (parameter : Parameter) : Option Value :=
  ((pipeline.configuration.get? parameter.name).or parameter.default?).bind fun raw =>
    (outcome (ScopeTree.resolve Forest.root raw tree)).toOption

theorem isUnset_iff_lacksOverall : isUnset (overall? pipeline tree parameter) = true ↔
    LacksOverall pipeline tree parameter := by
  rw [overall?]
  cases h : (pipeline.configuration.get? parameter.name).or parameter.default? with
  | none => exact ⟨fun _ => .absent h, fun _ => rfl⟩
  | some raw =>
    rw [Option.bind_some]
    cases hresolve : ScopeTree.resolve Forest.root raw tree with
    | error e tree' => exact ⟨fun _ => .failing h hresolve, fun _ => rfl⟩
    | ok v tree' =>
      change Option.all _ (some v) = true ↔ _
      rw [Option.all_some, Value.isEmptyList_iff]
      constructor
      · rintro rfl
        exact .empty h hresolve
      · rintro (hnone | ⟨hraw, hother⟩ | ⟨hraw, hother⟩)
        · rw [h] at hnone
          cases hnone
        · obtain rfl := Option.some.inj (h.symm.trans hraw)
          rw [hresolve] at hother
          cases hother
        · obtain rfl := Option.some.inj (h.symm.trans hraw)
          rw [hresolve] at hother
          exact (EStateM.Result.ok.inj hother).1

instance : Decidable (LacksOverall pipeline tree parameter) :=
  decidable_of_iff _ isUnset_iff_lacksOverall

end Overall

/-! ### Prepared graphs -/

section Prepared

variable {pipeline : Pipeline} {g : Graph}

theorem Prepared.reachable (h : Prepared pipeline g) : Reachable pipeline g := by
  induction h with
  | @prepare graph prepared options h hprepare =>
    have hcall := h.step (.prepare options)
    rwa [Call.run, hprepare] at hcall
  | step _ call _ ih => exact ih.step call

theorem pipeline_of_reachable (h : Reachable pipeline g) : g.pipeline = pipeline := by
  induction h with
  | built hbuild => exact pipeline_of_build hbuild
  | @step graph _ call ih => exact (covers_samePipeline.moves_run call graph).trans ih

/-- A graph that could be prepared has no circle, whatever it was made of. -/
theorem acyclic_of_prepare {options : CompileOptions} {prepared : Graph} {u : Unit}
    (hw : g.WellFormed) (h : prepare options g = .ok u prepared) : Acyclic prepared.edges := by
  rw [prepare_eq, prepareStages_eq] at h
  obtain ⟨_, filled, hspread, h⟩ := bind_eq_ok.mp h
  obtain ⟨_, expanded, hexpand, hfinalize⟩ := bind_eq_ok.mp h
  have hfilled : filled.WellFormed := keeps_spread.of_ok hspread hw
  have hboth := (keeps_expandWithin (preparesAcyclic_prepareNested g.depth) options).of_ok hexpand
    ⟨hfilled, acyclic_of_spread hfilled hspread⟩
  have hsame : SameOutline expanded prepared := moves_finalize.of_ok hfinalize
  exact hsame.edges ▸ hboth.2

/-- Preparing a graph ends with resolving all values. -/
theorem resolved_of_prepare {options : CompileOptions} {prepared : Graph} {u : Unit}
    (hg : g.Attuned) (h : prepare options g = .ok u prepared) :
    ∀ node ∈ prepared.nodes, node.resolved?.isSome := by
  rw [prepare_eq, prepareStages_eq] at h
  obtain ⟨_, filled, hspread, h⟩ := bind_eq_ok.mp h
  obtain ⟨_, expanded, hexpand, hfinalize⟩ := bind_eq_ok.mp h
  have hfilled : filled.Attuned := covers_attuned.moves_spread.of_ok hspread hg
  have hexpanded : expanded.Attuned :=
    (covers_attuned.moves_expandWithin options _).of_ok hexpand hfilled
  intro node hn
  obtain ⟨resolved, hresolved, -⟩ := (settled_of_finalize hexpanded.mirrored hfinalize).2 node hn
  exact Option.isSome_of_eq_some hresolved

/-- Whatever else is asked of a graph, at most edges are dropped and more is remembered. -/
theorem left_run {call : Call} (hcall : ∀ options, call ≠ .prepare options) (hw : g.WellFormed)
    (ha : Acyclic g.edges) : ∃ memo edges, edges ⊆ g.edges ∧
      left (call.run g) = { g with edges, scope := { g.scope with memo } } := by
  have hread : ∀ {g' : Graph}, SameButMemo g g' → ∃ memo edges, edges ⊆ g.edges ∧
      g' = { g with edges, scope := { g.scope with memo } } := by
    rintro _ ⟨memo, -, rfl⟩
    exact ⟨memo, g.edges, List.Subset.refl _, rfl⟩
  cases call with
  | prepare options => exact absurd rfl (hcall options)
  | reduce =>
    refine ⟨g.scope.memo, _, transitiveReduction_subset g.edges, ?_⟩
    have hrun : (do let _ ← reduce : GraphM Unit) g = .ok () _ :=
      bind_eq_ok.mpr ⟨_, _, reduce_of_acyclic ha hw.closed, rfl⟩
    rw [Call.run, hrun]
    rfl
  | validate => exact hread (shifts_validate g)
  | configuration name => exact hread (((moves_configuration name).bind fun _ => .pure _) g)
  | summarize => exact hread ((moves_summarize.bind fun _ => .pure _) g)

/-- A graph that was prepared stays without circles, and its nodes keep what their values resolved
to. -/
theorem Prepared.acyclic_and_resolved (h : Prepared pipeline g) :
    Acyclic g.edges ∧ ∀ node ∈ g.nodes, node.resolved?.isSome := by
  induction h with
  | prepare h hprepare =>
    exact ⟨acyclic_of_prepare h.wellFormed hprepare, resolved_of_prepare h.attuned hprepare⟩
  | step h call hcall ih =>
    obtain ⟨memo, edges, hsub, heq⟩ := left_run hcall h.reachable.wellFormed ih.1
    rw [heq]
    exact ⟨ih.1.mono hsub, ih.2⟩

end Prepared

/-! ### The check -/

/-- What the step on scopes comes to, and what it leaves of them. -/
theorem attempt_eq {α : Type} (action : ScopeM α) (g : Graph) :
    attempt action g = (outcome (action g.scope), { g with scope := left (action g.scope) }) := by
  rw [attempt]
  cases action g.scope <;> rfl

/-- Something was found out since. -/
def Asked (g g' : Graph) : Prop :=
  ∃ memo, Resolve.Recollects g.scope.forest g.scope.memo memo ∧
    g' = { g with scope := { g.scope with memo } }

/-- A value resolves at the root to what it came to at first, whatever was found out since. -/
theorem attempt_resolve {g g' : Graph} (h : Asked g g') (raw : Value) :
    (attempt (ScopeTree.resolve Forest.root raw) g').1 =
        outcome (ScopeTree.resolve Forest.root raw g.scope) ∧
      Asked g (attempt (ScopeTree.resolve Forest.root raw) g').2 := by
  obtain ⟨memo, hmemo, rfl⟩ := h
  have hrun : ∀ tree, ScopeTree.resolve Forest.root raw tree =
      ScopeTree.resolving (Query.resolve Forest.root raw).action tree := fun _ => rfl
  -- What was found out since follows from what was remembered at first, so it does not show.
  obtain ⟨hsame, hleft⟩ := Query.agrees_action g.scope.forest g.scope.memo (.resolve Forest.root raw) memo
    g.scope.memo hmemo (.refl _ _)
  rw [attempt_eq, hrun, hrun, ScopeTree.outcome_resolving, ScopeTree.outcome_resolving]
  refine ⟨hsame, left ((Query.resolve Forest.root raw).action g.scope.forest memo), hleft, ?_⟩
  rw [ScopeTree.resolving]
  dsimp only
  cases (Query.resolve Forest.root raw).action g.scope.forest memo <;> rfl

/-- A parameter of the pipeline is found just if it lacks a value. -/
theorem checkPipelineParameter_spec {g g' : Graph} (h : Asked g g') (parameter : Parameter) :
    (checkPipelineParameter parameter g').1 =
        (if LacksOverall g.pipeline g.scope parameter
          then [.missingPipelineParameter parameter.name] else []) ∧
      Asked g (checkPipelineParameter parameter g').2 := by
  have hpipeline : g'.pipeline = g.pipeline := by
    obtain ⟨memo, -, rfl⟩ := h
    rfl
  simp only [← isUnset_iff_lacksOverall, overall?]
  cases hraw : (g.pipeline.configuration.get? parameter.name).or parameter.default? with
  | none =>
    rw [checkPipelineParameter_of_none (hpipeline ▸ hraw)]
    exact ⟨rfl, h⟩
  | some raw =>
    obtain ⟨hsame, hasked⟩ := attempt_resolve h raw
    rw [checkPipelineParameter_of_some (hpipeline ▸ hraw), hsame]
    exact ⟨rfl, hasked⟩

/-- What is to be found: each obligatory parameter of the pipeline that lacks a value, and node by node
each one that lacks a value among those that the node keeps. -/
def dueFindings (pipeline : Pipeline) (tree : ScopeTree) (order : List Node)
    (resolved : Node → Settings) : List Finding :=
  (pipeline.parameters.filter fun parameter =>
      parameter.isMandatory ∧ LacksOverall pipeline tree parameter).map
        (.missingPipelineParameter ·.name) ++
    order.flatMap fun node => (node.spec.parameters.filter fun parameter =>
      parameter.isMandatory ∧ LacksAmong (resolved node) parameter).map
        (.missingParameter node.name ·.name)

/-- A graph is checked exactly if its nodes have an order and keep what their values resolved to. -/
theorem validate_eq {g : Graph} {order : List Node} (horder : g.topologicalOrder = .ok order)
    {resolved : Node → Settings} (hresolved : ∀ node ∈ order, node.resolved? = some (resolved node)) :
    (validate g).1 = dueFindings g.pipeline g.scope order resolved := by
  let parameters := g.pipeline.parameters.filter (·.isMandatory)
  have hvalidate : (validate g).1 = ((parameters.mapM checkPipelineParameter) g).1.flatten ++
      ((g.checkOrder.mapM checkNode) ((parameters.mapM checkPipelineParameter) g).2).1.flatten := rfl
  have hoverall := (run_mapM (P := Asked g) (l := parameters)
    (fun parameter _ t ht => checkPipelineParameter_spec ht parameter) ⟨_, .refl _ _, rfl⟩).1
  -- What nodes keep is looked at, and so not what the checks before have left.
  have hown := (run_mapM (P := fun _ => True) (l := order)
    (fun node hn t _ => ⟨checkNode_eq (hresolved node hn) t, trivial⟩)
    (s := ((parameters.mapM checkPipelineParameter) g).2) trivial).1
  have hcheck : g.checkOrder = order := by rw [checkOrder, horder]
  rw [hvalidate, hcheck, hoverall, hown, dueFindings, List.flatMap_def,
    flatten_map_ite _ _ (LacksOverall g.pipeline g.scope) (.missingPipelineParameter ·.name)]

/-- The nodes of a graph without circles can be put in an order in which each has its place. -/
theorem exists_perm_of_acyclic {g : Graph} (hw : g.WellFormed) (ha : Acyclic g.edges) :
    ∃ order, g.topologicalOrder = .ok order ∧ order.Perm g.nodes ∧
      Ordered g.edges (order.map (·.id)) := by
  obtain ⟨order, horder⟩ := exists_topologicalOrder ha hw.closed
  obtain ⟨hordered, -, hsub⟩ := ordered_of_topologicalOrder hw.closed horder
  refine ⟨order, horder, ?_, hordered⟩
  have hall : ∀ node, node ∈ order ↔ node ∈ g.nodes := fun node => by
    refine ⟨fun hn => hsub hn, fun hn => ?_⟩
    have hmem := mem_checkOrder hw hn
    rwa [checkOrder, horder] at hmem
  exact (List.perm_ext_iff_of_nodup hordered.nodup.of_map hw.nodup.of_map).mpr hall

/-- What is found about prepared graphs. Their nodes have an order and keep what their values resolve
to, and just the obligatory parameters that lack a value are found: first those of the pipeline, then
those of the nodes in that order. Nothing is found because it cannot be resolved for a node, and the
check leaves nodes, edges and what scopes hold as they were. -/
theorem prepared_is_judged {pipeline : Pipeline} {g : Graph} (h : Prepared pipeline g) :
    ∃ (order : List Node) (resolved : Node → Settings),
      g.topologicalOrder = .ok order ∧ order.Perm g.nodes ∧ Ordered g.edges (order.map (·.id)) ∧
      (∀ node ∈ g.nodes, node.resolved? = some (resolved node) ∧
        configuration node.name g = .ok (resolved node) g) ∧
      (validate g).1 = dueFindings pipeline g.scope order resolved ∧
      (∀ job parameter reason, .unresolvedParameter job parameter reason ∉ (validate g).1) ∧
      (validate g).2.nodes = g.nodes ∧ (validate g).2.edges = g.edges ∧
      (validate g).2.scope.forest = g.scope.forest := by
  have hw := h.reachable.wellFormed
  obtain ⟨hacyclic, hkept⟩ := h.acyclic_and_resolved
  obtain ⟨order, horder, hperm, hordered⟩ := exists_perm_of_acyclic hw hacyclic
  let resolved : Node → Settings := fun node => node.resolved?.getD ∅
  have hresolved : ∀ node ∈ g.nodes, node.resolved? = some (resolved node) := by
    intro node hn
    obtain ⟨own, hown⟩ := Option.isSome_iff_exists.mp (hkept node hn)
    simp [resolved, hown]
  have hfound : (validate g).1 = dueFindings pipeline g.scope order resolved := by
    rw [validate_eq horder fun node hn => hresolved node (hperm.subset hn),
      pipeline_of_reachable h.reachable]
  refine ⟨order, resolved, horder, hperm, hordered, fun node hn => ⟨hresolved node hn, ?_⟩, hfound, ?_,
    ?_⟩
  · exact configuration_of_resolved h.reachable.attuned.mirrored.names hn (hresolved node hn)
  · intro job parameter reason hmem
    simp [hfound, dueFindings] at hmem
  · obtain ⟨memo, -, heq⟩ : SameButMemo g (validate g).2 := shifts_validate g
    rw [heq]
    exact ⟨rfl, rfl, rfl⟩

/-- A supper without guests. What there is to eat is not known, there are no chairs, and the courses
lack plates and wine. -/
def supper : Pipeline where
  parameters := [
    { name := "guests", isMandatory := true },
    { name := "table", isMandatory := true },
    { name := "menu", isMandatory := true },
    { name := "chairs", isMandatory := true, default? := some (.list []) },
    { name := "music" }]
  configuration := .ofList [("table", .str "oak"), ("menu", .str "$\x7bcook.dish\x7d")]
  jobs := [
    { id := "serve"
      after := ["course"]
      parameters := [
        { name := "plates", isMandatory := true, isList := true },
        { name := "spoon", isMandatory := true, default? := some (.str "silver") }]
      configuration := .ofList [("plates", .list [])] },
    { id := "course"
      nested? := some {
        jobs := [{ id := "pour", parameters := [{ name := "wine", isMandatory := true }] }] } }]

theorem supper_lacks_much : ∃ g order resolved, Prepared supper g ∧
    (validate g).1 = [.missingPipelineParameter "guests", .missingPipelineParameter "menu",
      .missingPipelineParameter "chairs", .missingParameter "course_pour" "wine",
      .missingParameter "serve" "plates"] ∧
    g.topologicalOrder = .ok order ∧ dueFindings supper g.scope order resolved = (validate g).1 ∧
    (∀ node ∈ g.nodes, configuration node.name g = .ok (resolved node) g) ∧
    (validate g).2.nodes = g.nodes := by
  obtain ⟨built, -, prepared, hbuild, -, hprepare, hfound⟩ := exists_prepared {} supper
    (fun _ _ prepared => (validate prepared).1 = [.missingPipelineParameter "guests",
      .missingPipelineParameter "menu", .missingPipelineParameter "chairs",
      .missingParameter "course_pour" "wine", .missingParameter "serve" "plates"])
    (by decide +kernel)
  have hprepared : Prepared supper prepared := .prepare (.built hbuild) hprepare
  obtain ⟨order, resolved, horder, -, -, hkept, hdue, -, hnodes, -⟩ := prepared_is_judged hprepared
  exact ⟨prepared, order, resolved, hprepared, hfound, horder, hdue.symm,
    fun node hn => (hkept node hn).2, hnodes⟩

end Graph

end Pipework
