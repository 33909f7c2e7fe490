import Pipework.Proofs.Depth
import Pipework.Proofs.Jobs
import Pipework.Proofs.Lookups
import Pipework.Proofs.SplitLists

/-!
# Whatever is asked of a graph, what is looked up is there

Building a graph and any calls that are made of it, also after calls that failed, look up nodes by
their handles, edges by their places, values by the places of repetitions and scopes by where
references lead. None of this ever fails. Pipelines inside jobs are prepared with as many levels as
there are, and the edges of their graphs are taken over with the handles that their nodes were given.
What is looked up without a check, because it cannot be missing, is there as well.
-/

namespace Pipework

open Step

namespace Forest

variable {f : Forest}

/-- A scope with a name is there. -/
theorem lt_size_of_name? {id : ScopeId} {name : String} (h : f.name? id = some name) : id < f.size := by
  rw [lt_size]
  cases hget : f.get? id with
  | none => simp [name?, hget] at h
  | some scope => rfl

/-- What is found on the levels below has the name that was looked for. -/
theorem name?_of_findWithin {name : String} {levels : Nat} {scopes : List ScopeId} {id : ScopeId}
    (h : f.findWithin name levels scopes = some id) : f.name? id = some name := by
  induction levels generalizing scopes with
  | zero => cases h
  | succ levels ih =>
    rw [findWithin, Option.or_eq_some_iff] at h
    rcases h with h | ⟨-, h⟩
    · simpa using List.find?_some h
    · exact ih h

/-- What the first segment of a reference leads to is called so. -/
theorem name?_of_anchor? {start id : ScopeId} {name : String} (h : f.anchor? start name = some id) :
    f.name? id = some name := by
  rw [anchor?, Option.or_eq_some_iff, Option.or_eq_some_iff] at h
  rcases h with (h | ⟨-, h⟩) | ⟨-, h⟩
  · exact (mem_of_child? h).2
  · obtain ⟨other, -, hat⟩ := List.exists_of_findSome?_eq_some h
    rw [findAt?] at hat
    split at hat
    next hown =>
      obtain rfl := Option.some.inj hat
      simpa using (Bool.and_eq_true_iff.mp hown).2
    next => exact (mem_of_child? hat).2
  · obtain ⟨other, -, hbelow⟩ := List.exists_of_findSome?_eq_some h
    exact name?_of_findWithin hbelow

/-- A way down ends at a scope and takes no more segments than there are. -/
theorem bounds_of_descend? {start id : ScopeId} {path : List String} {consumed : Nat}
    (hstart : start < f.size) (h : f.descend? start path = some (id, consumed)) :
    id < f.size ∧ consumed ≤ path.length := by
  induction path generalizing start consumed with
  | nil =>
    obtain ⟨rfl, rfl⟩ := Prod.mk.inj (Option.some.inj h)
    exact ⟨hstart, le_rfl⟩
  | cons segment rest ih =>
    rw [descend?] at h
    cases hchild : f.child? start segment with
    | some next =>
      simp only [hchild] at h
      obtain ⟨found, hfound, heq⟩ := Option.map_eq_some_iff.mp h
      obtain ⟨rfl, rfl⟩ := Prod.mk.inj heq
      obtain ⟨hid, hle⟩ := ih (lt_size_of_name? (mem_of_child? hchild).2) hfound
      exact ⟨hid, Nat.succ_le_succ hle⟩
    | none =>
      simp only [hchild, Option.ite_none_right_eq_some] at h
      obtain ⟨rfl, rfl⟩ := Prod.mk.inj (Option.some.inj h.2)
      exact ⟨hstart, Nat.zero_le _⟩

/-- So does a reference. -/
theorem bounds_of_lookup? {start id : ScopeId} {path : List String} {consumed : Nat}
    (h : f.lookup? start path = some (id, consumed)) : id < f.size ∧ consumed ≤ path.length := by
  cases path with
  | nil => cases h
  | cons first rest =>
    obtain ⟨anchor, hanchor, h⟩ := Option.bind_eq_some_iff.mp h
    obtain ⟨found, hfound, h⟩ := Option.bind_eq_some_iff.mp h
    obtain ⟨rfl, rfl⟩ := Prod.mk.inj (Option.some.inj h)
    obtain ⟨hid, hle⟩ := bounds_of_descend? (lt_size_of_name? (name?_of_anchor? hanchor)) hfound
    exact ⟨hid, Nat.succ_le_succ hle⟩

end Forest

namespace Graph

/-! ### Building a graph -/

/-- Making the edges that a node asks for finds all nodes and scopes. -/
theorem findsIn_findDependencies {g : Graph} {id : NodeId} (hid : id ∈ g.nodes.map (·.id)) :
    FindsIn (findDependencies id) g := by
  refine (findsIn_nodeAt hid).bind fun node t _ => FailsAt.get_bind ?_
  cases t.scopeOf? id with
  | none => exact FailsFor.pure _ t
  | some start => exact (failsFor_linksOf finds_resolveAt node start _).bind (fun _ => .modify _) t

/-- Putting in what all jobs may refer to finds all scopes. -/
theorem findsIn_addGlobals {g : Graph} (hs : g.scope.forest.Shapely) (pipeline : Pipeline) :
    FindsIn (addGlobals pipeline) g := by
  let R : Graph → Graph → Prop := OnScopes (Keeps fun tree => tree.forest.Shapely)
  have hmoves : ∀ key value, Moves R (do
      let _ ← onScope (ScopeTree.put Forest.root key value) : GraphM Unit) :=
    onScopes_put underlies_shapely Forest.root
  have hput : ∀ key value t, t.scope.forest.Shapely → FindsIn (do
      let _ ← onScope (ScopeTree.put Forest.root key value) : GraphM Unit) t := fun key value t ht =>
    (findsIn_onScope (ScopeTree.failsAt_put ht ht.rooted)).bind fun _ _ _ => FailsFor.pure _ _
  refine FailsAt.bind (FailsAt.forM (R := R) (fun entry _ => hmoves entry.1 entry.2)
    fun entry _ t ht => hput entry.1 entry.2 t (ht hs)) fun _ t hconfigured => ?_
  have ht : t.scope.forest.Shapely :=
    (Moves.forM (R := R) fun entry _ => hmoves entry.1 entry.2).of_ok hconfigured hs
  refine FailsAt.forM (R := R) (fun parameter _ => ?_) fun parameter _ t' ht' => ?_
  · split
    · exact hmoves _ _
    · exact .pure _
  · split
    · exact hput _ _ _ (ht' ht)
    · exact FailsFor.pure _ _

/-- Building a graph looks up nothing that is not there. -/
theorem not_isDangling_of_build {pipeline : Pipeline} {e : GraphError}
    (h : build pipeline = .error e) : ¬ e.IsDangling := by
  have hfinds : FindsIn (construct pipeline) (initial pipeline) := by
    refine (findsIn_addGlobals Forest.shapely_initial pipeline).bind fun _ g₁ hglobals => ?_
    have hg₁ : g₁.Attuned := by
      refine ⟨mirrored_addGlobals rfl ?_ hglobals, ?_⟩
      · exact mirrored_of_no_nodes rfl sound_initial (consistent_nil _)
      · exact (onScopes_addGlobals underlies_shapely pipeline).of_ok hglobals Forest.shapely_initial
    refine FailsAt.bind (FailsAt.mapM (R := Keeps Attuned) (fun _ _ => covers_attuned.addNode _)
      fun job _ t ht => findsIn_addNode (ht hg₁) _) fun ids g₂ hnodes => ?_
    obtain ⟨memo, hglobals⟩ : ∃ scope, g₁ = { initial pipeline with scope } :=
      (moves_addGlobals pipeline).of_ok hglobals
    have hids : ids = g₂.nodes.map (·.id) := (seeded_of_addNodes (hglobals ▸ hnodes)).ids_eq
    have hafter : Moves AddsEdges
        ((pipeline.jobs.zip ids).forM fun entry => afterEdges entry.1 entry.2) :=
      .forM fun entry _ => moves_afterEdges entry.1 entry.2
    refine FailsAt.bind (FailsFor.forM fun entry _ => failsFor_afterEdges entry.1 entry.2
      (by simp [GraphError.IsDangling])).here fun _ g₃ hedges => ?_
    refine FailsAt.forM (R := AddsEdges) (fun id _ => moves_findDependencies id) fun id hid t ht => ?_
    refine findsIn_findDependencies ?_
    rw [ht.nodes, (hafter.of_ok hedges).nodes, ← hids]
    exact hid
  rw [build] at h
  split at h
  · cases hconstruct : construct pipeline (initial pipeline) with
    | ok u graph => simp [hconstruct] at h
    | error cause graph =>
      simp only [hconstruct] at h
      obtain rfl := Except.error.inj h
      exact hfinds _ _ hconstruct
  · cases h
    simp [GraphError.IsDangling]

/-! ### Replacing nodes by what is inside them -/

/-- No node is of a deeper job. -/
abbrev Within (depth : Nat) (g : Graph) : Prop := AllJobs (·.depth ≤ depth) g

/-- No job of a graph has pipelines deeper inside it than the graph is deep. -/
theorem within_depth (g : Graph) : Within g.depth g := by
  have hdepth : g.depth = jobsDepth (g.nodes.map (·.spec)) := by
    rw [depth, ← Nat.zero_max (jobsDepth _), ← foldl_max_depth, List.map_map]
    rfl
  intro node hn
  rw [hdepth]
  exact depth_le_jobsDepth (List.mem_map_of_mem hn)

/-- Graphs of pipelines that are less deep find what they look up when they are prepared in this
way. -/
def PreparesFinding (depth : Nat) (prepare : GraphM Unit) : Prop :=
  ∀ (pipeline : Pipeline) (built : Graph), build pipeline = .ok built →
    jobsDepth pipeline.jobs < depth → FindsIn prepare built

section Expanding

variable {prepare : GraphM Unit} {depth : Nat} (hprepare : PreparesAcyclic prepare)
  (hfinds : PreparesFinding depth prepare)

include hfinds

include hprepare

/-- A node may give way to those of the pipeline inside it, whose edges join only these. -/
theorem findsIn_expandNode {g : Graph} (hg : g.Attuned) {owner : Node} (hn : owner ∈ g.nodes)
    (hdepth : owner.spec.depth ≤ depth) : FindsIn (expandNode prepare owner.id) g := by
  refine (findsIn_nodeAt (List.mem_map_of_mem hn)).bind fun node _ hat => ?_
  obtain ⟨hnode, rfl⟩ := nodeAt_eq_ok.mp hat
  obtain rfl : owner = node := Option.some.inj ((hg.mirrored.node?_eq_some hn).symm.trans hnode)
  cases hnested : owner.spec.nested? with
  | none => exact FailsFor.pure _ g
  | some nested =>
    have hlt := (jobsDepth_lt hnested).trans_le hdepth
    refine (finds_configuration owner.name).here.bind fun settings t hsettings => ?_
    have ht : t.Attuned :=
      covers_attuned.read _ _ ((moves_configuration _).of_ok hsettings) hg
    let inside : Pipeline := { nested with configuration := nested.configuration.overlay settings }
    have hinner : FindsIn (prepareInner prepare inside) t := fun e t' h => by
      obtain ⟨-, hbuild | ⟨built, left, hbuild, hrun⟩⟩ := prepareInner_eq_error.mp h
      · exact not_isDangling_of_build hbuild
      · exact hfinds inside built hbuild hlt e left hrun
    refine hinner.bind fun inner t' hat => ?_
    obtain ⟨rfl, built, v, hbuilt, hprepared⟩ := prepareInner_eq_ok.mp hat
    obtain ⟨hinner, -⟩ := hprepare inside built inner v hbuilt hprepared
    have hadopt : ∀ node ∈ inner.nodes, Moves (Keeps Attuned) (adoptNode owner.name node) :=
      fun _ _ => (covers_attuned.addNode _).bind fun _ => .pure _
    refine FailsAt.bind (FailsAt.mapM hadopt fun node _ t' ht' => ?_) fun handles t₂ hhandles => ?_
    · exact (findsIn_addNode (ht' ht) _).bind fun _ _ _ => FailsFor.pure _ _
    have hlookup : ∀ id ∈ inner.nodes.map (·.id), (handles.lookup id).isSome := by
      intro id hid
      rw [← handles_of_adoptNodes hhandles] at hid
      exact List.lookup_isSome_iff.mpr (by simpa using hid)
    refine FailsAt.bind (FailsFor.mapM fun edge he => ?_).here fun edges t₃ _ =>
      FailsFor.get.bind (fun _ => .modify _) t₃
    obtain ⟨hsource, htarget⟩ := hinner.closed edge he
    exact (finds_ofOption (hlookup _ hsource)).bind fun _ =>
      (finds_ofOption (hlookup _ htarget)).bind fun _ => .pure _

/-- Putting the pipelines inside several nodes in their place finds what it looks up. -/
theorem findsIn_expansions {ids : List NodeId} {g : Graph} (ha : Awaits ids g) (hg : g.Attuned)
    (hdepth : ∀ node ∈ g.nodes, node.id ∈ ids → node.spec.depth ≤ depth) :
    FindsIn (ids.forM (expandNode prepare)) g := by
  induction ids generalizing g with
  | nil => exact FailsFor.pure _ g
  | cons id ids ih =>
    obtain ⟨owner, hn, rfl, -⟩ := ha.nested id List.mem_cons_self
    have hstep := findsIn_expandNode hprepare hfinds hg hn (hdepth owner hn List.mem_cons_self)
    refine FailsAt.bind hstep fun _ t hstep => ?_
    obtain ⟨_, -, hawaits, -, -⟩ := ha.step hprepare hstep
    refine ih hawaits ((covers_attuned.moves_expandNode prepare _).of_ok hstep hg) fun node hin hid => ?_
    -- Who still waits was there before, as its handle was given out.
    obtain ⟨waiting, hwaiting, heq, -⟩ := ha.nested node.id (List.mem_cons_of_mem _ hid)
    have hlt : node.id < g.nextId := heq ▸ ha.wellFormed.below _ (List.mem_map_of_mem hwaiting)
    have hold := (mem_of_expandNode hstep).2.1 node hin hlt
    exact hdepth node hold (List.mem_cons_of_mem _ hid)

/-- The stages of a preparation find what they look up, if pipelines inside jobs are prepared in such a
way. -/
theorem findsIn_prepareStages {g : Graph} (hw : g.WellFormed) (hg : g.Attuned)
    (hdepth : Within depth g) (options : CompileOptions) :
    FindsIn (prepareStages options prepare) g := by
  rw [prepareStages_eq]
  have hspread : FindsIn spread g := (findsIn_split hw hg).bind fun _ t hsplit =>
    findsIn_configure (keeps_split.of_ok hsplit hw) (covers_attuned.moves_split.of_ok hsplit hg)
  refine FailsAt.bind hspread fun _ t hspread => FailsAt.bind ?_ fun _ t' _ =>
    failsFor_finalize finds_resolveAt t'
  have hwt : t.WellFormed := keeps_spread.of_ok hspread hw
  have hgt : t.Attuned := by
    obtain ⟨v, t₁, hsplit, hconfigure⟩ := bind_eq_ok.mp hspread
    have hg₁ := covers_attuned.moves_split.of_ok hsplit hg
    have hmoves : Moves (Keeps Attuned) configure := Moves.get.bind fun _ =>
      (moves_ofExcept _).bind fun _ => .forM fun place _ => covers_attuned.moves_applyEdge place
    exact hmoves.of_ok hconfigure hg₁
  rw [expandWithin]
  split
  · have hids := findsIn_expansions hprepare hfinds
      (awaits_nestedIds hwt (acyclic_of_spread hwt hspread)) hgt
      fun node hn _ => allJobs_spread.of_ok hspread hdepth node hn
    intro e g' h
    rcases bind_eq_error.mp h with h | ⟨_, _, hget, h⟩
    · cases h
    obtain ⟨rfl, rfl⟩ := get_eq_ok.mp hget
    refine hids e g' ?_
    rw [nestedIds]
    simpa using h
  · exact FailsFor.pure _ t

end Expanding

/-- At any depth preparation finds what it looks up. -/
theorem preparesFinding_prepareNested (depth : Nat) :
    PreparesFinding depth (prepareNested depth) := by
  induction depth with
  | zero => exact fun _ _ _ hlt => absurd hlt (Nat.not_lt_zero _)
  | succ depth ih =>
    intro pipeline built hbuild hlt
    rw [prepareNested_succ]
    have hwithin : Within depth built := by
      intro node hn
      refine (within_depth built node hn).trans ?_
      rw [depth_of_build hbuild]
      exact Nat.le_of_lt_succ hlt
    exact findsIn_prepareStages (preparesAcyclic_prepareNested depth) ih (build_spec hbuild).2.1
      (Reachable.built hbuild).attuned hwithin {}

/-! ### Calls -/

/-- Preparing a graph finds what it looks up. -/
theorem findsIn_prepare {g : Graph} (hw : g.WellFormed) (hg : g.Attuned) (options : CompileOptions) :
    FindsIn (prepare options) g := by
  intro e g' h
  rw [prepare_eq] at h
  exact findsIn_prepareStages (preparesAcyclic_prepareNested g.depth)
    (preparesFinding_prepareNested g.depth) hw hg (within_depth g) options e g' h

/-- Showing a graph finds what it looks up. -/
theorem findsIn_summarize {g : Graph} (hw : g.WellFormed) : FindsIn summarize g := by
  have hnode : ∀ node, Moves SameButMemo (summarizeNode node) := fun node =>
    (moves_resolvedOf node).bind fun _ => .pure _
  refine FailsAt.get_bind ((finds_topologicalOrder g).here.bind fun order _ hat => ?_)
  obtain ⟨-, rfl⟩ := ofExcept_eq_ok.mp hat
  have hshown : Finds (order.mapM summarizeNode) := .mapM fun node _ =>
    (failsFor_resolvedOf finds_resolveAt node).bind fun _ => .pure _
  refine FailsAt.bind hshown.here fun nodes t hnodes =>
    FailsAt.get_bind (FailsAt.bind ?_ fun _ t' _ => FailsFor.pure _ t')
  have hsame : SameButMemo g t := (Moves.mapM fun node _ => hnode node).of_ok hnodes
  refine FailsAt.mapM (R := SameButMemo) (fun edge _ => (moves_nodeAt _).bind fun _ =>
    (moves_nodeAt _).bind fun _ => .pure _) fun edge he t' ht' => ?_
  obtain ⟨hsource, htarget⟩ := hw.closed edge (hsame.edges ▸ he)
  have hids := (trans_of SameButMemo hsame ht').sameOutline.ids
  refine (findsIn_nodeAt (hids ▸ hsource)).bind fun _ _ hat => ?_
  obtain ⟨-, rfl⟩ := nodeAt_eq_ok.mp hat
  exact (findsIn_nodeAt (hids ▸ htarget)).bind fun _ _ _ => FailsFor.pure _ _

/-- Whatever is asked of a graph whose handles fit together and whose scopes show its nodes, it finds
what it looks up. -/
theorem findsIn_run {g : Graph} (hw : g.WellFormed) (hg : g.Attuned) (call : Call) :
    FindsIn call.run g := by
  cases call with
  | prepare options => exact findsIn_prepare hw hg options
  | reduce =>
    exact ((failsFor_reduce (by simp [GraphError.IsDangling])).bind fun _ => .pure _).here
  | validate => exact (FailsFor.modify _).here
  | configuration name => exact ((finds_configuration name).bind fun _ => .pure _).here
  | summarize => exact (findsIn_summarize hw).bind fun _ _ _ => FailsFor.pure _ _

end Graph

namespace Step

variable {σ α β : Type} {P : α → Prop} {Q : β → Prop}

/-- Wherever it starts, a step that cannot fail comes out with such a result. -/
def Gives (P : α → Prop) (x : StateM σ α) : Prop := ∀ s, P (x s).1

theorem Gives.pure {a : α} (ha : P a) : Gives P (pure a : StateM σ α) := fun _ => ha

/-- What is given in two parts is given if the second part gives it for what the first gives. -/
theorem Gives.bind {x : StateM σ α} {f : α → StateM σ β} (hx : Gives P x)
    (hf : ∀ a, P a → Gives Q (f a)) : Gives Q (x >>= f) := fun s => hf _ (hx s) _

/-- What is given whatever was read is given. -/
theorem Gives.read {x : StateM σ α} {f : α → StateM σ β} (hf : ∀ a, Gives Q (f a)) :
    Gives Q (x >>= f) := fun s => hf (x s).1 (x s).2

/-- If something is given for each element, it is given for all. -/
theorem Gives.mapM {l : List α} {f : α → StateM σ β} (hf : ∀ a ∈ l, Gives Q (f a)) :
    Gives (fun bs => ∀ b ∈ bs, Q b) (l.mapM f) := by
  induction l with
  | nil => exact .pure fun b hb => absurd hb List.not_mem_nil
  | cons a l ih =>
    rw [List.mapM_cons]
    refine (hf a List.mem_cons_self).bind fun b hb => ?_
    exact (ih fun c hc => hf c (List.mem_cons_of_mem a hc)).bind fun bs hbs => .pure <|
      List.forall_mem_cons.mpr ⟨hb, hbs⟩

end Step

/-- Something that had to be there was not found. -/
def Finding.IsDangling (finding : Finding) : Prop :=
  ∃ job parameter, finding = .unresolvedParameter job parameter .dangling

namespace Graph

/-- An attempt at a step that finds what it looks up comes to no failure to find. -/
theorem gives_attempt {α : Type} {action : ScopeM α} (h : FailsFor (· ≠ .dangling) action) :
    Gives (· ≠ .error .dangling) (attempt action) := by
  intro g
  rw [attempt]
  cases haction : action g.scope with
  | ok a scope => simp
  | error e scope => simpa using h g.scope e scope haction

/-- Whatever is found about a parameter, it is not that something could not be found. -/
theorem not_isDangling_of_parameterFindings {job : String} {parameter : Parameter}
    {value? : Except ScopeError (Option Value)} (h : value? ≠ .error .dangling) :
    ∀ finding ∈ parameterFindings job parameter value?, ¬ finding.IsDangling := by
  intro finding hfinding
  rintro ⟨job', name, rfl⟩
  cases value? with
  | ok value? =>
    rw [parameterFindings] at hfinding
    split at hfinding
    · cases List.mem_singleton.mp hfinding
    · cases hfinding
  | error reason =>
    cases List.mem_singleton.mp hfinding
    exact h rfl

/-- When obligatory parameters are checked, nothing is found for want of what is looked up. -/
theorem not_isDangling_of_validate (g : Graph) :
    ∀ finding ∈ (validate g).1, ¬ finding.IsDangling := by
  have hoverall : ∀ p, Gives (fun found => ∀ finding ∈ found, ¬ finding.IsDangling)
      (checkPipelineParameter p) := by
    have hmissing : ∀ (p : Parameter) value?, @Gives Graph _
        (fun found : List Finding => ∀ finding ∈ found, ¬ finding.IsDangling)
        (pure (if isUnset value? then [.missingPipelineParameter p.name] else [])) := by
      refine fun p value? => .pure fun finding hfinding => ?_
      rintro ⟨job, name, rfl⟩
      split at hfinding
      · cases List.mem_singleton.mp hfinding
      · cases hfinding
    refine fun p => Gives.read fun graph => ?_
    dsimp only
    split
    · exact Gives.read fun value? => hmissing p _
    · exact hmissing p none
  have hparameter : ∀ node p, Gives (fun found => ∀ finding ∈ found, ¬ finding.IsDangling)
      (checkParameter node p) := by
    intro node p
    rw [checkParameter]
    split
    · exact .pure (not_isDangling_of_parameterFindings (by simp))
    · have hread := failsFor_readProperty (ScopeTree.failsFor_query <| .resolveAt ·) node.name p.name
      exact (gives_attempt hread).bind fun value? hne =>
        .pure (not_isDangling_of_parameterFindings hne)
  have hown : ∀ node, Gives (fun found => ∀ finding ∈ found, ¬ finding.IsDangling)
      (checkNode node) := fun node =>
    (Gives.mapM fun p _ => hparameter node p).bind fun found hfound => .pure fun finding hf => by
      obtain ⟨part, hpart, hf⟩ := List.mem_flatten.mp hf
      exact hfound part hpart finding hf
  have hall : Gives (fun found => ∀ finding ∈ found, ¬ finding.IsDangling) validate := by
    refine Gives.read fun graph => (Gives.mapM fun p _ => hoverall p).bind fun overall hoverall => ?_
    refine (Gives.mapM fun node _ => hown node).bind fun own hown => .pure fun finding hf => ?_
    rcases List.mem_append.mp hf with hf | hf
    · obtain ⟨part, hpart, hf⟩ := List.mem_flatten.mp hf
      exact hoverall part hpart finding hf
    · obtain ⟨part, hpart, hf⟩ := List.mem_flatten.mp hf
      exact hown part hpart finding hf
  exact hall g

/-! ### What is looked up without a check -/

/-- The handles, places and names that are found out in a graph and used without a check are right. -/
structure Accessible (g : Graph) : Prop where
  /-- There are nodes at the ends of edges. -/
  ends : ∀ edge ∈ g.edges, (g.node? edge.source).isSome ∧ (g.node? edge.target).isSome
  /-- Places of edges to and from a node are places of edges. -/
  places : ∀ id, ∀ place ∈ g.incoming id ++ g.outgoing id, place < g.edges.length
  /-- The edges along which a node is brought elements of lists are still at their places when the node
  takes them. -/
  shares : ∀ id plan t, drivers id g = .ok plan t → ∀ entry ∈ plan.shares, ∀ share ∈ entry.2,
    share.edge < t.edges.length
  /-- Repetitions are found under their handles also when they were given values, and the name of the
  node and a line stand in front of the suffix in their names. -/
  replicas : ∀ id node plan serial count t ids t₁ t₂, drivers id g = .ok plan t →
    (List.range count).mapM (addReplica node plan serial) t = .ok ids t₁ → SameOutline t₁ t₂ →
      ∀ place replica, ids[place]? = some replica → ∃ added, t₂.node? replica = some added ∧
        added.name = node.name ++ "_" ++ replicaSuffix serial place

/-- Where handles fit together, all that refers to something in the graph finds it. -/
theorem WellFormed.accessible {g : Graph} (hw : g.WellFormed) : g.Accessible where
  ends edge he := by
    have hsome : ∀ id ∈ g.nodes.map (·.id), (g.node? id).isSome := by
      intro id hid
      obtain ⟨node, hn, rfl⟩ := List.mem_map.mp hid
      exact List.find?_isSome.mpr ⟨node, hn, by simp⟩
    exact ⟨hsome _ (hw.closed edge he).1, hsome _ (hw.closed edge he).2⟩
  places id place hplace := by
    rcases List.mem_append.mp hplace with hin | hout
    · exact lt_of_mem_placesWhere hin
    · exact lt_of_mem_placesWhere hout
  shares id plan t h entry he share hs := by
    obtain ⟨edge, hedge, -⟩ := (traced_of_drivers h).shares entry he share hs
    rw [((moves_drivers id).of_ok h).retains.edges.length_eq]
    exact (List.getElem?_eq_some_iff.mp hedge).1
  replicas id node plan serial count t ids t₁ t₂ hplan hadd hsame place replica hreplica := by
    have hwt : t.WellFormed := ((moves_drivers id).of_ok hplan).retains.wellFormed hw
    obtain ⟨added, hextends, rfl, hall⟩ := extends_of_addReplicas hadd
    have hw₂ : t₂.WellFormed := hsame.wellFormed (hextends.wellFormed hwt)
    rw [List.getElem?_map] at hreplica
    obtain ⟨made, hmade, rfl⟩ := Option.map_eq_some_iff.mp hreplica
    obtain ⟨place', hplace, _, _, _, -, heq⟩ := exists_at_of_forall₂ hall hmade
    obtain rfl : place' = place := by
      obtain ⟨hbound, hrange⟩ := List.getElem?_eq_some_iff.mp hplace
      simpa using hrange.symm
    have hname : made.name = node.name ++ "_" ++ replicaSuffix serial place' := by
      rw [heq]
      rfl
    have hmem : made ∈ t₁.nodes := by
      obtain ⟨-, scope, rfl⟩ := hextends
      exact List.mem_append_right _ (List.mem_of_getElem? hmade)
    have hshape : made.outline ∈ t₂.nodes.map Node.outline := by
      rw [hsame.map_nodes Node.outline fun _ => rfl]
      exact List.mem_map_of_mem hmem
    obtain ⟨kept, hkept, houtline⟩ := List.mem_map.mp hshape
    refine ⟨kept, ?_, ?_⟩
    · rw [← id_of_outline houtline]
      exact hw₂.node?_eq_some.mpr hkept
    · rw [name_of_outline houtline, hname]

/-- Graphs are accessible before each turn of a node. -/
theorem accessible_of_turns {g t : Graph} {done rest : List Node} {u : Unit} (hw : g.WellFormed)
    (horder : g.topologicalOrder = .ok (done ++ rest))
    (hturns : done.forM (splitNode ·.id) g = .ok u t) : t.Accessible := by
  have hmoves : Moves (Keeps Sturdy) (done.forM (splitNode ·.id)) :=
    .forM fun node _ => keeps_splitNode node.id
  exact (hmoves.of_ok hturns (sturdy_of_topologicalOrder hw horder)).wellFormed.accessible

/-- The segments behind those that name an output are the rest of at least two. -/
theorem bounds_of_fieldsOf? {property : String} {names path fields : List String}
    (h : Merge.fieldsOf? property names path = some fields) :
    2 ≤ path.length ∧ fields = path.drop 2 := by
  unfold Merge.fieldsOf? at h
  split at h
  · split at h
    · obtain rfl := Option.some.inj h
      exact ⟨by simp, rfl⟩
    · cases h
  · cases h

/-- **Bounds.** No graph is built or called, in whatever state earlier calls have left it, such that a
node, an edge, an element, a scope or a place that is looked up is missing. Nor is it a finding of the
check of obligatory parameters. What is not checked when it is used is there too, also before each turn
of a node. Nothing that is asked of scopes fails for want of one or of an element of a list, references
take no more segments than they have, and links of scopes are right after every change that calls are
made of. -/
theorem lookups_succeed {pipeline : Pipeline} :
    (∀ e, build pipeline = .error e → ¬ e.IsDangling) ∧
    (∀ graph, Reachable pipeline graph →
      (∀ (call : Call) e left, call.run graph = .error e left → ¬ e.IsDangling) ∧
      (∀ finding ∈ (validate graph).1, ¬ finding.IsDangling) ∧ graph.Accessible ∧
      ∀ done rest u t, graph.topologicalOrder = .ok (done ++ rest) →
        done.forM (splitNode ·.id) graph = .ok u t → t.Accessible) ∧
    (∀ (query : Query) tree left, query.run tree ≠ .error .dangling left) ∧
    (∀ (f : Forest) start path id consumed, f.lookup? start path = some (id, consumed) →
      id < f.size ∧ consumed ≤ path.length) ∧
    (Covers (Keeps Attuned) ∧ ∀ graph : Graph, graph.Attuned →
      Forest.root < graph.scope.forest.size ∧
      ∀ parent, ∀ child ∈ graph.scope.forest.children parent,
        parent < graph.scope.forest.size ∧ child < graph.scope.forest.size) ∧
    ∀ property names path fields, Merge.fieldsOf? property names path = some fields →
      2 ≤ path.length ∧ fields = path.drop 2 := by
  refine ⟨fun e h => not_isDangling_of_build h, fun graph hreach => ?_, fun query tree left h => ?_,
    fun f start path id consumed => Forest.bounds_of_lookup?, ⟨covers_attuned, fun graph hg => ?_⟩,
    fun _ _ _ _ => bounds_of_fieldsOf?⟩
  · have hw := hreach.wellFormed
    exact ⟨fun call => findsIn_run hw hreach.attuned call, not_isDangling_of_validate graph,
      hw.accessible, fun done rest u t => accessible_of_turns hw⟩
  · exact ScopeTree.failsFor_query query tree .dangling left h rfl
  · refine ⟨hg.shapely.rooted, fun parent child hc => ?_⟩
    have hchild := hg.shapely.lt_size hc
    have holder := hg.shapely.older child parent ((hg.shapely.linked child parent).mp hc)
    exact ⟨holder.trans hchild, hchild⟩

/-- When the knot was found, the graph that is left cannot be prepared either, but nothing is missing. Nor
is it in a pipeline that is not built, since a job comes after one that is not there. -/
theorem torn_knot_lacks_nothing : (∃ e,
      build { jobs := [{ id := "work", after := ["fetch"] }] } = .error e ∧ ¬ e.IsDangling) ∧
    ∃ built e graph e' rest, build knot = .ok built ∧ prepare {} built = .error e graph ∧
    Reachable knot graph ∧ (Call.prepare {}).run graph = .error e' rest ∧
    ¬ e.IsDangling ∧ ¬ e'.IsDangling ∧ graph.Accessible ∧
    Merge.fieldsOf? "part" ["fetch"] ["fetch", "part", "name"] = some ["name"] ∧
    ["name"] = ["fetch", "part", "name"].drop 2 := by
  have hfindings : Structure.findings { jobs := [{ id := "work", after := ["fetch"] }] } =
      [.unknownAfter "work" "fetch"] := by decide +kernel
  have hunbuilt : build { jobs := [{ id := "work", after := ["fetch"] }] } =
      .error (.invalidPipeline [.unknownAfter "work" "fetch"]) := by rw [build, hfindings]
  refine ⟨⟨_, hunbuilt, lookups_succeed.1 _ hunbuilt⟩, ?_⟩
  obtain ⟨built, e, graph, e', rest, hbuild, hprepare, hreach, hrest⟩ := knot_fails_again
  obtain ⟨-, hcalls, -, -, -, hfields⟩ := @lookups_succeed knot
  obtain ⟨hfine, -, haccessible, -⟩ := hcalls graph hreach
  have hpart : Merge.fieldsOf? "part" ["fetch"] ["fetch", "part", "name"] = some ["name"] := by
    decide
  exact ⟨built, e, graph, e', rest, hbuild, hprepare, hreach, hrest,
    (hcalls built (.built hbuild)).1 (.prepare {}) e graph hprepare,
    hfine (.prepare {}) e' rest hrest, haccessible, hpart, (hfields _ _ _ _ hpart).2⟩

end Graph

end Pipework
