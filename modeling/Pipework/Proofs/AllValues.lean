import Pipework.Proofs.Links
import Pipework.Proofs.KeptScopes

/-!
# What all values of a graph have in common

A property of values is hereditary if what a value resolves to has it whenever the value and all that
its references lead to have it. If all values of a pipeline have such a property, so have all values of
the graph that is built from it, those that scopes hold and what is remembered of them. That stays so
when values are found out, when nodes are added, and when nodes are given values that have it.
-/

namespace Pipework

open Step Resolve

/-- All values that scopes hold have the property. -/
def Forest.All (P : Value → Prop) (f : Forest) : Prop := ∀ id raw, f.raw? id = some raw → P raw

/-- Where all values have the property it is passed on to what they resolve to. -/
def Value.Hereditary (P : Value → Prop) : Prop := ∀ f : Forest, f.All P → Inherited f P

/-- All values that are given or are defaults in the definition have the property. -/
structure Pipeline.All (P : Value → Prop) (pipeline : Pipeline) : Prop where
  /-- Those that are given to all jobs. -/
  configuration : ∀ entry ∈ pipeline.configuration.entries, P entry.2
  /-- Those that stand in for them. -/
  defaults : ∀ parameter ∈ pipeline.parameters, ∀ value ∈ parameter.default?, P value
  /-- Those that are given to a job. -/
  given : ∀ job ∈ pipeline.jobs, ∀ entry ∈ job.configuration.entries, P entry.2
  /-- Those that stand in for them. -/
  standing : ∀ job ∈ pipeline.jobs, ∀ parameter ∈ job.parameters, ∀ value ∈ parameter.default?,
    P value

/-- All values that a scope holds or that are remembered have the property. -/
structure ScopeTree.All (P : Value → Prop) (tree : ScopeTree) : Prop where
  /-- Those that a scope holds. -/
  forest : tree.forest.All P
  /-- Those that values resolved to. -/
  memory : ∀ id v, tree.memo.lookup id = some v → P v

section All

variable {P Q : Value → Prop}

/-- A pipeline whose values have a property has values with any that follows. -/
theorem Pipeline.All.mono {pipeline : Pipeline} (h : pipeline.All P) (himp : ∀ v, P v → Q v) :
    pipeline.All Q where
  configuration entry he := himp _ (h.configuration entry he)
  defaults parameter hp v hv := himp v (h.defaults parameter hp v hv)
  given job hj entry he := himp _ (h.given job hj entry he)
  standing job hj parameter hp v hv := himp v (h.standing job hj parameter hp v hv)

/-- What a job declares has the property. -/
theorem Pipeline.All.declared {pipeline : Pipeline} (h : pipeline.All P) {job : Job}
    (hjob : job ∈ pipeline.jobs) {key : String} {value : Value}
    (hvalue : job.declared? key = some value) : P value := by
  rcases Option.or_eq_some_iff.mp hvalue with hgiven | ⟨-, hdefault⟩
  · exact h.given job hjob (key, value) (Settings.get?_eq_some.mp hgiven)
  · obtain ⟨parameter, hp, hvalue⟩ := Option.bind_eq_some_iff.mp hdefault
    exact h.standing job hjob parameter (List.mem_of_find?_eq_some hp) value hvalue

/-- It stays so when values with the property are laid over those that are given to all jobs. -/
theorem Pipeline.All.overlay {pipeline : Pipeline} (h : pipeline.All P) {settings : Settings}
    (hsettings : ∀ entry ∈ settings.entries, P entry.2) :
    Pipeline.All P { pipeline with configuration := pipeline.configuration.overlay settings } :=
  ⟨fun entry hentry => (Settings.mem_overlay hentry).elim (hsettings entry) (h.configuration entry),
    h.defaults, h.given, h.standing⟩

namespace ScopeTree

/-- What is found out in a tree whose values have a hereditary property has it too. -/
theorem All.of_learns {tree tree' : ScopeTree} (hP : Value.Hereditary P) (h : tree.All P)
    (hforest : tree'.forest = tree.forest) (hlearns : Learns tree.forest [] tree.memo tree'.memo) :
    tree'.All P where
  forest := hforest ▸ h.forest
  memory := hlearns.inherits _ (hP _ h.forest) h.memory

/-- What is remembered now will be remembered later. -/
theorem All.of_recalls {tree tree' : ScopeTree} (h : tree'.All P)
    (hforest : tree'.forest = tree.forest) (hrecalls : Recalls tree.memo tree'.memo) : tree.All P where
  forest := hforest ▸ h.forest
  memory id v hv := h.memory id v (hrecalls id v hv)

/-- Where nothing is remembered, only the values in scopes have to have the property. -/
theorem All.of_forgotten {tree : ScopeTree} (h : tree.forest.All P) (hmemo : tree.memo = []) :
    tree.All P where
  forest := h
  memory id v hv := by
    rw [hmemo] at hv
    cases hv

/-- What is read has the property. -/
theorem All.of_resolveAt {tree tree' : ScopeTree} {id : ScopeId} {v : Value}
    (hP : Value.Hereditary P) (h : tree.All P) (hv : resolveAt id tree = .ok v tree') : P v := by
  obtain ⟨memo, hlearns, hsame⟩ := (moves_resolveAt id).of_ok hv
  obtain ⟨memo', hresult, rfl⟩ := resolving_eq_ok.mp hv
  obtain rfl : memo' = memo := congrArg ScopeTree.memo hsame
  have hafter : ScopeTree.All P { tree with memo := memo' } := h.of_learns hP rfl hlearns
  exact hafter.memory id v (lookup_of_scopeValue hresult)

/-- A value with the property may be written. -/
theorem all_of_writes {f f' : Forest} {scope leaf : ScopeId} {key : String} {value : Value}
    (h : f.All P) (hvalue : P value) (hw : Forest.Writes scope key value leaf f f') : f'.All P := by
  intro id raw hraw
  rw [hw.raw] at hraw
  split at hraw
  · exact Option.some.inj hraw ▸ hvalue
  · exact h id raw hraw

end ScopeTree

namespace Graph

/-- Reading values leaves all with the property. -/
theorem SameButMemo.all {g g' : Graph} (hP : Value.Hereditary P) (h : SameButMemo g g')
    (hg : g.scope.All P) : g'.scope.All P := by
  obtain ⟨memo, hlearns, rfl⟩ := h
  exact hg.of_learns hP rfl hlearns

/-- Finding out what a node is repeated for leaves all values with the property. -/
theorem Plans.all {g g' : Graph} (hP : Value.Hereditary P) (h : Plans g g') (hg : g.scope.All P) :
    g'.scope.All P := by
  obtain ⟨memo, edges, hlearns, -, rfl⟩ := h
  exact hg.of_learns hP rfl hlearns

/-- A node is given a value with the property. -/
theorem all_of_setNodeValue {g g' : Graph} (hm : g.Mirrored) (hg : g.scope.All P) {id : NodeId}
    {key : String} {value : Value} (hvalue : P value) {u : Unit}
    (h : setNodeValue id key value g = .ok u g') : g'.scope.All P := by
  cases hnode : g.node? id with
  | none =>
    obtain ⟨-, rfl⟩ := EStateM.Result.ok.inj ((setNodeValue_of_none hnode key value).symm.trans h)
    exact hg
  | some node =>
    obtain ⟨hn, rfl⟩ := id_of_node? hnode
    obtain ⟨scope, leaf, -, hw, hmemo⟩ := writes_of_setNodeValue hm hn h
    exact .of_forgotten (ScopeTree.all_of_writes hg.forest hvalue hw) hmemo

/-- A node with such values is added. -/
theorem all_of_addNode {node : Node} {id : NodeId} {g g' : Graph} (hm : g.Mirrored)
    (hg : g.scope.All P) (hnode : ∀ key v, node.configured? key = some v → P v)
    (h : addNode node g = .ok id g') : g'.scope.All P := by
  obtain ⟨hadds, hmemo, -⟩ := addsScope_of_addNode hm.sound h
  refine ⟨fun id raw hraw => ?_, fun id v hv => ?_⟩
  · rcases hadds.raw id raw hraw with hold | ⟨key, hvalue⟩
    · exact hg.forest id raw hold
    · exact hnode key raw hvalue
  · rcases hmemo with hsame | hnone
    · exact hg.memory id v (hsame ▸ hv)
    · rw [hnone] at hv
      cases hv

/-- The present values of nodes have the property. -/
theorem all_configured {g : Graph} (hm : g.Mirrored) (hg : g.scope.All P) {node : Node}
    (hn : node ∈ g.nodes) {key : String} {v : Value} (hv : node.configured? key = some v) : P v := by
  rw [← hm.entry?_eq hn] at hv
  obtain ⟨leaf, -, hraw⟩ := Option.bind_eq_some_iff.mp hv
  exact hg.forest leaf v hraw

/-- What is read of a value has the property. -/
theorem all_of_propertyValue {id : NodeId} {key : String} {value? : Option Value} {g g' : Graph}
    (hP : Value.Hereditary P) (hg : g.scope.All P) (h : propertyValue id key g = .ok value? g') :
    ∀ v ∈ value?, P v := by
  have hg' := ((moves_propertyValue id key).of_ok h).all hP hg
  intro v hv
  cases hnode : g.node? id with
  | none =>
    obtain ⟨_, _, hget, h⟩ := bind_eq_ok.mp h
    obtain ⟨rfl, rfl⟩ := get_eq_ok.mp hget
    simp only [hnode] at h
    obtain ⟨rfl, -⟩ := pure_eq_ok.mp h
    cases hv
  | some node =>
    obtain ⟨-, rfl⟩ := id_of_node? hnode
    rcases propertyValue_eq_ok hnode h with ⟨rfl, -⟩ | ⟨w, rfl, leaf, -, -, hlookup⟩
    · cases hv
    · obtain rfl := Option.some.inj hv
      exact hg'.memory leaf w hlookup

/-- The values that edges hand on when they find no other have the property. -/
def Stocked (P : Value → Prop) (edges : List Edge) : Prop :=
  ∀ edge ∈ edges, ∀ link, edge.kind = .data link → P link.value

section Links

variable {g g' : Graph} {edges : List Edge} {start : ScopeId} (hP : Value.Hereditary P)
  (hg : g.scope.All P)

include hP hg

/-- Links are made with what outputs resolve to. -/
theorem stocked_of_linksInto {target : NodeId} {parameter : Parameter} {seen : List (NodeId × String)}
    {paths : List (List String)} (h : linksInto target start parameter seen paths g = .ok edges g') :
    Stocked P edges := by
  intro edge he link hk
  obtain ⟨owners, -, hlinks⟩ := linksInto_spec h
  obtain ⟨owner, -, -, -, v, t, t', ht, hvalue, -, rfl⟩ := exists_of_mem_right hlinks he
  obtain rfl := EdgeKind.data.inj hk
  obtain ⟨tree, hread, rfl⟩ := onScope_eq_ok.mp hvalue
  exact (ht.all hP hg).of_resolveAt hP hread

/-- The edges to parameters hand on values with the property. -/
theorem stocked_of_linksOf {node : Node} {parameters : List Parameter}
    (h : linksOf node start parameters g = .ok edges g') : Stocked P edges := by
  intro edge he
  obtain ⟨_, -, _, t, found, t', -, ht, hlinks, hmem⟩ := exists_of_mem_linksOf h he
  exact stocked_of_linksInto hP (ht.all hP hg) hlinks edge hmem

/-- The edges that a node asks for hand on values with the property. -/
theorem stocked_of_findDependencies {id : NodeId} {u : Unit} (hstocked : Stocked P g.edges)
    (h : findDependencies id g = .ok u g') : Stocked P g'.edges := by
  obtain ⟨node, hnode, ⟨-, rfl⟩ | ⟨start, links, t, -, hlinks, rfl⟩⟩ := findDependencies_eq_ok h
  · exact hstocked
  · have ht : SameButMemo g t := (moves_linksOf _ _ _).of_ok hlinks
    intro edge he
    rcases List.mem_append.mp he with he | he
    · exact hstocked edge (ht.edges ▸ he)
    · exact stocked_of_linksOf hP hg hlinks edge he

end Links

section Build

variable {pipeline : Pipeline} (hpipeline : pipeline.All P)

include hpipeline

/-- What all jobs may refer to has the property. -/
theorem all_of_addGlobals {g g' : Graph} {u : Unit} (hn : g.nodes = []) (hm : g.Mirrored)
    (hg : g.scope.All P) (h : addGlobals pipeline g = .ok u g') : g'.scope.All P := by
  have hput : ∀ key value t v t', P value →
      (t.nodes = [] ∧ t.Mirrored ∧ t.scope.All P) → (do
        let _ ← onScope (ScopeTree.put Forest.root key value) : GraphM Unit) t = .ok v t' →
      t'.nodes = [] ∧ t'.Mirrored ∧ t'.scope.All P := by
    rintro key value t v t' hvalue ⟨hnodes, hmt, hall⟩ hstep
    obtain ⟨id, _, hat, hpure⟩ := bind_eq_ok.mp hstep
    obtain ⟨-, rfl⟩ := pure_eq_ok.mp hpure
    obtain ⟨tree, hput, rfl⟩ := onScope_eq_ok.mp hat
    obtain ⟨leaf, hw, hmemo⟩ := ScopeTree.put_eq_ok hmt.sound (.inl rfl) hput
    exact ⟨hnodes, mirrored_of_no_nodes hnodes hw.sound (hmemo ▸ consistent_nil tree.forest),
      .of_forgotten (ScopeTree.all_of_writes hall.forest hvalue hw) hmemo⟩
  obtain ⟨_, g₁, hfirst, hsecond⟩ := bind_eq_ok.mp h
  have hafter := forM_keeps (P := fun t : Graph => t.nodes = [] ∧ t.Mirrored ∧ t.scope.All P)
    (fun entry he t v t' ht hstep =>
      hput entry.1 entry.2 t v t' (hpipeline.configuration entry he) ht hstep) ⟨hn, hm, hg⟩ hfirst
  refine (forM_keeps (P := fun t : Graph => t.nodes = [] ∧ t.Mirrored ∧ t.scope.All P) ?_ hafter
    hsecond).2.2
  rintro parameter hp t v t' ht hstep
  cases hset : pipeline.configuration.get? parameter.name with
  | some value =>
    simp only [hset] at hstep
    obtain ⟨-, rfl⟩ := pure_eq_ok.mp hstep
    exact ht
  | none =>
    cases hdefault : parameter.default? with
    | none =>
      simp only [hset, hdefault] at hstep
      obtain ⟨-, rfl⟩ := pure_eq_ok.mp hstep
      exact ht
    | some value =>
      simp only [hset, hdefault] at hstep
      exact hput parameter.name value t v t' (hpipeline.defaults parameter hp value hdefault) ht hstep

/-- All values of a graph as it is built have what the values of the definition have. -/
theorem all_build {built : Graph} (hP : Value.Hereditary P) (h : build pipeline = .ok built) :
    built.scope.All P := by
  obtain ⟨g₁, ids, g₂, g₃, -, hglobals, hnodes, hafter, hdeps⟩ := build_eq_ok h
  have hstart : (initial pipeline).Mirrored :=
    mirrored_of_no_nodes rfl sound_initial (consistent_nil _)
  have hnothing : (initial pipeline).scope.All P := by
    refine .of_forgotten (fun id raw hraw => ?_) rfl
    cases id with
    | zero => cases hraw
    | succ n => cases hraw
  have hfirst : g₁.Mirrored ∧ g₁.scope.All P :=
    ⟨mirrored_addGlobals rfl hstart hglobals, all_of_addGlobals hpipeline rfl hstart hnothing hglobals⟩
  have hsecond : g₂.Mirrored ∧ g₂.scope.All P := by
    refine mapM_keeps (P := fun t : Graph => t.Mirrored ∧ t.scope.All P)
      (fun job hjob t id t' ht hstep => ⟨(inStep_addNode hstep ht.1).1,
        all_of_addNode ht.1 ht.2 (fun key v hv => ?_) hstep⟩) hfirst hnodes
    exact hpipeline.declared hjob hv
  have hthird : AddsEdges g₂ g₃ := (Moves.forM fun entry _ => moves_afterEdges _ _).of_ok hafter
  have hlast : AddsEdges g₃ built := (Moves.forM fun id _ => moves_findDependencies id).of_ok hdeps
  exact (hsecond.2.of_learns hP hthird.forest hthird.learns).of_learns hP hlast.forest hlast.learns

/-- The edges of a graph as it is built hand on values with the property. -/
theorem stocked_of_build {built : Graph} (hP : Value.Hereditary P) (h : build pipeline = .ok built) :
    Stocked P built.edges := by
  have hall := all_build hpipeline hP h
  obtain ⟨g₁, ids, g₂, g₃, -, hglobals, hnodes, hafter, hdeps⟩ := build_eq_ok h
  obtain ⟨tree, rfl⟩ := (moves_addGlobals pipeline).of_ok hglobals
  have hkinds : ∀ edge ∈ g₃.edges, edge.kind = .after := forM_keeps
    (P := fun t => ∀ edge ∈ t.edges, edge.kind = .after)
    (fun entry _ t v t' ht hstep => after_of_afterEdges ht hstep)
    (by simp [(seeded_of_addNodes hnodes).edges]) hafter
  have hadds : AddsEdges g₃ built := (Moves.forM fun id _ => moves_findDependencies id).of_ok hdeps
  have hstart : Stocked P g₃.edges := by
    intro edge he link hk
    rw [hkinds edge he] at hk
    cases hk
  exact (forM_keeps (P := fun t : Graph => t.scope.All P ∧ Stocked P t.edges)
    (fun id _ t u t' ht hstep => by
      have hmore := (moves_findDependencies id).of_ok hstep
      exact ⟨ht.1.of_learns hP hmore.forest hmore.learns,
        stocked_of_findDependencies hP ht.1 ht.2 hstep⟩)
    ⟨hall.of_recalls hadds.forest hadds.learns.recalls, hstart⟩ hdeps).2

end Build

end Graph

end All

end Pipework
