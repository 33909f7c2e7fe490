import Pipework.Proofs.Arrival
import Pipework.Proofs.Display
import Pipework.Proofs.Turns

/-!
# Just the edges that are asked for

In a graph as it is built, edges come first from what jobs ask to come after, and then from
references, parameter by parameter. A scope of such a graph lies in the root or in a scope of the
root, so where a reference leads tells which output it is, if it is one. Each output of another job
makes one edge where it is first mentioned, and there are no others.
-/

namespace Pipework

open Step Resolve

/-! ### Where scopes lie -/

namespace Forest

/-- Every scope but the root lies in another one. -/
def Planted (f : Forest) : Prop := ∀ id < f.size, id ≠ root → ∃ parent, f.parent? id = some parent

/-- At first there is the root only. -/
theorem planted_initial : initial.Planted := fun _ hid hne => absurd (Nat.lt_one_iff.mp hid) hne

section Planted

variable {f : Forest} (h : f.Planted)

include h

/-- A scope that is added lies in another one. -/
theorem Planted.addChild {parent : ScopeId} (hp : parent < f.size) (name : String) :
    (f.addChild parent name).Planted := by
  intro id hid hne
  rw [parent?_addChild hp]
  split
  · exact ⟨parent, rfl⟩
  next hold =>
    refine h id ?_ hne
    rw [size, Forest.addChild, modify, List.length_modify, List.length_append] at hid
    exact Nat.lt_of_le_of_ne (Nat.le_of_lt_succ hid) hold

/-- Setting a value leaves what lies in what. -/
theorem Planted.setEntry (target : ScopeId) (entry : Entry) : (f.setEntry target entry).Planted := by
  intro id hid hne
  rw [parent?_setEntry]
  rw [size, Forest.setEntry, modify, List.length_modify] at hid
  exact h id hid hne

variable (hf : f.Sound) (hs : f.Shapely)

include hf hs

/-- A scope is the root, lies in the root, or in a scope of the root. -/
theorem Planted.depth {id : ScopeId} (hid : id < f.size) :
    id = root ∨ id ∈ f.children root ∨ ∃ scope ∈ f.children root, id ∈ f.children scope := by
  induction id using Nat.strong_induction_on with
  | _ id ih =>
    by_cases hroot : id = root
    · exact .inl hroot
    · obtain ⟨parent, hparent⟩ := h id hid hroot
      have hlt := hs.older id parent hparent
      have hin := (hs.linked id parent).mpr hparent
      rcases ih parent hlt (hlt.trans hid) with rfl | htop | ⟨scope, htop, hscope⟩
      · exact .inr (.inl hin)
      · exact .inr (.inr ⟨parent, htop, hin⟩)
      · rw [hf.flat scope htop parent hscope] at hin
        cases hin

/-- Two names on the way to a scope are those of a scope of the root and of a key in it. -/
theorem Planted.leaf?_of_pathOf {leaf : ScopeId} {owner key : String} {rest : List String}
    (hpath : f.pathOf leaf = owner :: key :: rest) : f.leaf? owner key = some leaf := by
  have hchild : ∀ {parent id : ScopeId}, id ∈ f.children parent →
      ∃ name, f.child? parent name = some id := by
    intro parent id hmem
    obtain ⟨name, hname⟩ := hs.exists_name hmem
    refine ⟨name, ?_⟩
    rw [child?, ← hname]
    exact find?_eq_some_of_nodup (hs.names parent) hmem
  have hshort : ∀ {id : ScopeId}, id ∈ f.children root → (f.pathOf id).length ≤ 1 := by
    intro id hmem
    have hparent := hf.parent root id hmem
    rw [pathOf, chain_of_parent? hf hparent]
    exact (List.length_filterMap_le _ _).trans (by simp [hparent, hf.top])
  cases hparent : f.parent? leaf with
  | none =>
    have hnil : f.pathOf leaf = [] := by
      rw [pathOf, chain]
      cases leaf with
      | zero => simp [chainWithin, hparent]
      | succ n => simp [chainWithin, hparent]
    rw [hnil] at hpath
    cases hpath
  | some parent =>
    rcases h.depth hf hs (lt_size_of_parent? hparent) with rfl | htop | ⟨scope, htop, hin⟩
    · rw [hf.top] at hparent
      cases hparent
    · have hle := hshort htop
      rw [hpath] at hle
      simp at hle
    · obtain ⟨name, hname⟩ := hchild htop
      obtain ⟨other, hother⟩ := hchild hin
      rw [pathOf_of_child? hf hname hother] at hpath
      obtain ⟨rfl, hkey⟩ := List.cons.inj hpath
      obtain ⟨rfl, -⟩ := List.cons.inj hkey
      rw [leaf?, hname, Option.bind_some, hother]

end Planted

end Forest

namespace ScopeTree

/-- Adding a scope, or failing to, leaves every scope but the root in another one. -/
theorem keepsPlanted_createChild (parent : ScopeId) (name : String) :
    Moves (Keeps fun tree : ScopeTree => tree.forest.Planted) (createChild parent name) := by
  intro tree hplanted
  cases h : createChild parent name tree with
  | ok id tree' =>
    obtain ⟨hp, -, -, -, rfl⟩ := createChild_eq_ok h
    exact hplanted.addChild hp name
  | error e tree' =>
    obtain rfl := createChild_eq_error h
    exact hplanted

/-- Storing a value, or failing to, leaves every scope but the root in another one. -/
theorem keepsPlanted_store (id : ScopeId) (value : Value) (binding? : Option Binding) :
    Moves (Keeps fun tree : ScopeTree => tree.forest.Planted) (store id value binding?) := by
  intro tree hplanted
  cases h : store id value binding? tree with
  | ok u tree' =>
    obtain ⟨-, kept, rfl⟩ := store_eq_ok h
    exact hplanted.setEntry id _
  | error e tree' =>
    obtain rfl := store_eq_error h
    exact hplanted

/-- Graphs take no scope out of the one around it. -/
theorem underlies_planted : Underlies (Keeps fun tree => tree.forest.Planted) where
  learn tree tree' hforest _ hplanted := by
    change tree'.forest.Planted
    rwa [hforest]
  createChild := keepsPlanted_createChild
  put scope key := moves_put_of (keepsPlanted_createChild scope key) fun id value =>
    keepsPlanted_store id value none

end ScopeTree

namespace Graph

/-! ### Which output a reference leads to -/

/-- The outputs of all nodes. -/
def outputs (g : Graph) : List (Node × Parameter) :=
  g.nodes.flatMap fun node => (node.spec.parameters.filter (·.isOutput)).map (node, ·)

/-- The outputs of a graph are the outputs among the parameters of its nodes. -/
theorem mem_outputs {g : Graph} {output : Node × Parameter} : output ∈ g.outputs ↔
    output.1 ∈ g.nodes ∧ output.2 ∈ output.1.spec.parameters ∧ output.2.isOutput := by
  obtain ⟨node, parameter⟩ := output
  simp only [outputs, List.mem_flatMap, List.mem_map, List.mem_filter, Prod.mk.injEq]
  constructor
  · rintro ⟨_, hn, _, hp, rfl, rfl⟩
    exact ⟨hn, hp⟩
  · rintro ⟨hn, hp⟩
    exact ⟨node, hn, parameter, hp, rfl, rfl⟩

/-- The output whose value lies in a scope, by the handle of its node and its name. -/
def outputAt? (g : Graph) (leaf : ScopeId) : Option (NodeId × String) :=
  (g.outputs.find? fun output =>
    g.scope.forest.leaf? output.1.name output.2.name == some leaf).map
      fun output => (output.1.id, output.2.name)

/-- What is known of the nodes and scopes of a graph as it is built. -/
structure Charted (g : Graph) : Prop where
  /-- The scopes hold the values of the nodes. -/
  mirrored : g.Mirrored
  /-- They hang together as a tree. -/
  shapely : g.scope.forest.Shapely
  /-- There are none beside it. -/
  planted : g.scope.forest.Planted
  /-- The parameters of a node have different names. -/
  distinct : g.Distinct

/-- All this is known of a graph as it is built, if the parameters of each job have different names. -/
theorem charted_build {pipeline : Pipeline} {g : Graph} (h : build pipeline = .ok g)
    (hnames : ∀ job ∈ pipeline.jobs, (job.parameters.map (·.name)).Nodup) : g.Charted where
  mirrored := mirrored_build h
  shapely := onScopes_build underlies_shapely h Forest.shapely_initial
  planted := onScopes_build ScopeTree.underlies_planted h Forest.planted_initial
  distinct node hn := hnames node.spec (nodes_of_build h node hn).1

/-- An output of a graph. -/
structure OutputOwner.Of (owner : OutputOwner) (g : Graph) (leaf : ScopeId) : Prop where
  /-- The node is one of the graph. -/
  node : owner.node ∈ g.nodes
  /-- The parameter is one of the node. -/
  parameter : owner.parameter ∈ owner.node.spec.parameters
  /-- The job writes it. -/
  isOutput : owner.parameter.isOutput
  /-- Its value lies in the scope. -/
  held : g.scope.forest.leaf? owner.node.name owner.parameter.name = some leaf
  /-- The scope is the one found. -/
  scope : owner.scope = leaf

section Charted

variable {g : Graph} (h : g.Charted)

include h

/-- The owner that is found of a scope is the output whose value lies there. -/
theorem outputOwner?_eq_some {leaf : ScopeId} {owner : OutputOwner} :
    g.outputOwner? leaf = some owner ↔ owner.Of g leaf := by
  constructor
  · intro howner
    obtain ⟨hin, hp⟩ := outputOwner?_spec howner
    have hscope := leaf?_of_outputOwner? howner
    rw [outputOwner?] at howner
    split at howner
    next name key rest hpath =>
      simp only [Option.bind_eq_bind, Option.bind_eq_some_iff] at howner
      obtain ⟨node, hn, parameter, hp', scope, -, howner⟩ := howner
      split at howner
      next hout =>
        cases howner
        have hname : node.name = name := by simpa using List.find?_some hn
        have hkey : parameter.name = key := by simpa using List.find?_some hp'
        have hleaf := h.planted.leaf?_of_pathOf h.mirrored.sound h.shapely hpath
        rw [hname, hkey, hleaf] at hscope
        obtain rfl := Option.some.inj hscope
        exact ⟨hin, List.mem_of_find?_eq_some hp', hout, by rw [hname, hkey, hleaf], rfl⟩
      next => cases howner
    next => cases howner
  · rintro ⟨hin, hp, hout, hleaf, rfl⟩
    have hfirst : owner.node.parameter? owner.parameter.name = some owner.parameter :=
      find?_eq_some_of_nodup (h.distinct owner.node hin) hp
    exact outputOwner?_eq h.mirrored hin hfirst hout hleaf

/-- The output in a scope is the one that is found when edges are made. -/
theorem outputAt?_eq (leaf : ScopeId) : g.outputAt? leaf =
    (g.outputOwner? leaf).map fun owner => (owner.node.id, owner.parameter.name) := by
  cases howner : g.outputOwner? leaf with
  | none =>
    have hnone : g.outputs.find? (fun output =>
        g.scope.forest.leaf? output.1.name output.2.name == some leaf) = none := by
      refine List.find?_eq_none.mpr fun output ho hat => ?_
      obtain ⟨hn, hp, hout⟩ := mem_outputs.mp ho
      have hof : (⟨output.1, output.2, leaf⟩ : OutputOwner).Of g leaf :=
        ⟨hn, hp, hout, eq_of_beq hat, rfl⟩
      rw [(outputOwner?_eq_some h).mpr hof] at howner
      cases howner
    rw [outputAt?, hnone, Option.map_none, Option.map_none]
  | some owner =>
    obtain ⟨hn, hp, hout, hleaf, -⟩ := (outputOwner?_eq_some h).mp howner
    have hin : (owner.node, owner.parameter) ∈ g.outputs := mem_outputs.mpr ⟨hn, hp, hout⟩
    obtain ⟨output, ho⟩ : ∃ output, g.outputs.find? (fun output =>
        g.scope.forest.leaf? output.1.name output.2.name == some leaf) = some output :=
      Option.isSome_iff_exists.mp (List.find?_isSome.mpr ⟨_, hin, beq_iff_eq.mpr hleaf⟩)
    obtain ⟨hn', hp', hout'⟩ := mem_outputs.mp (List.mem_of_find?_eq_some ho)
    have hat : g.scope.forest.leaf? output.1.name output.2.name = some leaf := by
      simpa using List.find?_some ho
    have hof : (⟨output.1, output.2, leaf⟩ : OutputOwner).Of g leaf := ⟨hn', hp', hout', hat, rfl⟩
    obtain rfl := Option.some.inj (howner.symm.trans ((outputOwner?_eq_some h).mpr hof))
    rw [outputAt?, ho, Option.map_some, Option.map_some]

/-- An output is in a scope just if that is the scope of its name in the one of its node. -/
theorem outputAt?_eq_some {source : Node} (hs : source ∈ g.nodes) {output : Parameter}
    (ho : output ∈ source.spec.parameters) (hout : output.isOutput) {leaf : ScopeId} :
    g.outputAt? leaf = some (source.id, output.name) ↔
      g.scope.forest.leaf? source.name output.name = some leaf := by
  rw [outputAt?_eq h, Option.map_eq_some_iff]
  constructor
  · rintro ⟨owner, howner, hkey⟩
    obtain ⟨hid, hname⟩ := Prod.mk.inj hkey
    obtain ⟨hn, -, -, hleaf, -⟩ := (outputOwner?_eq_some h).mp howner
    rwa [List.inj_on_of_nodup_map h.mirrored.ids hn hs hid, hname] at hleaf
  · intro hleaf
    exact ⟨⟨source, output, leaf⟩, (outputOwner?_eq_some h).mpr ⟨hs, ho, hout, hleaf, rfl⟩, rfl⟩

end Charted

/-! ### The edges of one parameter after another -/

/-- The output that a reference in a scope leads to. -/
def mention? (g : Graph) (start : ScopeId) (path : List String) : Option (NodeId × String) :=
  (g.scope.forest.lookup? start path).bind (g.outputAt? ·.1)

/-- The outputs of other nodes that references lead to, as often as they do. -/
def mentions (g : Graph) (target : NodeId) (start : ScopeId) (paths : List (List String)) :
    List (NodeId × String) :=
  (paths.filterMap (g.mention? start)).filter (·.1 != target)

/-- What references lead to does not depend on edges and memory. -/
theorem mentions_congr {g g' : Graph} (hnodes : g'.nodes = g.nodes)
    (hforest : g'.scope.forest = g.scope.forest) (target : NodeId) (start : ScopeId)
    (paths : List (List String)) : g'.mentions target start paths = g.mentions target start paths := by
  have hat : g'.outputAt? = g.outputAt? := by
    funext leaf
    rw [outputAt?, outputAt?, outputs, outputs, hnodes, hforest]
  have hmention : g'.mention? start = g.mention? start := by
    funext path
    rw [mention?, mention?, hforest, hat]
  rw [mentions, mentions, hmention]

/-- The edge hands on an output of another node to a parameter, with what is remembered of it. -/
def Draws (g : Graph) (target : NodeId) (parameter : Parameter) (output : NodeId × String)
    (edge : Edge) : Prop :=
  ∃ leaf owner v, owner.Of g leaf ∧ output = (owner.node.id, owner.parameter.name) ∧
    owner.node.id ≠ target ∧ g.scope.memo.lookup owner.scope = some v ∧
    edge = linkEdge owner target parameter v

/-- Which output lies in a scope depends on nodes and scopes only. -/
theorem OutputOwner.Of.congr {g g' : Graph} {owner : OutputOwner} {leaf : ScopeId}
    (hnodes : g'.nodes = g.nodes) (hforest : g'.scope.forest = g.scope.forest)
    (h : owner.Of g leaf) : owner.Of g' leaf :=
  ⟨hnodes ▸ h.node, h.parameter, h.isOutput, hforest ▸ h.held, h.scope⟩

/-- An edge that draws on an output still does so when edges are added. -/
theorem Draws.mono {g g' : Graph} (hadds : AddsEdges g g') {target : NodeId} {parameter : Parameter}
    {output : NodeId × String} {edge : Edge} (h : g.Draws target parameter output edge) :
    g'.Draws target parameter output edge := by
  obtain ⟨leaf, owner, v, hof, hkey, hne, hv, rfl⟩ := h
  exact ⟨leaf, owner, v, hof.congr hadds.nodes hadds.forest, hkey, hne,
    hadds.learns.recalls _ _ hv, rfl⟩

/-- What is known of a graph as it is built does not depend on what is remembered. -/
theorem charted_of_sameButMemo {g g' : Graph} (h : g.Charted) (hsame : SameButMemo g g') :
    g'.Charted := by
  have hm := (hsame.addsEdges.inStep h.mirrored).1
  obtain ⟨memo, hlearns, rfl⟩ := hsame
  exact ⟨hm, h.shapely, h.planted, h.distinct⟩

/-- What is resolved is remembered. -/
theorem lookup_of_resolveAt {scope : ScopeId} {v : Value} {g g' : Graph}
    (h : onScope (ScopeTree.resolveAt scope) g = .ok v g') : g'.scope.memo.lookup scope = some v := by
  obtain ⟨tree, hread, rfl⟩ := onScope_eq_ok.mp h
  obtain ⟨memo, hresult, rfl⟩ := ScopeTree.resolving_eq_ok.mp hread
  exact lookup_of_scopeValue hresult

section Links

variable {target : NodeId} {start : ScopeId} {parameter : Parameter} {g g' : Graph}
  (hg : g.Charted) {edges : List Edge}

include hg

/-- A reference mentions the output that is found where it leads. -/
theorem mention?_eq (start : ScopeId) (path : List String) : g.mention? start path =
    ((g.scope.forest.lookup? start path).bind (g.outputOwner? ·.1)).map
      fun owner => (owner.node.id, owner.parameter.name) := by
  rw [mention?, Option.map_bind]
  exact congrArg _ (funext fun found => outputAt?_eq hg found.1)

/-- The outputs that references newly lead to are those that they mention. -/
theorem newOutputs_eq (target : NodeId) (start : ScopeId) (paths : List (List String)) :
    g.newOutputs target start [] paths = (g.mentions target start paths).eraseDups := by
  have hmention : g.mention? start = fun path => (g.ownerAt? start path).map (·.output) :=
    funext fun path => mention?_eq hg start path
  rw [newOutputs, mentions, hmention, List.map_filterMap]
  refine congrArg List.eraseDups (List.filter_congr fun output _ => Bool.eq_iff_iff.mpr ?_)
  simp only [isNew_iff, List.not_mem_nil, not_false_eq_true, and_true, bne_iff_ne]

/-- Each output that is mentioned makes an edge. -/
theorem draws_of_linksInto {paths : List (List String)}
    (h : linksInto target start parameter [] paths g = .ok edges g') :
    List.Forall₂ (g'.Draws target parameter) (g.mentions target start paths).eraseDups edges := by
  obtain ⟨owners, houtputs, hlinks⟩ := linksInto_spec h
  rw [← newOutputs_eq hg, ← houtputs, List.forall₂_map_left_iff]
  refine hlinks.imp fun owner edge ⟨⟨path, hpath, howner⟩, hother, v, t, t', ht, hvalue, hlast, hmade⟩ => ?_
  obtain ⟨leaf, -, hfound⟩ := Option.bind_eq_some_iff.mp howner
  have hread : SameButMemo t t' := (moves_onScope_of (ScopeTree.moves_resolveAt _)).of_ok hvalue
  have hadds : AddsEdges g t' := (trans_of _ ht hread).addsEdges
  have hdraws : t'.Draws target parameter owner.output edge :=
    ⟨leaf.1, owner, v, ((outputOwner?_eq_some hg).mp hfound).congr hadds.nodes hadds.forest, rfl,
      hother, lookup_of_resolveAt hvalue, hmade⟩
  exact hdraws.mono hlast.addsEdges

end Links

/-- A parameter of a node and an output that its value refers to. -/
structure Mention where
  /-- The node. -/
  node : Node
  /-- The parameter. -/
  parameter : Parameter
  /-- The handle of the node with the output, and the name of the output. -/
  output : NodeId × String

/-- The outputs of other nodes that the value of a parameter refers to, each once, in the order in
which they are first mentioned. -/
def mentionedBy (g : Graph) (node : Node) (parameter : Parameter) : List (NodeId × String) :=
  match g.scope.forest.child? Forest.root node.name, node.configured? parameter.name with
  | some start, some raw => (g.mentions node.id start raw.references).eraseDups
  | _, _ => []

/-- All that some parameters of a node refer to, parameter by parameter. -/
def mentionsBy (g : Graph) (node : Node) (parameters : List Parameter) : List Mention :=
  parameters.flatMap fun parameter => (g.mentionedBy node parameter).map (⟨node, parameter, ·⟩)

/-- All that parameters refer to, node by node. -/
def allMentions (g : Graph) : List Mention :=
  g.nodes.flatMap fun node => g.mentionsBy node node.spec.parameters

/-- The edge is the one that a mention makes. -/
def Hands (g : Graph) (mention : Mention) (edge : Edge) : Prop :=
  g.Draws mention.node.id mention.parameter mention.output edge

/-- An edge that a mention makes is still that edge when edges are added. -/
theorem Hands.mono {g g' : Graph} (hadds : AddsEdges g g') {mention : Mention} {edge : Edge}
    (h : g.Hands mention edge) : g'.Hands mention edge := Draws.mono hadds h

/-- What parameters refer to depends on nodes and scopes only. -/
theorem mentionsBy_congr {g g' : Graph} (hnodes : g'.nodes = g.nodes)
    (hforest : g'.scope.forest = g.scope.forest) : g'.mentionsBy = g.mentionsBy := by
  have hall : g'.mentions = g.mentions := by
    funext target start paths
    exact mentions_congr hnodes hforest target start paths
  have hby : g'.mentionedBy = g.mentionedBy := by
    funext node parameter
    rw [mentionedBy, mentionedBy, hforest, hall]
  funext node parameters
  rw [mentionsBy, mentionsBy, hby]

section Finding

variable {g g' : Graph} (hg : g.Charted)

include hg

/-- A value of a node lies in its scope. -/
theorem exists_child?_of_configured? {node : Node} (hn : node ∈ g.nodes) {start : ScopeId}
    (hs : g.scope.forest.child? Forest.root node.name = some start) {key : String} {raw : Value}
    (hraw : node.configured? key = some raw) :
    ∃ leaf, g.scope.forest.child? start key = some leaf := by
  obtain ⟨leaf, hleaf, -⟩ :=
    beside_own hg.mirrored hn hs (Option.isSome_of_eq_some hraw)
  rw [Forest.leaf?, hs, Option.bind_some] at hleaf
  exact ⟨leaf, hleaf⟩

/-- The parameters of a node get one edge for each mention, in their order. -/
theorem hands_of_linksOf {node : Node} (hn : node ∈ g.nodes) {start : ScopeId}
    (hs : g.scope.forest.child? Forest.root node.name = some start) {parameters : List Parameter}
    {edges : List Edge} (h : linksOf node start parameters g = .ok edges g') :
    List.Forall₂ g'.Hands (g.mentionsBy node parameters) edges := by
  induction parameters generalizing g edges with
  | nil =>
    obtain ⟨rfl, -⟩ := pure_eq_ok.mp h
    exact .nil
  | cons parameter parameters ih =>
    obtain ⟨found, t, others, hsame, hothers, rfl, hfound⟩ := linksOf_cons_eq_ok h
    have hlater : AddsEdges t g' := ((moves_linksOf _ _ _).of_ok hothers).addsEdges
    have hsame' := hsame.addsEdges
    have hrest := ih (charted_of_sameButMemo hg hsame) (hsame'.nodes ▸ hn) (hsame'.forest ▸ hs) hothers
    rw [mentionsBy_congr hsame'.nodes hsame'.forest] at hrest
    rw [mentionsBy, List.flatMap_cons]
    refine List.rel_append ?_ hrest
    rw [List.forall₂_map_left_iff, mentionedBy, hs]
    rcases hfound with ⟨rfl, hnone⟩ | ⟨raw, hraw, hfound⟩
    · cases hraw : node.configured? parameter.name with
      | none => exact .nil
      | some raw =>
        obtain ⟨leaf, hleaf⟩ := exists_child?_of_configured? hg hn hs hraw
        simp [hleaf, hraw] at hnone
    · rw [hraw]
      exact (draws_of_linksInto hg hfound).imp fun output edge hdraws => hdraws.mono hlater

/-- A node gets one edge for each mention in its parameters, behind the edges there are. -/
theorem hands_of_findDependencies {id : NodeId} {u : Unit} (h : findDependencies id g = .ok u g') :
    ∃ node ∈ g.nodes, node.id = id ∧ ∃ links, g'.edges = g.edges ++ links ∧
      List.Forall₂ g'.Hands (g.mentionsBy node node.spec.parameters) links := by
  obtain ⟨node, hnode, hcase⟩ := findDependencies_eq_ok h
  obtain ⟨hn, hid⟩ := id_of_node? hnode
  obtain ⟨start, hs, -⟩ := hg.mirrored.room node hn
  have hscope : g.scopeOf? id = some start := by rw [scopeOf?, hnode, Option.bind_some, hs]
  rcases hcase with ⟨hnone, -⟩ | ⟨start', links, t, hstart, hlinks, rfl⟩
  · rw [hscope] at hnone
    cases hnone
  · obtain rfl := Option.some.inj (hscope.symm.trans hstart)
    have hall := hands_of_linksOf hg hn hs hlinks
    have hsame := (moves_linksOf _ _ _).of_ok hlinks
    refine ⟨node, hn, hid, links, ?_, hall.imp fun _ _ hhands =>
      hhands.mono (addsEdges_addEdges t links)⟩
    rw [addEdges, hsame.edges]

end Finding

/-! ### All edges -/

/-- Steps that each add edges for what they are given add edges for all of it. -/
theorem forM_appends {α β : Type} {f : α → GraphM PUnit} {l : List α} {of : α → List β}
    {S : β → Edge → Prop} {g g' : Graph} {u : PUnit} (hf : ∀ a ∈ l, Moves AddsEdges (f a))
    (hstep : ∀ a ∈ l, ∀ t t', AddsEdges g t → AddsEdges t' g' → f a t = .ok ⟨⟩ t' →
      ∃ more, t'.edges = t.edges ++ more ∧ List.Forall₂ S (of a) more)
    (h : l.forM f g = .ok u g') :
    ∃ more, g'.edges = g.edges ++ more ∧ List.Forall₂ S (l.flatMap of) more := by
  induction l generalizing g with
  | nil =>
    obtain ⟨-, rfl⟩ := pure_eq_ok.mp h
    exact ⟨[], (List.append_nil _).symm, .nil⟩
  | cons a l ih =>
    obtain ⟨_, t, hfirst, hrest⟩ := bind_eq_ok.mp h
    have hl : ∀ a ∈ l, Moves AddsEdges (f a) := fun a ha => hf a (List.mem_cons_of_mem _ ha)
    have hbefore : AddsEdges g t := (hf a (by simp)).of_ok hfirst
    have hbehind : AddsEdges t g' := (Moves.forM hl).of_ok hrest
    obtain ⟨first, hedges, hall⟩ := hstep a (by simp) g t (refl_of _ g) hbehind hfirst
    obtain ⟨more, hmore, hothers⟩ := ih hl (fun b hb s s' hs hs' => hstep b
      (List.mem_cons_of_mem _ hb) s s' (trans_of _ hbefore hs) hs') hrest
    refine ⟨first ++ more, by rw [hmore, hedges, List.append_assoc], ?_⟩
    rw [List.flatMap_cons]
    exact List.rel_append hall hothers

/-- The edge is for the order, from the job of that name to the node. -/
def Orders (g : Graph) (asked : String × NodeId) (edge : Edge) : Prop :=
  ∃ first ∈ g.nodes, first.name = asked.1 ∧ edge = .after first.id asked.2

/-- A job gets one edge for each job that it comes after, in the order of its definition. -/
theorem orders_of_afterEdges {job : Job} {target : NodeId} {u : Unit} {g g' last : Graph}
    (hnodes : last.nodes = g.nodes) (h : afterEdges job target g = .ok u g') :
    ∃ more, g'.edges = g.edges ++ more ∧
      List.Forall₂ last.Orders (job.after.map (·, target)) more := by
  rw [← List.flatMap_singleton' (job.after.map _), List.flatMap_map]
  refine forM_appends (fun after _ => moves_afterEdge job target after) ?_ h
  intro after _ t t' ht _ hstep
  obtain ⟨source, hsource, rfl⟩ := afterEdge_eq_ok hstep
  refine ⟨_, rfl, .cons ⟨source, ?_, by simpa using List.find?_some hsource, rfl⟩ .nil⟩
  rw [hnodes, ← ht.nodes]
  exact List.mem_of_find?_eq_some hsource

/-- The edges of a graph as it is built: first those for the order, then those that hand on values. -/
theorem edges_of_build {pipeline : Pipeline} {g : Graph} (h : build pipeline = .ok g)
    (hg : g.Charted) : ∃ orders links, g.edges = orders ++ links ∧
      List.Forall₂ g.Orders (g.nodes.flatMap fun node => node.spec.after.map (·, node.id)) orders ∧
      List.Forall₂ g.Hands g.allMentions links := by
  obtain ⟨g₁, ids, g₂, g₃, -, hglobals, hnodes, hafter, hdeps⟩ := build_eq_ok h
  have hm := mirrored_of_addNodes hglobals hnodes
  obtain ⟨tree, rfl⟩ := (moves_addGlobals pipeline).of_ok hglobals
  have hseed := seeded_of_addNodes hnodes
  have hadds : AddsEdges g₂ g₃ := (Moves.forM fun entry _ => moves_afterEdges _ _).of_ok hafter
  have hmore : AddsEdges g₃ g := (Moves.forM fun id _ => moves_findDependencies id).of_ok hdeps
  have hspecs := (specs_of_ofJob hseed.nodes).1
  have hzip : pipeline.jobs.zip ids = g.nodes.map fun node => (node.spec, node.id) := by
    rw [hmore.nodes, hadds.nodes, ← hspecs, hseed.ids_eq, List.zip_map']
  have hids : ids = g.nodes.map (·.id) := by rw [hmore.nodes, hadds.nodes, hseed.ids_eq]
  obtain ⟨orders, horders, hasked⟩ : ∃ more, g₃.edges = g₂.edges ++ more ∧
      List.Forall₂ g.Orders
        ((pipeline.jobs.zip ids).flatMap fun entry => entry.1.after.map (·, entry.2)) more :=
    forM_appends (fun entry _ => moves_afterEdges _ _) (fun entry _ t t' ht _ hstep =>
      orders_of_afterEdges (hmore.nodes.trans (hadds.nodes.trans ht.nodes.symm)) hstep) hafter
  have hrun : g.nodes.forM (fun node => findDependencies node.id) g₃ = .ok () g := by
    rw [← hdeps, hids]
    exact congrFun List.forM_map.symm g₃
  obtain ⟨links, hlinks, hhands⟩ : ∃ more, g.edges = g₃.edges ++ more ∧
      List.Forall₂ g.Hands g.allMentions more := by
    refine forM_appends (fun node _ => moves_findDependencies node.id) ?_ hrun
    intro node hn t t' ht hlast hstep
    have htnodes : g.nodes = t.nodes := hmore.nodes.trans ht.nodes.symm
    have htforest : g.scope.forest = t.scope.forest := hmore.forest.trans ht.forest.symm
    have hchart : t.Charted := ⟨((trans_of AddsEdges hadds ht).inStep hm).1, htforest ▸ hg.shapely,
      htforest ▸ hg.planted, fun node hn => hg.distinct node (htnodes ▸ hn)⟩
    obtain ⟨found, hfound, hid, more, hedges, hall⟩ := hands_of_findDependencies hchart hstep
    obtain rfl := List.inj_on_of_nodup_map hg.mirrored.ids (htnodes ▸ hfound) hn hid
    refine ⟨more, hedges, ?_⟩
    rw [mentionsBy_congr htnodes htforest]
    exact hall.imp fun _ _ hhands => hhands.mono hlast
  rw [hzip, List.flatMap_map] at hasked
  refine ⟨orders, links, ?_, hasked, hhands⟩
  rw [hlinks, horders, hseed.edges, List.nil_append]

/-! ### Main result -/

/-- A reference in the value of the parameter leads to the value of the output. -/
def RefersTo (g : Graph) (node : Node) (parameter : Parameter) (source : Node) (output : Parameter) :
    Prop :=
  ∃ start raw path leaf consumed,
    g.scope.forest.child? Forest.root node.name = some start ∧
    node.configured? parameter.name = some raw ∧ path ∈ raw.references ∧
    g.scope.forest.lookup? start path = some (leaf, consumed) ∧
    g.scope.forest.leaf? source.name output.name = some leaf

/-- The edge hands on what an output of another node resolves to, to a parameter that mentions it. -/
def HandsOn (g : Graph) (mention : Mention) (edge : Edge) : Prop :=
  ∃ source ∈ g.nodes, ∃ output ∈ source.spec.parameters, output.isOutput ∧
    mention.output = (source.id, output.name) ∧ source.id ≠ mention.node.id ∧
    ∃ v, g.resolvedIn? source.name output.name = some v ∧
      edge = .data source.id mention.node.id ⟨.between output.isList mention.parameter.isList,
        output.name, mention.parameter.name, v, none⟩

section Charted

variable {g : Graph} (hg : g.Charted)

include hg

/-- The edge that a mention makes hands on what the output resolves to. -/
theorem Hands.handsOn {mention : Mention} {edge : Edge} (h : g.Hands mention edge) :
    g.HandsOn mention edge := by
  obtain ⟨leaf, owner, v, ⟨hn, hp, hout, hleaf, hscope⟩, hkey, hne, hv, rfl⟩ := h
  have hheld := hg.mirrored.held owner.node hn owner.parameter.name
  rw [Forest.held?, hleaf, Option.map_some] at hheld
  obtain ⟨raw, -, hraw⟩ := Option.map_eq_some_iff.mp hheld.symm
  have hremembers : Remembers g.scope owner.node.name owner.parameter.name v :=
    ⟨leaf, hleaf, Option.isSome_of_eq_some hraw.symm, hscope ▸ hv⟩
  exact ⟨owner.node, hn, owner.parameter, hp, hout, hkey, hne, v, hremembers.resolvedIn?, rfl⟩

/-- What is mentioned are the outputs that references lead to, except for those of the node itself. -/
theorem mem_mentionedBy {node : Node} {parameter : Parameter} {source : Node} (hs : source ∈ g.nodes)
    {output : Parameter} (ho : output ∈ source.spec.parameters) (hout : output.isOutput) :
    (source.id, output.name) ∈ g.mentionedBy node parameter ↔
      source.id ≠ node.id ∧ g.RefersTo node parameter source output := by
  rw [mentionedBy]
  split
  next start raw hstart hraw =>
    rw [List.mem_eraseDups, mentions, List.mem_filter, List.mem_filterMap, bne_iff_ne, and_comm]
    refine and_congr_right fun _ => ⟨?_, ?_⟩
    · rintro ⟨path, hpath, hmention⟩
      obtain ⟨⟨leaf, consumed⟩, hlookup, hat⟩ := Option.bind_eq_some_iff.mp hmention
      exact ⟨start, raw, path, leaf, consumed, hstart, hraw, hpath, hlookup,
        (outputAt?_eq_some hg hs ho hout).mp hat⟩
    · rintro ⟨start', raw', path, leaf, consumed, hstart', hraw', hpath, hlookup, hleaf⟩
      obtain rfl := Option.some.inj (hstart.symm.trans hstart')
      obtain rfl := Option.some.inj (hraw.symm.trans hraw')
      exact ⟨path, hpath, Option.bind_eq_some_iff.mpr
        ⟨(leaf, consumed), hlookup, (outputAt?_eq_some hg hs ho hout).mpr hleaf⟩⟩
  next hno =>
    refine iff_of_false List.not_mem_nil ?_
    rintro ⟨-, start, raw, path, leaf, consumed, hstart, hraw, -⟩
    exact hno start raw hstart hraw

end Charted

/-- **The edges of a graph as it is built.** There is a node for each job, in their order. The first
edges are for the order, one for each name that a job is to come after. Then there is one edge from each
output of another job to each parameter whose value refers to it, job by job, parameter by parameter,
and in the order in which outputs are first mentioned. It hands on what the output resolves to, as a
list or not as the output and the parameter are, and no element of it in particular. -/
theorem inferred_of_build {pipeline : Pipeline} {g : Graph} (h : build pipeline = .ok g)
    (hnames : ∀ job ∈ pipeline.jobs, (job.parameters.map (·.name)).Nodup) :
    List.Forall₂ (fun job node => node = Node.ofJob node.id job) pipeline.jobs g.nodes ∧
    (∃ orders links, g.edges = orders ++ links ∧
      List.Forall₂ g.Orders (g.nodes.flatMap fun node => node.spec.after.map (·, node.id)) orders ∧
      List.Forall₂ g.HandsOn g.allMentions links) ∧
    (∀ node ∈ g.nodes, ∀ parameter ∈ node.spec.parameters,
      (g.mentionedBy node parameter).Nodup ∧
      ∀ source ∈ g.nodes, ∀ output ∈ source.spec.parameters, output.isOutput →
        ((source.id, output.name) ∈ g.mentionedBy node parameter ↔
          source.id ≠ node.id ∧ g.RefersTo node parameter source output)) ∧
    ∀ edge ∈ g.edges, edge.kind ≠ .after → edge.source ≠ edge.target := by
  have hg := charted_build h hnames
  obtain ⟨orders, links, hedges, hasked, hhands⟩ := edges_of_build h hg
  have hlinks := hhands.imp fun _ _ hmade => Hands.handsOn hg hmade
  refine ⟨(build_spec h).1, ⟨orders, links, hedges, hasked, hlinks⟩, fun node _ parameter _ =>
    ⟨?_, fun source hs output ho hout => mem_mentionedBy hg hs ho hout⟩, fun edge he hkind => ?_⟩
  · rw [mentionedBy]
    split
    · exact nodup_eraseDups _
    · exact .nil
  · rcases List.mem_append.mp (hedges ▸ he) with he | he
    · obtain ⟨asked, -, first, -, -, rfl⟩ := exists_of_mem_right hasked he
      exact absurd rfl hkind
    · obtain ⟨mention, -, source, -, output, -, -, -, hne, v, -, rfl⟩ := exists_of_mem_right hlinks he
      exact hne

/-- Bread is baked of flour and served with a note on what it is made of. The tin says what is baked. -/
def bakery : Pipeline where
  jobs := [
    { id := "mill"
      parameters := [{ name := "flour", isOutput := true }]
      configuration := .ofList [("flour", .str "rye")] },
    { id := "bake"
      after := ["mill"]
      parameters := [{ name := "loaf", isOutput := true }, { name := "tin" }]
      configuration :=
        .ofList [("loaf", .str "$\x7bmill.flour\x7d bread"), ("tin", .str "$\x7bloaf\x7d")] },
    { id := "serve"
      after := ["bake", "bake"]
      parameters := [{ name := "tray", isList := true }]
      configuration := .ofList [("tray",
        .list [.list [.str "$\x7bbake.loaf\x7d"], .str "$\x7bflour\x7d, $\x7bbake.loaf\x7d"])] }]

/-- What is served refers to the loaf first and again behind the flour, which is not named with its
job. The tin refers to the loaf of its own job. -/
theorem bakery_edges : (∀ job ∈ bakery.jobs, (job.parameters.map (·.name)).Nodup) ∧
    ∃ built, build bakery = .ok built ∧
      built.edges = [.after 0 1, .after 1 2, .after 1 2,
        .data 0 1 ⟨.oneToOne, "flour", "loaf", .str "rye", none⟩,
        .data 1 2 ⟨.oneToMany, "loaf", "tray", .str "rye bread", none⟩,
        .data 0 2 ⟨.oneToMany, "flour", "tray", .str "rye", none⟩] ∧
      ∃ orders links, built.edges = orders ++ links ∧
        List.Forall₂ built.Orders
          (built.nodes.flatMap fun node => node.spec.after.map (·, node.id)) orders ∧
        List.Forall₂ built.HandsOn built.allMentions links := by
  have hnames : ∀ job ∈ bakery.jobs, (job.parameters.map (·.name)).Nodup := by decide
  obtain ⟨built, -, -, hbuild, -, -, hedges⟩ := exists_prepared {} bakery
    (fun built _ _ => built.edges = [.after 0 1, .after 1 2, .after 1 2,
      .data 0 1 ⟨.oneToOne, "flour", "loaf", .str "rye", none⟩,
      .data 1 2 ⟨.oneToMany, "loaf", "tray", .str "rye bread", none⟩,
      .data 0 2 ⟨.oneToMany, "flour", "tray", .str "rye", none⟩]) (by decide +kernel)
  exact ⟨hnames, built, hbuild, hedges, (inferred_of_build hbuild hnames).2.1⟩

end Graph
end Pipework
