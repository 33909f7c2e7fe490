import Pipework.Proofs.Links

/-!
# Values that depend on outputs

When a graph is built, every reference in a parameter that leads to an output of another job makes
an edge from that output, and only such references make edges that hand on values. So a job comes
after all those whose outputs its parameters depend on, as long as the values in between are
outputs, or other parameters of the job itself. What lies in between otherwise, like a value that
is configured for all jobs, is not looked into.
-/

namespace Pipework

open Step Resolve

/-- The value of a scope refers to another scope: one of its references leads there. -/
def Forest.Refers (f : Forest) (leaf other : ScopeId) : Prop :=
  ∃ raw path consumed, f.raw? leaf = some raw ∧ path ∈ raw.references ∧
    f.lookup? ((f.parent? leaf).getD leaf) path = some (other, consumed)

instance (f : Forest) (leaf other : ScopeId) : Decidable (f.Refers leaf other) :=
  decidable_of_iff ((f.raw? leaf).any fun raw => raw.references.any fun path =>
    (f.lookup? ((f.parent? leaf).getD leaf) path).any (·.1 == other)) (by
      simp [Forest.Refers, Option.any_eq_true])

namespace Graph

/-- What the owner of an output is does not depend on edges and memory. -/
theorem outputOwner?_congr {g g' : Graph} (hnodes : g'.nodes = g.nodes)
    (hforest : g'.scope.forest = g.scope.forest) (leaf : ScopeId) :
    g'.outputOwner? leaf = g.outputOwner? leaf := by
  rw [outputOwner?, outputOwner?, hforest]
  simp only [find?, hnodes]

section Links

variable {target : NodeId} {start : ScopeId} {parameter : Parameter} {owner : OutputOwner}

/-- A reference to an output of another node makes a link. -/
theorem exists_of_linksInto {g g' : Graph} (hids : (g.nodes.map (·.id)).Nodup)
    {paths : List (List String)} {edges : List Edge}
    (h : linksInto target start parameter [] paths g = .ok edges g') {path : List String}
    (hpath : path ∈ paths) (howner : g.ownerAt? start path = some owner)
    (hne : owner.node.id ≠ target) : ∃ v, linkEdge owner target parameter v ∈ edges := by
  obtain ⟨owners, houtputs, hlinks⟩ := linksInto_spec h
  have hmem : owner.output ∈ owners.map (·.output) := by
    rw [houtputs, newOutputs, List.mem_eraseDups, List.mem_filter]
    exact ⟨List.mem_map_of_mem (List.mem_filterMap.mpr ⟨path, hpath, howner⟩),
      isNew_iff.mpr ⟨hne, List.not_mem_nil⟩⟩
  obtain ⟨found, hfound, heq⟩ := List.mem_map.mp hmem
  obtain ⟨edge, he, ⟨path', -, hat⟩, -, v, _, _, -, -, -, rfl⟩ := exists_of_mem_left hlinks hfound
  -- The link was made for the same parameter of the same node.
  obtain ⟨leaf, -, hleaf⟩ := Option.bind_eq_some_iff.mp howner
  obtain ⟨leaf', -, hleaf'⟩ := Option.bind_eq_some_iff.mp hat
  obtain ⟨hin, hparameter⟩ := outputOwner?_spec hleaf
  obtain ⟨hin', hparameter'⟩ := outputOwner?_spec hleaf'
  obtain ⟨hid, hname⟩ := Prod.mk.inj heq
  have hnode := List.inj_on_of_nodup_map hids hin' hin hid
  rw [hnode, hname, hparameter] at hparameter'
  refine ⟨v, ?_⟩
  rwa [linkEdge, hnode, ← Option.some.inj hparameter'] at he

variable {node : Node} {parameters : List Parameter} {g g' : Graph} {edges : List Edge}
  (h : linksOf node start parameters g = .ok edges g')

include h

theorem exists_of_linksOf (hids : (g.nodes.map (·.id)).Nodup) (hp : parameter ∈ parameters)
    {raw : Value} (hraw : node.configured? parameter.name = some raw)
    (hchild : (g.scope.forest.child? start parameter.name).isSome) {path : List String}
    (hpath : path ∈ raw.references)
    (howner : (g.scope.forest.lookup? start path).bind (g.outputOwner? ·.1) = some owner)
    (hne : owner.node.id ≠ node.id) : ∃ v, linkEdge owner node.id parameter v ∈ edges := by
  induction parameters generalizing g edges with
  | nil => cases hp
  | cons first parameters ih =>
    obtain ⟨found, t, others, ⟨memo, -, rfl⟩, hothers, rfl, hfound⟩ := linksOf_cons_eq_ok h
    rcases List.mem_cons.mp hp with rfl | hp
    · rcases hfound with ⟨-, hnone | hnone⟩ | ⟨raw', hraw', hfound⟩
      · simp [hnone] at hchild
      · simp [hnone] at hraw
      · obtain rfl := Option.some.inj (hraw.symm.trans hraw')
        obtain ⟨v, hv⟩ := exists_of_linksInto hids hfound hpath howner hne
        exact ⟨v, List.mem_append_left _ hv⟩
    · obtain ⟨v, hv⟩ :=
        ih (g := { g with scope := { g.scope with memo } }) hothers hids hp hchild howner
      exact ⟨v, List.mem_append_right _ hv⟩

end Links

section Built

variable {pipeline : Pipeline} {g : Graph} (h : build pipeline = .ok g) {node : Node}
  (hn : node ∈ g.nodes) {start : ScopeId}
  (hs : g.scope.forest.child? Forest.root node.name = some start)

include h hn hs

/-- When a graph is built, a reference in a parameter to an output of another job makes an edge. -/
theorem edge_of_reference {parameter : Parameter} (hp : parameter ∈ node.spec.parameters)
    {raw : Value} (hraw : node.configured? parameter.name = some raw) {path : List String}
    (hpath : path ∈ raw.references) {owner : OutputOwner}
    (howner : (g.scope.forest.lookup? start path).bind (g.outputOwner? ·.1) = some owner)
    (hne : owner.node.id ≠ node.id) : ∃ v, linkEdge owner node.id parameter v ∈ g.edges := by
  obtain ⟨g₁, ids, g₂, g₃, -, hglobals, hnodes, hafter, hdeps⟩ := build_eq_ok h
  have hm := mirrored_build h
  obtain ⟨tree, rfl⟩ := (moves_addGlobals pipeline).of_ok hglobals
  have hadds : AddsEdges g₂ g₃ := (Moves.forM fun entry _ => moves_afterEdges _ _).of_ok hafter
  have hmore : AddsEdges g₃ g := (Moves.forM fun id _ => moves_findDependencies id).of_ok hdeps
  have hid : node.id ∈ ids := by
    rw [(seeded_of_addNodes hnodes).ids_eq, ← hadds.nodes, ← hmore.nodes]
    exact List.mem_map_of_mem hn
  obtain ⟨t, _, t', hbefore, hat, hbehind⟩ :=
    exists_of_forM (fun id _ => moves_findDependencies id) hdeps hid
  have hstep : AddsEdges t t' := (moves_findDependencies _).of_ok hat
  have hrest := trans_of AddsEdges hstep hbehind
  have htnodes : t.nodes = g.nodes := hrest.nodes.symm
  have htforest : t.scope.forest = g.scope.forest := hrest.forest.symm
  obtain ⟨found, hfound, hcase⟩ := findDependencies_eq_ok hat
  have hin : g.node? node.id = some node := hm.node?_eq_some hn
  obtain rfl : found = node := by
    rw [node?, htnodes] at hfound
    exact Option.some.inj (hfound.symm.trans hin)
  have hscope : t.scopeOf? found.id = some start := by
    rw [scopeOf?, node?, htnodes, htforest]
    change (g.node? found.id).bind _ = some start
    rw [hin, Option.bind_some, hs]
  rcases hcase with ⟨hno, -⟩ | ⟨other, links, t'', hother, hlinks, rfl⟩
  · rw [hscope] at hno
    cases hno
  · obtain rfl := Option.some.inj (hscope.symm.trans hother)
    have hchild : (t.scope.forest.child? start parameter.name).isSome := by
      obtain ⟨leaf, hleaf, -⟩ := beside_own hm hn hs (Option.isSome_of_eq_some hraw)
      rw [Forest.leaf?, hs, Option.bind_some] at hleaf
      rw [htforest, hleaf, Option.isSome_some]
    obtain ⟨v, hv⟩ := exists_of_linksOf hlinks (htnodes ▸ hm.ids) hp hraw hchild hpath
      (by
        rw [htforest]
        simpa only [outputOwner?_congr htnodes htforest] using howner) hne
    exact ⟨v, hbehind.edges.subset (List.mem_append_right _ hv)⟩

end Built

/-- How an edge that hands on a value comes about when a graph is built. -/
def Referred (g : Graph) (edge : Edge) : Prop :=
  ∃ node ∈ g.nodes, ∃ start, g.scope.forest.child? Forest.root node.name = some start ∧
    ∃ parameter ∈ node.spec.parameters, ∃ raw, node.configured? parameter.name = some raw ∧
      ∃ path ∈ raw.references, ∃ owner v,
        (g.scope.forest.lookup? start path).bind (g.outputOwner? ·.1) = some owner ∧
          owner.node.id ≠ node.id ∧ edge = linkEdge owner node.id parameter v

/-- In a graph as it is built, edges are for the order only or go back to references. -/
theorem referred_of_build {pipeline : Pipeline} {g : Graph} (h : build pipeline = .ok g) {edge : Edge}
    (he : edge ∈ g.edges) : edge.kind = .after ∨ g.Referred edge := by
  obtain ⟨g₁, ids, g₂, g₃, -, hglobals, hnodes, hafter, hdeps⟩ := build_eq_ok h
  obtain ⟨tree, rfl⟩ := (moves_addGlobals pipeline).of_ok hglobals
  have hseed := seeded_of_addNodes hnodes
  have hkinds : ∀ edge ∈ g₃.edges, edge.kind = .after := forM_keeps
    (P := fun t => ∀ edge ∈ t.edges, edge.kind = .after)
    (fun entry _ t v t' ht hstep => after_of_afterEdges ht hstep) (by simp [hseed.edges]) hafter
  have hmore : AddsEdges g₃ g := (Moves.forM fun id _ => moves_findDependencies id).of_ok hdeps
  have hall : AddsEdges g₃ g ∧ ∀ edge ∈ g.edges, edge.kind = .after ∨ g.Referred edge := by
    refine forM_keeps (P := fun t => AddsEdges g₃ t ∧
      ∀ edge ∈ t.edges, edge.kind = .after ∨ g.Referred edge) ?_
      ⟨refl_of _ _, fun edge he => .inl (hkinds edge he)⟩ hdeps
    rintro id - t u t' ⟨hadds, ht⟩ hstep
    have htnodes : t.nodes = g.nodes := hadds.nodes.trans hmore.nodes.symm
    have htforest : t.scope.forest = g.scope.forest := hadds.forest.trans hmore.forest.symm
    refine ⟨trans_of _ hadds ((moves_findDependencies id).of_ok hstep), ?_⟩
    obtain ⟨node, hnode, ⟨-, rfl⟩ | ⟨start, links, t'', hscope, hlinks, rfl⟩⟩ :=
      findDependencies_eq_ok hstep
    · exact ht
    · intro edge he
      have hsame := (moves_linksOf _ _ _).of_ok hlinks
      rcases List.mem_append.mp he with he | he
      · obtain ⟨memo, -, rfl⟩ := hsame
        exact ht edge he
      · obtain ⟨parameter, hp, raw, hraw, path, hpath, owner, v, howner, hne, rfl⟩ :=
          reference_of_linksOf hlinks he
        rw [scopeOf?, hnode, Option.bind_some, htforest] at hscope
        simp only [ownerAt?, htforest, outputOwner?_congr htnodes htforest] at howner
        exact .inr ⟨node, htnodes ▸ List.mem_of_find?_eq_some hnode, start, hscope, parameter, hp,
          raw, hraw, path, hpath, owner, v, howner, hne, rfl⟩
  exact hall.2 edge he

/-- The scope holds the value of a parameter of the node. -/
def HoldsParameter (g : Graph) (node : Node) (leaf : ScopeId) : Prop :=
  ∃ parameter ∈ node.spec.parameters, g.scope.forest.leaf? node.name parameter.name = some leaf

instance (g : Graph) (node : Node) (leaf : ScopeId) : Decidable (g.HoldsParameter node leaf) :=
  inferInstanceAs (Decidable (∃ parameter ∈ node.spec.parameters, _))

/-- The scope holds the value of an output of the node. Of parameters that have one name, the first
counts. -/
def HoldsOutput (g : Graph) (node : Node) (leaf : ScopeId) : Prop :=
  ∃ output ∈ node.spec.parameters, node.parameter? output.name = some output ∧ output.isOutput ∧
    g.scope.forest.leaf? node.name output.name = some leaf

instance (g : Graph) (node : Node) (leaf : ScopeId) : Decidable (g.HoldsOutput node leaf) :=
  inferInstanceAs (Decidable (∃ output ∈ node.spec.parameters, _))

/-- The value of a parameter refers to an output or to another parameter of its own job. -/
def Follows (g : Graph) (leaf other : ScopeId) : Prop :=
  g.scope.forest.Refers leaf other ∧ ∃ node ∈ g.nodes, g.HoldsParameter node leaf ∧
    (g.HoldsParameter node other ∨ ∃ source ∈ g.nodes, g.HoldsOutput source other)

instance (g : Graph) (leaf other : ScopeId) : Decidable (g.Follows leaf other) :=
  inferInstanceAs (Decidable (_ ∧ ∃ node ∈ g.nodes, _))

theorem HoldsOutput.holdsParameter {g : Graph} {node : Node} {leaf : ScopeId}
    (h : g.HoldsOutput node leaf) : g.HoldsParameter node leaf := by
  obtain ⟨output, hp, -, -, hleaf⟩ := h
  exact ⟨output, hp, hleaf⟩

/-- A scope holds a parameter of one node only. -/
theorem HoldsParameter.unique {g : Graph} (hm : g.Mirrored) {node other : Node} {leaf : ScopeId}
    (hn : node ∈ g.nodes) (ho : other ∈ g.nodes) (h : g.HoldsParameter node leaf)
    (h' : g.HoldsParameter other leaf) : node = other := by
  obtain ⟨p, -, hp⟩ := h
  obtain ⟨q, -, hq⟩ := h'
  obtain ⟨scope, hs, hchild⟩ := Option.bind_eq_some_iff.mp hp
  obtain ⟨scope', hs', hchild'⟩ := Option.bind_eq_some_iff.mp hq
  have hparent := hm.sound.parent scope leaf (Forest.mem_of_child? hchild).1
  have hparent' := hm.sound.parent scope' leaf (Forest.mem_of_child? hchild').1
  obtain rfl := Option.some.inj (hparent.symm.trans hparent')
  have hname := (Forest.mem_of_child? hs).2
  have hname' := (Forest.mem_of_child? hs').2
  exact List.inj_on_of_nodup_map hm.names hn ho (Option.some.inj (hname.symm.trans hname'))

/-- A parameter that refers to an output of another job brings an edge from there. -/
theorem leads_of_refers {pipeline : Pipeline} {g : Graph} (h : build pipeline = .ok g)
    {node source : Node} (hn : node ∈ g.nodes) (hs : source ∈ g.nodes) (hne : source ≠ node)
    {leaf other : ScopeId} (hleaf : g.HoldsParameter node leaf) (hother : g.HoldsOutput source other)
    (hrefers : g.scope.forest.Refers leaf other) : Leads g.edges source.id node.id := by
  have hm := mirrored_build h
  obtain ⟨parameter, hp, hat⟩ := hleaf
  obtain ⟨output, -, hkey, hout, hsource⟩ := hother
  obtain ⟨raw, path, consumed, hraw, hpath, hlookup⟩ := hrefers
  obtain ⟨start, hstart, hchild⟩ := Option.bind_eq_some_iff.mp hat
  have hparent := hm.sound.parent start leaf (Forest.mem_of_child? hchild).1
  rw [hparent, Option.getD_some] at hlookup
  have hconfigured : node.configured? parameter.name = some raw := by
    have hheld := hm.held node hn parameter.name
    rw [Forest.held?, hat, Option.map_some, hraw] at hheld
    simpa using hheld.symm
  have howner : (g.scope.forest.lookup? start path).bind (g.outputOwner? ·.1) =
      some ⟨source, output, other⟩ := by
    rw [hlookup, Option.bind_some]
    exact outputOwner?_eq hm hs hkey hout hsource
  have hids : source.id ≠ node.id := fun heq => hne (List.inj_on_of_nodup_map hm.ids hs hn heq)
  obtain ⟨v, hv⟩ := edge_of_reference h hn hstart hp hconfigured hpath howner hids
  exact ⟨_, hv, rfl, rfl⟩

/-- A job comes after another one if the value of one of its parameters depends on an output of that
one, directly or by way of outputs and of parameters of the job at hand. -/
theorem reaches_of_follows {pipeline : Pipeline} {g : Graph} (h : build pipeline = .ok g)
    {job source : Node} (hj : job ∈ g.nodes) (hs : source ∈ g.nodes) (hne : source ≠ job)
    {parameter output : ScopeId} (hp : g.HoldsParameter job parameter)
    (ho : g.HoldsOutput source output)
    (hread : Relation.TransGen g.Follows parameter output) : Reaches g.edges source.id job.id := by
  have hm := mirrored_build h
  -- One reference further, the job at hand stays the same or an edge leads to it.
  have hstep : ∀ leaf other, g.Follows leaf other →
      (∀ node ∈ g.nodes, g.HoldsParameter node leaf → node = job ∨ Reaches g.edges node.id job.id) →
      ∀ node ∈ g.nodes, g.HoldsParameter node other →
        node = job ∨ Reaches g.edges node.id job.id := by
    rintro leaf other ⟨hrefers, holder, hholder, hleaf, hcase⟩ hbefore node hn hother
    have hheld := hbefore holder hholder hleaf
    rcases hcase with hown | ⟨owner, howner, hout⟩
    · exact hother.unique hm hn hholder hown ▸ hheld
    · obtain rfl := hother.unique hm hn howner hout.holdsParameter
      by_cases heq : node = holder
      · exact heq ▸ hheld
      · have hleads := leads_of_refers h hholder hn heq hleaf hout hrefers
        rcases hheld with rfl | hpath
        · exact .inr (.single hleads)
        · exact .inr (.head hleads hpath)
  have hall : ∀ other, Relation.TransGen g.Follows parameter other →
      ∀ node ∈ g.nodes, g.HoldsParameter node other →
        node = job ∨ Reaches g.edges node.id job.id := by
    intro other hread
    induction hread with
    | single hfirst =>
      exact hstep _ _ hfirst fun node hn hheld => .inl (hheld.unique hm hn hj hp)
    | tail _ hnext ih => exact hstep _ _ hnext ih
  exact (hall output hread source hs ho.holdsParameter).resolve_left hne

/-- A page that is set from a text, and printed with a note on it that names it. -/
def proofs : Pipeline where
  jobs := [
    { id := "print"
      parameters := [{ name := "sheet" }, { name := "note" }]
      configuration :=
        .ofList [("sheet", .str "$\x7bset.page\x7d"), ("note", .str "first $\x7bsheet\x7d")] },
    { id := "write"
      parameters := [{ name := "text", isOutput := true }]
      configuration := .ofList [("text", .str "draft")] },
    { id := "set"
      parameters := [{ name := "page", isOutput := true }]
      configuration := .ofList [("page", .str "$\x7bwrite.text\x7d")] }]

/-- The note on the printed page depends on the text by way of the sheet and of the page that is
set, so printing comes after writing. -/
theorem print_follows_write : ∃ built, build proofs = .ok built ∧ ∃ print ∈ built.nodes,
    ∃ write ∈ built.nodes, write ≠ print ∧ built.HoldsParameter print 2 ∧
      built.HoldsOutput write 5 ∧ Relation.TransGen built.Follows 2 5 ∧
      Reaches built.edges write.id print.id := by
  obtain ⟨built, -, -, hbuild, -, -, print, hp, write, hw, hne, hnote, htext, h₁, h₂, h₃⟩ :=
    exists_prepared {} proofs (fun built _ _ => ∃ print ∈ built.nodes, ∃ write ∈ built.nodes,
      write.id ≠ print.id ∧ built.HoldsParameter print 2 ∧ built.HoldsOutput write 5 ∧
        built.Follows 2 3 ∧ built.Follows 3 7 ∧ built.Follows 7 5) (by decide +kernel)
  have hread : Relation.TransGen built.Follows 2 5 := .tail (.tail (.single h₁) h₂) h₃
  have hother : write ≠ print := fun heq => hne (congrArg Node.id heq)
  exact ⟨built, hbuild, print, hp, write, hw, hother, hnote, htext, hread,
    reaches_of_follows hbuild hp hw hother hnote htext hread⟩

/-- A note that quotes a text by way of what is configured for all jobs. -/
def quoted : Pipeline where
  configuration := .ofList [("motto", .str "$\x7bwrite.text\x7d")]
  jobs := [
    { id := "note"
      parameters := [{ name := "line" }]
      configuration := .ofList [("line", .str "$\x7bmotto\x7d")] },
    { id := "write"
      parameters := [{ name := "text", isOutput := true }]
      configuration := .ofList [("text", .str "draft")] }]

/-- What is configured for all jobs is not looked into: the line of the note is the text, but the
note does not come after the writing. -/
theorem note_does_not_wait : ∃ built, build quoted = .ok built ∧ ∃ note ∈ built.nodes,
    ∃ write ∈ built.nodes, write ≠ note ∧ built.HoldsParameter note 3 ∧
      built.HoldsOutput write 5 ∧ Relation.TransGen built.scope.forest.Refers 3 5 ∧
      built.resolvedIn? note.name "line" = some (.str "draft") ∧
      ¬ Reaches built.edges write.id note.id := by
  obtain ⟨built, -, -, hbuild, -, -, note, hn, write, hw, hne, hline, htext, h₁, h₂, hvalue, hedges⟩ :=
    exists_prepared {} quoted (fun built _ _ => ∃ note ∈ built.nodes, ∃ write ∈ built.nodes,
      write.id ≠ note.id ∧ built.HoldsParameter note 3 ∧ built.HoldsOutput write 5 ∧
        built.scope.forest.Refers 3 1 ∧ built.scope.forest.Refers 1 5 ∧
        built.resolvedIn? note.name "line" = some (.str "draft") ∧ built.edges = [])
      (by decide +kernel)
  have hnone : ¬ Reaches built.edges write.id note.id := by
    intro hpath
    obtain ⟨_, ⟨edge, he, -⟩, -⟩ := Relation.TransGen.head'_iff.mp hpath
    rw [hedges] at he
    cases he
  exact ⟨built, hbuild, note, hn, write, hw, fun heq => hne (congrArg Node.id heq), hline, htext,
    .tail (.single h₁) h₂, hvalue, hnone⟩

end Graph

end Pipework
