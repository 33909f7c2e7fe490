import Pipework.Proofs.Dependence
import Pipework.Proofs.Singleness

/-!
# Where edges come from

However often nodes are repeated, an edge that hands on a value joins repetitions of one job, or goes
back to an edge to the same parameter that was there when the graph was built. So where a parameter is
declared to be a single reference all edges to it come from one job, or from repetitions of its own.
When nodes with pipelines are replaced, the edges between all others stay.
-/

namespace Pipework

open Step

namespace Graph

/-- The edge hands on a value to the key, from a node of one job to one of another. -/
structure Connects (g : Graph) (edge : Edge) (key : String) (first second : Job) : Prop where
  /-- It hands on a value to the key. -/
  fills : edge.Fills key
  /-- It starts at a node of the one job. -/
  source : ∃ source ∈ g.nodes, source.id = edge.source ∧ source.spec = first
  /-- It ends at a node of the other. -/
  target : ∃ target ∈ g.nodes, target.id = edge.target ∧ target.spec = second

/-- An edge that hands on a value starts where it ends, as far as jobs are concerned, or goes back to
one that was there when the graph was built. -/
def Descends (built g : Graph) : Prop :=
  ∀ edge ∈ g.edges, ∀ key first second, g.Connects edge key first second →
    first = second ∨ ∃ old ∈ built.edges, built.Connects old key first second

theorem descends_self (built : Graph) : Descends built built :=
  fun edge he _ _ _ h => .inr ⟨edge, he, h⟩

section Turn

variable {built g g' : Graph} (hd : Descends built g)

include hd

theorem Descends.of_retains (hr : Retains g g') : Descends built g' := by
  intro edge he key first second h
  obtain ⟨old, hold, hs, ht, hk⟩ := hr.edges.exists_edge he
  obtain ⟨source, hsource, hsid, rfl⟩ := h.source
  obtain ⟨target, htarget, htid, rfl⟩ := h.target
  obtain ⟨one, hone, hid₁, hspec₁⟩ := hr.exists_node hsource
  obtain ⟨two, htwo, hid₂, hspec₂⟩ := hr.exists_node htarget
  exact hd old hold key _ _ ⟨hk key h.fills, ⟨one, hone, hid₁.trans (hsid.trans hs), hspec₁⟩,
    ⟨two, htwo, hid₂.trans (htid.trans ht), hspec₂⟩⟩

/-- When a node was repeated, edges to and from its repetitions go back to its own. -/
theorem Descends.of_replicated {node : Node} {plan : Drivers} {serial : Bool} {added : List Node}
    {parts : List (List Edge)} (hw : g.WellFormed)
    (hloop : ∀ edge ∈ g.edges, edge.source ≠ edge.target) (hn : node ∈ g.nodes)
    (h : Replicated node plan serial added parts g g') : Descends built g' := by
  have hnodes := (h.repeats hw hloop hn).nodes
  have hold : ∀ other ∈ g'.nodes, other.id ∈ g.nodes.map (·.id) →
      ∃ old ∈ g.nodes, old.id = other.id ∧ old.spec = other.spec := by
    intro other ho hid
    rcases hnodes other ho with ⟨old, hold, hsame, hspec, -⟩ | ⟨hmem, -⟩
    · exact ⟨old, hold, hsame, hspec⟩
    · exact absurd (hw.below _ hid) (Nat.not_lt.mpr (h.fresh hmem))
  have hnew : ∀ other ∈ g'.nodes, other.id ∈ added.map (·.id) → other.spec = node.spec := by
    intro other ho hid
    rcases hnodes other ho with ⟨old, hold, hsame, -⟩ | ⟨-, hspec⟩
    · exact absurd (hw.below _ (List.mem_map_of_mem hold)) (Nat.not_lt.mpr (hsame ▸ h.fresh hid))
    · exact hspec
  intro edge he key first second hc
  obtain ⟨source, hs, hsid, rfl⟩ := hc.source
  obtain ⟨target, ht, htid, rfl⟩ := hc.target
  obtain ⟨base, hbase, hedges⟩ := h.edges
  rcases List.mem_append.mp (hedges ▸ he) with he | he
  · obtain ⟨old, ho, hks, hkt, hk⟩ := hbase.exists_edge (List.mem_of_mem_filter he)
    obtain ⟨hin, hin'⟩ := hw.closed old ho
    rw [← hks, ← hsid] at hin
    rw [← hkt, ← htid] at hin'
    obtain ⟨one, hone, hid₁, hspec₁⟩ := hold source hs hin
    obtain ⟨two, htwo, hid₂, hspec₂⟩ := hold target ht hin'
    exact hd old ho key _ _ ⟨hk key hc.fills, ⟨one, hone, hid₁.trans (hsid.trans hks), hspec₁⟩,
      ⟨two, htwo, hid₂.trans (htid.trans hkt), hspec₂⟩⟩
  · cases h.copied he with
    | inward old ho hid hs' ht' hk =>
      have hin := (hw.closed old ho).1
      rw [← hs', ← hsid] at hin
      obtain ⟨one, hone, hid₁, hspec₁⟩ := hold source hs hin
      rw [hnew target ht (htid ▸ ht')]
      exact hd old ho key _ _ ⟨hk key hc.fills, ⟨one, hone, hid₁.trans (hsid.trans hs'), hspec₁⟩,
        ⟨node, hn, hid.symm, rfl⟩⟩
    | outward old ho hid hs' ht' hk =>
      have hin := (hw.closed old ho).2
      rw [← ht', ← htid] at hin
      obtain ⟨two, htwo, hid₂, hspec₂⟩ := hold target ht hin
      rw [hnew source hs (hsid ▸ hs')]
      exact hd old ho key _ _ ⟨hk key hc.fills, ⟨node, hn, hid.symm, rfl⟩,
        ⟨two, htwo, hid₂.trans (htid.trans ht'), hspec₂⟩⟩
    | chain hs' ht' _ =>
      exact .inl ((hnew source hs (hsid ▸ hs')).trans (hnew target ht (htid ▸ ht')).symm)

theorem Descends.splitNode {jobs : List Job} {id : NodeId} {u : Unit} (ho : g.Orderly jobs)
    (hstep : splitNode id g = .ok u g') : Descends built g' := by
  cases turned_of_splitNode hstep with
  | absent _ => exact hd
  | idle _ hf _ => exact hd.of_retains ((moves_drivers id).of_ok hf).retains
  | collapsed _ hf _ hc =>
    exact hd.of_retains (trans_of Retains ((moves_drivers id).of_ok hf).retains
      ((moves_collapse id _).of_ok hc))
  | replaced hn hf _ _ hr =>
    obtain ⟨hin, rfl⟩ := id_of_node? hn
    obtain ⟨serial, added, parts, -, -, h⟩ := replicated_of_replicate
      (ho.wellFormed.below _ (List.mem_map_of_mem hin)) (traced_of_drivers hf)
      ((moves_drivers _).of_ok hf).retains hr
    exact hd.of_replicated ho.wellFormed ho.loopless hin h

end Turn

/-- After nodes were repeated, edges go back to those that were there when the graph was built. -/
theorem descends_of_split {pipeline : Pipeline} {built repeated : Graph} {u : Unit}
    (hbuild : build pipeline = .ok built) (hsplit : split built = .ok u repeated) :
    Descends built repeated := by
  obtain ⟨order, horder, hturns⟩ := split_eq_ok hsplit
  obtain ⟨-, hw, hlinked, -⟩ := build_spec hbuild
  have ho : built.Orderly pipeline.jobs := orderly_of_topologicalOrder hw hlinked
    (fun node hn => (nodes_of_build hbuild node hn).1) horder
  exact (forM_keeps (P := fun t : Graph => t.Orderly pipeline.jobs ∧ Descends built t)
    (fun _ _ _ _ _ ht hstep => ⟨orderly_splitNode ht.1 hstep, ht.2.splitNode ht.1 hstep⟩)
    ⟨ho, descends_self built⟩ hturns).2

section Naming

variable {g : Graph} (hm : g.Mirrored) {node : Node} (hn : node ∈ g.nodes) {start : ScopeId}
  (hs : g.scope.forest.child? Forest.root node.name = some start)

include hm hn hs

/-- A key in the scope of a node belongs to no other node. -/
theorem owner_of_child? {key : String} {leaf : ScopeId}
    (hleaf : g.scope.forest.child? start key = some leaf) {owner : OutputOwner}
    (h : g.outputOwner? leaf = some owner) : owner.node = node := by
  have hfind : g.find? node.name = some node := find?_eq_some_of_nodup hm.names hn
  rw [outputOwner?, Forest.pathOf_of_child? hm.sound hs hleaf] at h
  simp only [hfind, Option.bind_eq_bind, Option.bind_some, Option.bind_eq_some_iff] at h
  obtain ⟨parameter, -, scope, -, h⟩ := h
  split at h
  · cases h
    rfl
  · cases h

/-- A node that refers to itself by name finds no output of another one. -/
theorem owner_of_own_name {out : String} {owner : OutputOwner}
    (h : (g.scope.forest.lookup? start [node.name, out]).bind (g.outputOwner? ·.1) = some owner) :
    owner.node = node := by
  obtain ⟨found, hfound, howner⟩ := Option.bind_eq_some_iff.mp h
  obtain ⟨anchor, hanchor, hfound⟩ := Option.bind_eq_some_iff.mp hfound
  obtain ⟨other, hother, hfound⟩ := Option.bind_eq_some_iff.mp hfound
  obtain rfl := Option.some.inj hfound
  obtain ⟨hmem, hname⟩ := Forest.mem_of_child? hs
  have habove : g.scope.forest.parent? start = some Forest.root := hm.sound.parent _ _ hmem
  cases hkey : g.scope.forest.child? start node.name with
  | some leaf =>
    -- A key of its own is called the same.
    rw [Forest.anchor?, hkey, Option.some_or, Option.some_or] at hanchor
    obtain rfl := Option.some.inj hanchor
    have hnone : g.scope.forest.child? leaf out = none := by
      rw [Forest.child?, hm.sound.flat start hmem leaf (Forest.mem_of_child? hkey).1, List.find?_nil]
    rw [Forest.descend?, hnone] at hother
    dsimp only at hother
    split at hother
    · obtain rfl := Option.some.inj hother
      exact owner_of_child? hm hn hs hkey howner
    · cases hother
  | none =>
    have hself : (g.scope.forest.chain start).findSome? (g.scope.forest.findAt? node.name) =
        some start := by
      rw [Forest.chain_of_parent? hm.sound habove, List.findSome?_cons, Forest.findAt?, habove, hname]
      simp
    rw [Forest.anchor?, hkey, Option.none_or, hself, Option.some_or] at hanchor
    obtain rfl := Option.some.inj hanchor
    cases hchild : g.scope.forest.child? start out with
    | some leaf =>
      rw [Forest.descend?, hchild] at hother
      obtain rfl := Option.some.inj hother
      exact owner_of_child? hm hn hs hchild howner
    | none =>
      rw [Forest.descend?, hchild] at hother
      dsimp only at hother
      split at hother
      · obtain rfl := Option.some.inj hother
        rw [outputOwner?, Forest.pathOf, Forest.chain_of_parent? hm.sound habove] at howner
        simp [habove, hm.sound.top, hname] at howner
      · cases hother

end Naming

section Lone

variable {pipeline : Pipeline} {built repeated : Graph} {u : Unit}
  (hbuild : build pipeline = .ok built)

include hbuild

/-- When the graph is built, an edge to a parameter that is a single reference comes from what that
leads to. -/
theorem owner_of_lone {key text : String} {path : List String} {first second : Job}
    (hraw : second.declared? key = some (.str text)) (hlone : Template.references text = [path])
    {edge : Edge} (he : edge ∈ built.edges) (h : built.Connects edge key first second) :
    ∃ node ∈ built.nodes, node.spec = second ∧ ∃ start,
      built.scope.forest.child? Forest.root node.name = some start ∧ ∃ owner,
        (built.scope.forest.lookup? start path).bind (built.outputOwner? ·.1) = some owner ∧
          owner.node.spec = first ∧ owner.node.id ≠ node.id := by
  have hm := mirrored_build hbuild
  obtain ⟨source, hs, hsid, rfl⟩ := h.source
  obtain ⟨target, ht, htid, rfl⟩ := h.target
  rcases referred_of_build hbuild he with hafter | ⟨node, hn, start, hstart, parameter, -, raw, hvalue,
    other, hother, owner, v, howner, hne, rfl⟩
  · exact absurd h.fills (Edge.not_fills_of_after hafter key)
  · obtain rfl : node = target := List.inj_on_of_nodup_map hm.ids hn ht htid.symm
    obtain rfl : parameter.name = key := Edge.Fills.unique ⟨_, rfl, rfl⟩ h.fills
    rw [configured?_of_build hbuild hn, Node.declared?, hraw] at hvalue
    obtain rfl := Option.some.inj hvalue
    obtain rfl : other = path := List.mem_singleton.mp (hlone ▸ hother)
    obtain ⟨leaf, -, howns⟩ := Option.bind_eq_some_iff.mp howner
    obtain rfl : owner.node = source :=
      List.inj_on_of_nodup_map hm.ids (outputOwner?_spec howns).1 hs hsid.symm
    exact ⟨node, hn, rfl, start, hstart, owner, howner, rfl, hne⟩

/-- If a parameter is declared to be a reference to the job that an edge to it comes from, all edges to
it come from that job, or from repetitions of its own. -/
theorem akin_of_split (hsplit : split built = .ok u repeated) {key text out : String}
    {source target other : Job} (hraw : target.declared? key = some (.str text))
    (hlone : Template.references text = [[source.id, out]]) {edge edge' : Edge}
    (he : edge ∈ repeated.edges) (h : repeated.Connects edge key source target)
    (he' : edge' ∈ repeated.edges) (h' : repeated.Connects edge' key other target) :
    other = target ∨ other = source := by
  have hm := mirrored_build hbuild
  have hd := descends_of_split hbuild hsplit
  rcases hd edge' he' key _ _ h' with heq | ⟨old', hold', hc'⟩
  · exact .inl heq
  · obtain ⟨node', hn', hspec', start', hstart', owner', howner', hfrom', hne'⟩ :=
      owner_of_lone hbuild hraw hlone hold' hc'
    right
    rcases hd edge he key _ _ h with rfl | ⟨old, hold, hc⟩
    · have hname : node'.name = source.id := by rw [(nodes_of_build hbuild node' hn').2.1, hspec']
      rw [← hname] at howner'
      exact absurd (congrArg Node.id (owner_of_own_name hm hn' hstart' howner')) hne'
    · obtain ⟨node, hn, hspec, start, hstart, owner, howner, hfrom, -⟩ :=
        owner_of_lone hbuild hraw hlone hold hc
      obtain rfl : node = node' := eq_of_spec hbuild hn hn' (hspec.trans hspec'.symm)
      obtain rfl := Option.some.inj (hstart.symm.trans hstart')
      obtain rfl := Option.some.inj (howner.symm.trans howner')
      exact hfrom'.symm.trans hfrom

end Lone

section Expanding

variable {prepare : GraphM Unit} {g g' : Graph} {u : Unit}

/-- When a node is replaced the edges between others stay. -/
theorem sublist_of_expandNode {id : NodeId} (h : expandNode prepare id g = .ok u g') :
    (g.edges.filter (!·.touches id)).Sublist g'.edges := by
  cases expands_of_expandNode h with
  | plain _ _ => exact List.filter_sublist
  | @replaced _ _ _ _ _ t t' more _ _ _ _ hsettings _ _ hadopt hbetween =>
    have hread : SameButMemo g t := (moves_configuration _).of_ok hsettings
    have hmore : SameButMemo t' more := (moves_adoptEdges _ _).of_ok hbetween
    obtain ⟨added, ⟨-, scope, rfl⟩, -, -⟩ := extends_of_adoptNodes hadopt
    have hedges : more.edges = g.edges := hmore.edges.trans hread.edges
    rw [← hedges]
    exact List.sublist_append_left _ _

theorem sublist_of_expansions {ids : List NodeId} (h : ids.forM (expandNode prepare) g = .ok u g')
    {edges : List Edge} (hsub : edges.Sublist g.edges)
    (hfree : ∀ edge ∈ edges, ∀ id ∈ ids, edge.touches id = false) : edges.Sublist g'.edges := by
  refine forM_keeps (P := fun t : Graph => edges.Sublist t.edges)
    (fun id hid t _ t' ht hstep => ?_) hsub h
  refine List.Sublist.trans ?_ (sublist_of_expandNode hstep)
  have hall : edges.filter (!·.touches id) = edges :=
    List.filter_eq_self.mpr fun edge he => by rw [hfree edge he id hid]; rfl
  exact hall ▸ ht.filter _

/-- A node with a pipeline of its own gives way. -/
theorem not_mem_of_expandNode {id : NodeId} (h : expandNode prepare id g = .ok u g')
    (hnested : ∀ node ∈ g.nodes, node.id = id → node.spec.nested?.isSome) :
    id ∉ g'.nodes.map (·.id) := by
  cases expands_of_expandNode h with
  | plain hn hnone =>
    obtain ⟨hin, hid⟩ := id_of_node? hn
    have hsome := hnested _ hin hid
    rw [hnone] at hsome
    cases hsome
  | replaced _ _ _ _ _ _ _ =>
    intro hmem
    obtain ⟨node, hn, rfl⟩ := List.mem_map.mp hmem
    simpa using (List.mem_filter.mp hn).2

/-- So do all nodes with one. -/
theorem not_mem_of_expansions {ids : List NodeId} (h : ids.forM (expandNode prepare) g = .ok u g')
    (hlt : ∀ id ∈ ids, id < g.nextId)
    (hnested : ∀ id ∈ ids, ∀ node ∈ g.nodes, node.id = id → node.spec.nested?.isSome) :
    ∀ id ∈ ids, id ∉ g'.nodes.map (·.id) := by
  induction ids generalizing g with
  | nil => simp
  | cons id ids ih =>
    obtain ⟨_, t, hstep, hrest⟩ := bind_eq_ok.mp h
    obtain ⟨hnext, holder, -⟩ := mem_of_expandNode hstep
    have hlast := ih hrest
      (fun other ho => (hlt other (List.mem_cons_of_mem _ ho)).trans_le hnext)
      (fun other ho node hn hid => hnested other (List.mem_cons_of_mem _ ho) node
        (holder node hn (hid ▸ hlt other (List.mem_cons_of_mem _ ho))) hid)
    intro other ho
    rcases List.mem_cons.mp ho with rfl | ho
    · -- It is not there any more, and its handle is not given out again.
      have hgone := not_mem_of_expandNode hstep (hnested other List.mem_cons_self)
      refine (forM_keeps (P := fun s : Graph => t.nextId ≤ s.nextId ∧ other ∉ s.nodes.map (·.id))
        (fun _ _ s _ s' hs hstep' => ?_) ⟨le_rfl, hgone⟩ hrest).2
      obtain ⟨hnext', holder', -⟩ := mem_of_expandNode hstep'
      refine ⟨hs.1.trans hnext', fun hmem => hs.2 ?_⟩
      obtain ⟨node, hn, rfl⟩ := List.mem_map.mp hmem
      have hold := (hlt node.id List.mem_cons_self).trans_le (hnext.trans hs.1)
      exact List.mem_map_of_mem (holder' node hn hold)
    · exact hlast other ho

end Expanding

section Prepared

variable {options : CompileOptions} {prepare : GraphM Unit} {pipeline : Pipeline}
  {built repeated filled expanded prepared : Graph} {u v w x : Unit}

/-- Where nodes with pipelines are replaced, one that was there before has none in the end. -/
theorem plain_of_expandWithin (hm : filled.Mirrored)
    (hexpand : expandWithin options prepare filled = .ok u expanded)
    (hfinalize : finalize expanded = .ok v prepared) (hon : options.expandNested = true) {node : Node}
    (hn : node ∈ prepared.nodes) (hlt : node.id < filled.nextId) : node.spec.nested? = none := by
  have hrun := expandWithin_eq_ok hexpand
  rw [if_pos hon] at hrun
  obtain ⟨middle, hmiddle, houtline, -⟩ := exists_filled hexpand hfinalize hn hlt
  have hspec : node.spec = middle.spec := spec_of_outline houtline
  have hid : node.id = middle.id := id_of_outline houtline
  by_contra hsome
  have hmem : node.id ∈ filled.nestedIds := by
    refine List.mem_map.mpr ⟨middle, List.mem_filter.mpr ⟨hmiddle, ?_⟩, hid.symm⟩
    exact hspec ▸ Option.isSome_iff_ne_none.mpr hsome
  refine not_mem_of_expansions hrun (fun id hid => ?_) (fun id hid other ho hsame => ?_) _ hmem ?_
  · obtain ⟨other, ho, rfl⟩ := List.mem_map.mp hid
    exact hm.below _ (List.mem_map_of_mem (List.mem_of_mem_filter ho))
  · obtain ⟨first, hfirst, rfl⟩ := List.mem_map.mp hid
    obtain ⟨hin, hnested⟩ := List.mem_filter.mp hfirst
    obtain rfl := List.inj_on_of_nodup_map hm.ids ho hin hsame
    exact hnested
  · have hlast : node.pending ∈ expanded.nodes.map Node.pending :=
      (pending_of_finalize hfinalize).2 ▸ List.mem_map_of_mem hn
    obtain ⟨last, hin, hpending⟩ := List.mem_map.mp hlast
    exact (values_of_pending hpending).1 ▸ List.mem_map_of_mem hin

section Lone

variable (hbuild : build pipeline = .ok built) (hsplit : split built = .ok u repeated)
  (hconfigure : configure repeated = .ok v filled)
  (hexpand : expandWithin options prepare filled = .ok w expanded)
  (hfinalize : finalize expanded = .ok x prepared)

include hbuild hsplit hconfigure hexpand hfinalize

/-- A node that was there when nodes had been repeated had the same job, and if it is there in the end
when nodes with pipelines have been replaced, it has none. -/
theorem exists_repeated {node : Node} (hn : node ∈ prepared.nodes)
    (hid : node.id ∈ repeated.nodes.map (·.id)) :
    ∃ old ∈ repeated.nodes, old.id = node.id ∧ old.spec = node.spec ∧
      (options.expandNested = true → node.spec.nested? = none) := by
  have hw := (orderly_of_split hbuild hsplit).wellFormed
  have hm : filled.Mirrored :=
    (inStep_spread (bind_eq_ok.mpr ⟨u, repeated, hsplit, hconfigure⟩) (mirrored_build hbuild)).1
  have hnext : filled.nextId = repeated.nextId := (moves_configure.of_ok hconfigure).nextId
  obtain ⟨old, hold, houtline, -⟩ := exists_origin hexpand hfinalize hw.below hconfigure hn hid
  exact ⟨old, hold, (id_of_outline houtline).symm, (spec_of_outline houtline).symm,
    fun hon => plain_of_expandWithin hm hexpand hfinalize hon hn (hnext ▸ hw.below _ hid)⟩

variable {edge : Edge} (he : edge ∈ repeated.edges) {source target : Node}
  (hs : source ∈ prepared.nodes) (hsource : source.id = edge.source) (ht : target ∈ prepared.nodes)
  (htarget : target.id = edge.target) {key text out : String} (hfills : edge.Fills key)
  (hraw : target.declared? key = some (.str text))
  (hlone : Template.references text = [[source.spec.id, out]])

include he hs hsource ht htarget hfills hraw hlone

/-- Where a parameter is declared to be a reference to the job that an edge to it comes from, no edge
to it is touched when nodes with pipelines are replaced: all come from that job or from its own. -/
theorem untouched_of_lone (hon : options.expandNested = true) {other : Edge}
    (hother : other ∈ repeated.fed target.id key) :
    ∀ id ∈ filled.nestedIds, other.touches id = false := by
  have hw := (orderly_of_split hbuild hsplit).wellFormed
  obtain ⟨hin, hin'⟩ := hw.closed edge he
  obtain ⟨first, hfirst, hfirstId, hfirstSpec, hplain⟩ :=
    exists_repeated hbuild hsplit hconfigure hexpand hfinalize hs (hsource ▸ hin)
  obtain ⟨second, hsecond, hsecondId, hsecondSpec, hplain'⟩ :=
    exists_repeated hbuild hsplit hconfigure hexpand hfinalize ht (htarget ▸ hin')
  obtain ⟨hother, hinto⟩ := List.mem_filter.mp hother
  obtain ⟨hto, hkey⟩ := Edge.into_iff.mp hinto
  obtain ⟨origin, horigin, horiginId⟩ := List.mem_map.mp (hw.closed other hother).1
  have hakin := akin_of_split hbuild hsplit hraw hlone he
    ⟨hfills, ⟨first, hfirst, hfirstId.trans hsource, hfirstSpec⟩,
      ⟨second, hsecond, hsecondId.trans htarget, hsecondSpec⟩⟩ hother
    ⟨hkey, ⟨origin, horigin, horiginId, rfl⟩,
      ⟨second, hsecond, hsecondId.trans hto.symm, hsecondSpec⟩⟩
  have horiginPlain : origin.spec.nested? = none :=
    hakin.elim (fun heq => heq ▸ hplain' hon) fun heq => heq ▸ hplain hon
  intro id hid
  obtain ⟨owner, howner, rfl⟩ := List.mem_map.mp hid
  obtain ⟨howner, hnested⟩ := List.mem_filter.mp howner
  have hsame : SameOutline repeated filled := moves_configure.of_ok hconfigure
  obtain ⟨old, hold, holdId, holdSpec⟩ := hsame.retains.exists_node howner
  have hne : ∀ node ∈ repeated.nodes, node.spec.nested? = none → node.id ≠ owner.id := by
    intro node hn hnone heq
    obtain rfl := List.inj_on_of_nodup_map hw.nodup hn hold (heq.trans holdId.symm)
    rw [← holdSpec, hnone] at hnested
    cases hnested
  have hstart : other.source ≠ owner.id := horiginId ▸ hne origin horigin horiginPlain
  have hend : other.target ≠ owner.id :=
    hto ▸ hsecondId ▸ hne second hsecond (hsecondSpec ▸ hplain' hon)
  simp [Edge.touches, hstart, hend]

/-- So these edges are all there in the end. -/
theorem sublist_of_lone : (repeated.fed target.id key).Sublist prepared.edges := by
  have hedges : filled.edges = repeated.edges := (moves_configure.of_ok hconfigure).edges
  rw [(moves_finalize.of_ok hfinalize).edges]
  have hrun := expandWithin_eq_ok hexpand
  split at hrun
  next hon =>
    exact sublist_of_expansions hrun (hedges ▸ List.filter_sublist) fun _ hother =>
      untouched_of_lone hbuild hsplit hconfigure hexpand hfinalize he hs hsource ht htarget hfills hraw
        hlone hon hother
  next => exact hrun ▸ hedges ▸ List.filter_sublist

/-- If in the end one edge leads to such a parameter, it was the only one when values were handed on. -/
theorem fed_of_stages (hfed : prepared.fed target.id key = [edge]) :
    repeated.fed target.id key = [edge] := by
  have hsub := sublist_of_lone hbuild hsplit hconfigure hexpand hfinalize he hs hsource ht htarget
    hfills hraw hlone
  have hself : (repeated.fed target.id key).filter (Edge.into target.id key) =
      repeated.fed target.id key :=
    List.filter_eq_self.mpr fun _ hmem => (List.mem_filter.mp hmem).2
  have hagain : (repeated.fed target.id key).Sublist [edge] := by
    rw [← hself, ← hfed]
    exact hsub.filter _
  rcases List.sublist_singleton.mp hagain with hnone | hone
  · have hmem : edge ∈ repeated.fed target.id key :=
      List.mem_filter.mpr ⟨he, Edge.into_iff.mpr ⟨htarget.symm, hfills⟩⟩
    rw [hnone] at hmem
    cases hmem
  · exact hone

end Lone

end Prepared

end Graph

end Pipework
