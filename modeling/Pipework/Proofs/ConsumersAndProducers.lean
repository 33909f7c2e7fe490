import Pipework.Proofs.GrowingTrees
import Pipework.Proofs.LastTurn
import Pipework.Proofs.Lineage

/-!
# Consumers and producers agree

A value is handed on along an edge once, when the edge has its turn, and what its source comes to is
found out in the end. A parameter that is nothing but a reference to an output ends up with what the
output comes to, if all that this reads, from reference to reference, stands when the edge has its
turn: no edge that leads there has its turn then or later. References to values that are no outputs
make no edges, and so do not keep this from failing.
-/

namespace Pipework

open Step Resolve

namespace Graph

/-- The value of a scope stands when these edges are still to be applied. It is shared by all nodes, or
lies in a scope that was there when nodes had been repeated, and none of these edges leads to it. -/
def Standing (repeated : Graph) (waiting : List Nat) (late : Forest) (id : ScopeId) : Prop :=
  ∃ owner? key, late.place? owner? key = some id ∧ ∀ owner ∈ owner?,
    (repeated.scope.forest.child? Forest.root owner).isSome ∧ ¬ repeated.FeedsName waiting owner key

section Moment

variable {options : CompileOptions} {prepare : GraphM Unit} {pipeline : Pipeline}
  {built repeated filled expanded prepared g : Graph} {u v w x : Unit} {done waiting : List Nat}
  (hbuild : build pipeline = .ok built) (hsplit : split built = .ok u repeated)
  (hbefore : done.forM applyEdge repeated = .ok v g)
  (hrest : waiting.forM applyEdge g = .ok w filled)
  (hexpand : expandWithin options prepare filled = .ok x expanded)
  (hfinalize : finalize expanded = .ok () prepared)

include hbuild hsplit hbefore hrest hexpand hfinalize

/-- From a moment of handing on values to the end, scopes only grow. -/
theorem grows_of_moment : g.scope.Sane ∧ prepared.scope.Sane ∧
    g.scope.forest.Grows prepared.scope.forest := by
  have hcovers := covers_onScopes ScopeTree.underlies_evolves
  have happly : ∀ places : List Nat, Moves (OnScopes ScopeTree.Evolves) (places.forM applyEdge) :=
    fun _ => .forM fun place _ => hcovers.moves_applyEdge place
  have hfirst : OnScopes ScopeTree.Evolves built g := trans_of (OnScopes ScopeTree.Evolves)
    (hcovers.moves_split.of_ok hsplit) ((happly done).of_ok hbefore)
  have hlast : OnScopes ScopeTree.Evolves g prepared := trans_of (OnScopes ScopeTree.Evolves)
    (trans_of (OnScopes ScopeTree.Evolves) ((happly waiting).of_ok hrest)
      ((hcovers.moves_expandWithin options prepare).of_ok hexpand))
    (hcovers.moves_finalize.of_ok hfinalize)
  obtain ⟨hsane, -⟩ := hfirst (sane_build hbuild)
  exact ⟨hsane, hlast hsane⟩

/-- What stands at a moment does not change from then on. -/
theorem Standing.raw?_eq {id : ScopeId} (h : repeated.Standing waiting prepared.scope.forest id)
    (hid : (prepared.scope.forest.raw? id).isSome) :
    g.scope.forest.raw? id = prepared.scope.forest.raw? id := by
  obtain ⟨hsane, -, hgrows⟩ := grows_of_moment hbuild hsplit hbefore hrest hexpand hfinalize
  have hm : repeated.Mirrored := (inStep_split hsplit (mirrored_build hbuild)).1
  obtain ⟨hmid, -, -⟩ := midway_of_forM (midway_start hm) hbefore
  have hsticks := sticks_of_forM (midway_start hm) hbefore
  obtain ⟨owner?, key, hplace, hstands⟩ := h
  have hfixed : g.scope.forest.Fixed prepared.scope.forest owner? key :=
    (sticks_of_moment hmid hrest hexpand hfinalize).fixed hmid.mirrored fun owner howner =>
      ⟨(hsticks.scopes hm owner (hstands owner howner).1).1, (hstands owner howner).2⟩
  obtain ⟨raw, hraw⟩ := Option.isSome_iff_exists.mp hid
  have hentry : g.scope.forest.entry? owner? key = some raw := by
    rw [hfixed.1, Forest.entry?, hplace, Option.bind_some, hraw]
  obtain ⟨other, hother, hvalue⟩ := Option.bind_eq_some_iff.mp hentry
  obtain rfl := Option.some.inj ((hgrows.place? hsane.layered hother).symm.trans hplace)
  rw [hvalue, hraw]

/-- What has come to a value at a moment comes to the same in the end, if nothing that it reads has
changed since. -/
theorem current_of_unchanged (hm : prepared.Mirrored)
    (hsettled : ∀ node ∈ prepared.nodes, prepared.Settled node) {source : Node}
    (hs : source ∈ prepared.nodes) {key : String} {leaf : ScopeId}
    (hleaf : prepared.scope.forest.leaf? source.name key = some leaf)
    (hreads : prepared.scope.forest.Reads
      (fun id => g.scope.forest.raw? id = prepared.scope.forest.raw? id) leaf)
    (hg : g.Mirrored) {now : Node} (hn : now ∈ g.nodes) (hname : now.name = source.name)
    {current : Option Value} {t : Graph} (hread : propertyValue now.id key g = .ok current t) :
    ∃ value, prepared.outcome? source.id key = some value ∧ current = some value := by
  obtain ⟨hsane, hsane', hgrows⟩ := grows_of_moment hbuild hsplit hbefore hrest hexpand hfinalize
  obtain ⟨hsame, hvalued⟩ := hreads.raw?
  obtain ⟨scope, hscope, hchild⟩ := Option.bind_eq_some_iff.mp hleaf
  obtain ⟨raw, hraw⟩ := Option.isSome_iff_exists.mp hvalued
  -- The value is in the same place at the moment.
  have hearly : g.scope.forest.leaf? now.name key = some leaf := by
    obtain ⟨room, hroom, -⟩ := hg.room now hn
    have hstart : g.scope.forest.child? Forest.root now.name = some room := hroom
    obtain rfl := Option.some.inj ((hgrows.child? hsane.layered hstart).symm.trans (hname ▸ hscope))
    refine Option.bind_eq_some_iff.mpr ⟨room, hstart, hgrows.child?_of_lt hsane.layered hchild ?_⟩
    exact Forest.lt_size_of_raw? (hsame ▸ hvalued)
  have hvalue : (source.configured? key).isSome := by
    rw [← hm.entry?_eq hs, Forest.entry?_some, hleaf, Option.bind_some, hraw]
    rfl
  obtain ⟨value, houtcome, last, hlast, -, hlate⟩ := exists_outcome hm hsettled hs hvalue
  obtain rfl := Option.some.inj (hlast.symm.trans hleaf)
  refine ⟨value, houtcome, ?_⟩
  have hthere : (g.scope.forest.entry? (some now.name) key).isSome := by
    rw [Forest.entry?_some, hearly, Option.bind_some, hsame, hraw]
    rfl
  obtain ⟨found, rfl, leaf, hleaf', -, hlookup⟩ := remembers_of_entry hg hn hread hthere
  have hbutMemo : SameButMemo g t := (moves_propertyValue _ _).of_ok hread
  obtain ⟨ht, -⟩ := (covers_onScopes ScopeTree.underlies_evolves).read g t hbutMemo hsane
  have hforest : t.scope.forest = g.scope.forest := by
    obtain ⟨memo, -, rfl⟩ := hbutMemo
    rfl
  have hbacked := ht.backed
  rw [hforest] at hbacked hleaf'
  obtain rfl := Option.some.inj (hleaf'.symm.trans hearly)
  exact congrArg some (lookup_unique hsane.layered hgrows hreads hbacked hsane'.backed
    hlookup hlate)

end Moment

/-- What the last edge to a parameter hands on is what its source comes to in the end, if nothing that
this reads has changed since. -/
theorem LastTurn.hands_on {options : CompileOptions} {prepare : GraphM Unit} {pipeline : Pipeline}
    {built repeated filled expanded prepared g : Graph} {u v w : Unit}
    (hbuild : build pipeline = .ok built) (hsplit : split built = .ok u repeated)
    (hconfigure : configure repeated = .ok v filled)
    (hexpand : expandWithin options prepare filled = .ok w expanded)
    (hfinalize : finalize expanded = .ok () prepared) {edge : Edge} {link : DataLink}
    {source target : Node} (hk : edge.kind = .data link) (hwhole : link.cardinality = .oneToOne)
    (h : repeated.LastTurn target.id link.targetProperty edge g) (hs : source ∈ prepared.nodes)
    (hstart : source.id = edge.source) (ht : target ∈ prepared.nodes)
    (hplain : ∀ parameter ∈ target.parameter? link.targetProperty, parameter.isFile = false)
    (hm : prepared.Mirrored) (hsettled : ∀ node ∈ prepared.nodes, prepared.Settled node)
    {leaf : ScopeId}
    (hleaf : prepared.scope.forest.leaf? source.name link.sourceProperty = some leaf)
    (hreads : prepared.scope.forest.Reads
      (fun id => g.scope.forest.raw? id = prepared.scope.forest.raw? id) leaf)
    (hyields : ∀ now ∈ g.nodes, now.id = target.id →
      Merge.Yields link [source.name, source.spec.id] (now.configured? link.targetProperty)) :
    ∃ value, prepared.outcome? source.id link.sourceProperty = some value ∧
      target.configured? link.targetProperty = some (Merge.pick link value) := by
  have hw : repeated.WellFormed := (orderly_of_split hbuild hsplit).wellFormed
  have hmirrored : repeated.Mirrored := (inStep_split hsplit (mirrored_build hbuild)).1
  obtain ⟨done, place, _, _, hedge, -, hmid, hdone, hrest, -⟩ := h.moment hw hmirrored hconfigure
  -- The source at that moment.
  have hin : source.id ∈ repeated.nodes.map (·.id) :=
    hstart ▸ (hw.closed edge (List.mem_of_getElem? hedge)).1
  obtain ⟨giver, hgiver, hgives, -⟩ := exists_meanwhile hconfigure hexpand hfinalize hw hmid hs hin
  have hname : giver.name = source.name := name_of_outline hgives
  have hspec : giver.spec = source.spec := spec_of_outline hgives
  have hid : giver.id = edge.source := (id_of_outline hgives).trans hstart
  obtain ⟨current, t, hread, hvalue⟩ := h.handed hconfigure hexpand hfinalize hw hmirrored hk hwhole ht
    hplain fun other hat => by
      obtain rfl := Option.some.inj ((hmid.mirrored.node?_eq_some hgiver).symm.trans (hid ▸ hat))
      rw [hname, hspec]
      exact hyields
  obtain ⟨value, houtcome, rfl⟩ := current_of_unchanged hbuild hsplit hdone hrest hexpand hfinalize
    hm hsettled hs hleaf hreads hmid.mirrored hgiver hname (hid ▸ hread)
  exact ⟨value, houtcome, hvalue⟩

/-- In the end a parameter that takes no files is declared to be nothing but a reference to what an
edge hands on to it as a whole, and no other edge leads to it. -/
structure Copies (prepared : Graph) (edge : Edge) (link : DataLink) (source target : Node) : Prop where
  /-- The edge hands on a value. -/
  kind : edge.kind = .data link
  /-- It hands on a value as a whole, or an element of it. -/
  whole : link.cardinality = .oneToOne
  /-- It starts at the one node. -/
  starts : source.id = edge.source
  /-- It ends at the other. -/
  ends : target.id = edge.target
  /-- The parameter takes no files. -/
  plain : ∀ parameter ∈ target.parameter? link.targetProperty, parameter.isFile = false
  /-- It is the only edge that hands on a value to the parameter. -/
  only : prepared.fed target.id link.targetProperty = [edge]
  /-- The parameter is declared to be the reference. -/
  declared : ∃ text, target.declared? link.targetProperty = some (.str text) ∧
    Template.singleReference? text = some [source.spec.id, link.sourceProperty]

theorem copies_iff {prepared : Graph} {edge : Edge} {link : DataLink} {source target : Node} :
    prepared.Copies edge link source target ↔
      (edge.kind = .data link ∧ link.cardinality = .oneToOne) ∧
      (source.id = edge.source ∧ target.id = edge.target) ∧
      (∀ parameter ∈ target.parameter? link.targetProperty, parameter.isFile = false) ∧
      prepared.fed target.id link.targetProperty = [edge] ∧
      ((target.declared? link.targetProperty).bind Value.text?).bind Template.singleReference? =
        some [source.spec.id, link.sourceProperty] := by
  constructor
  · rintro ⟨hkind, hwhole, hstart, hend, hplain, honly, text, hraw, hsingle⟩
    exact ⟨⟨hkind, hwhole⟩, ⟨hstart, hend⟩, hplain, honly, by simp [hraw, Value.text?, hsingle]⟩
  · rintro ⟨⟨hkind, hwhole⟩, ⟨hstart, hend⟩, hplain, honly, hdeclared⟩
    obtain ⟨text, htext, hsingle⟩ := Option.bind_eq_some_iff.mp hdeclared
    obtain ⟨raw, hraw, htext⟩ := Option.bind_eq_some_iff.mp htext
    cases raw with
    | str other =>
      obtain rfl := Option.some.inj htext
      exact ⟨hkind, hwhole, hstart, hend, hplain, honly, other, hraw, hsingle⟩
    | bool _ | int _ | float _ | list _ => cases htext

instance (prepared : Graph) (edge : Edge) (link : DataLink) (source target : Node) :
    Decidable (prepared.Copies edge link source target) := decidable_of_iff _ copies_iff.symm

/-- What is there, or was declared if nothing is, gives way to what the edge hands on. -/
theorem Copies.yields {prepared : Graph} {edge : Edge} {link : DataLink} {source target : Node}
    (hc : prepared.Copies edge link source target) {given? : Option Value}
    (hgiven : ∀ given ∈ given?, ∀ path ∈ given.references,
      Merge.fieldsOf? link.sourceProperty [source.name, source.spec.id] path = none) :
    Merge.Yields link [source.name, source.spec.id]
      (given?.or (target.declared? link.targetProperty)) := by
  cases given? with
  | some given =>
    rw [Option.some_or]
    exact yields_of_references (hgiven given rfl)
  | none =>
    obtain ⟨text, hraw, hsingle⟩ := hc.declared
    rw [Option.none_or, hraw]
    exact yields_of_singleReference? hsingle (by simp [Merge.fieldsOf?])

section Turn

variable {options : CompileOptions} {prepare : GraphM Unit} {pipeline : Pipeline}
  {built repeated filled expanded prepared g : Graph} {u v w : Unit}
  (hconfigure : configure repeated = .ok v filled)
  (hexpand : expandWithin options prepare filled = .ok w expanded)
  (hfinalize : finalize expanded = .ok () prepared)

include hconfigure hexpand hfinalize

variable (hbuild : build pipeline = .ok built) (hsplit : split built = .ok u repeated) {edge : Edge}
  {link : DataLink} {source target : Node} (hs : source ∈ prepared.nodes)
  (ht : target ∈ prepared.nodes) (hc : prepared.Copies edge link source target) {order : List Node}
  (horder : repeated.topologicalOrder = .ok order) {before behind : List Nat} {place : Nat}
  (hturn : repeated.applicationOrder order = before ++ place :: behind)
  (hbefore : before.forM applyEdge repeated = .ok () g) (hedge : repeated.edges[place]? = some edge)
  (hdealt : ∀ first ∈ repeated.nodes, first.id = edge.target →
    ∀ given ∈ first.overrides.get? link.targetProperty, ∀ path ∈ given.references,
      Merge.fieldsOf? link.sourceProperty [source.name, source.spec.id] path = none)

include hbuild hsplit hs ht hc horder hturn hbefore hedge

omit horder hturn hbefore in
/-- No other edge led to the parameter when values were handed on. -/
theorem Copies.eq_of_feeds {other : Nat}
    (h : Feeds repeated.edges target.id link.targetProperty other) : other = place := by
  obtain ⟨text, hraw, hsingle⟩ := hc.declared
  have hfills : edge.Fills link.targetProperty := ⟨link, hc.kind, rfl⟩
  obtain ⟨lone, -, honce⟩ := exists_place_of_fed <|
    fed_of_stages hbuild hsplit hconfigure hexpand hfinalize (List.mem_of_getElem? hedge) hs hc.starts ht
      hc.ends hfills hraw (Template.references_of_singleReference? hsingle) hc.only
  exact (honce other h).trans (honce place ⟨edge, hedge, hc.ends.symm, hfills⟩).symm

/-- So it is the last one. -/
theorem Copies.lastTurn : repeated.LastTurn target.id link.targetProperty edge g := by
  have hw : repeated.WellFormed := (orderly_of_split hbuild hsplit).wellFormed
  have hnodup := (sequence_of_topologicalOrder hw horder).nodup
  rw [hturn] at hnodup
  refine ⟨order, before, place, behind, horder, hturn, hedge,
    ⟨edge, hedge, hc.ends.symm, link, hc.kind, rfl⟩, fun other hother hfeeds => ?_, hbefore⟩
  obtain rfl := hc.eq_of_feeds hconfigure hexpand hfinalize hbuild hsplit hs ht hedge hfeeds
  exact (List.nodup_cons.mp (List.nodup_append.mp hnodup).2.1).1 hother

include hdealt

/-- If nothing that the source reads changes from then on, source and target agree in the end. -/
theorem Copies.agree_of_unchanged (hm : prepared.Mirrored)
    (hsettled : ∀ node ∈ prepared.nodes, prepared.Settled node) {leaf : ScopeId}
    (hleaf : prepared.scope.forest.leaf? source.name link.sourceProperty = some leaf)
    (hreads : prepared.scope.forest.Reads
      (fun id => g.scope.forest.raw? id = prepared.scope.forest.raw? id) leaf)
    (hplain : ∀ value, prepared.outcome? source.id link.sourceProperty = some value →
      (Merge.pick link value).references = []) :
    ∃ value, prepared.outcome? source.id link.sourceProperty = some value ∧
      prepared.outcome? target.id link.targetProperty = some (Merge.pick link value) := by
  have hw : repeated.WellFormed := (orderly_of_split hbuild hsplit).wellFormed
  have hstart : repeated.Mirrored := (inStep_split hsplit (mirrored_build hbuild)).1
  have hlast := hc.lastTurn hconfigure hexpand hfinalize hbuild hsplit hs ht horder hturn hbefore hedge
  obtain ⟨done, spot, _, _, hspot, -, hmid, -, -, -, -, hnew, -⟩ :=
    hlast.moment hw hstart hconfigure
  have honce : ∀ {other}, Feeds repeated.edges target.id link.targetProperty other → other = spot :=
    hc.eq_of_feeds hconfigure hexpand hfinalize hbuild hsplit hs ht hspot
  -- The target at that moment.
  have hin : target.id ∈ repeated.nodes.map (·.id) :=
    hc.ends ▸ (hw.closed edge (List.mem_of_getElem? hedge)).2
  obtain ⟨taker, htaker, htakes, first, hfirst, hfirstId, hkept⟩ :=
    exists_meanwhile hconfigure hexpand hfinalize hw hmid ht hin
  have hspec : taker.spec = target.spec := spec_of_outline htakes
  obtain ⟨value, houtcome, hvalue⟩ := hlast.hands_on hbuild hsplit hconfigure hexpand hfinalize hc.kind
    hc.whole hs hc.starts ht hc.plain hm hsettled hleaf hreads fun now hnow hid => by
      obtain rfl := List.inj_on_of_nodup_map hmid.mirrored.ids hnow htaker
        (hid.trans (id_of_outline htakes).symm)
      rw [Node.configured?, hspec, hkept _ fun other hother hfeeds => hnew (honce hfeeds ▸ hother)]
      exact hc.yields (hdealt first hfirst (hfirstId.trans hc.ends))
  exact ⟨value, houtcome, outcome_of_no_references hm hsettled ht hvalue (hplain value houtcome)⟩

end Turn

/-- Nothing that the source of an edge reads in the end was another when the edge had its turn, what the
edge hands on holds no references, and what that takes the place of does not refer to the source in
another way. An edge that comes from a pipeline inside a job was timely there, and its source came to
something without references. -/
inductive Timely :
    Nat → CompileOptions → Graph → Graph → Edge → DataLink → Node → Node → Prop
  | own {depth : Nat} {options : CompileOptions} {built repeated prepared : Graph} {edge : Edge}
      {link : DataLink} {source target : Node} {order : List Node} {before behind : List Nat}
      {place : Nat} {g : Graph} {leaf : ScopeId} (hsplit : split built = .ok () repeated)
      (horder : repeated.topologicalOrder = .ok order)
      (hturn : repeated.applicationOrder order = before ++ place :: behind)
      (hbefore : before.forM applyEdge repeated = .ok () g)
      (hedge : repeated.edges[place]? = some edge)
      (hleaf : prepared.scope.forest.leaf? source.name link.sourceProperty = some leaf)
      (hreads : prepared.scope.forest.Reads
        (fun id => g.scope.forest.raw? id = prepared.scope.forest.raw? id) leaf)
      (hplain : ∀ value, prepared.outcome? source.id link.sourceProperty = some value →
        (Merge.pick link value).references = [])
      (hdealt : ∀ first ∈ repeated.nodes, first.id = edge.target →
        ∀ given ∈ first.overrides.get? link.targetProperty, ∀ path ∈ given.references,
          Merge.fieldsOf? link.sourceProperty [source.name, source.spec.id] path = none) :
      Timely depth options built prepared edge link source target
  | adopted {depth : Nat} {options : CompileOptions} {built filled prepared built' inner : Graph}
      {owner source target first second : Node} {pipeline : Pipeline} {edge old : Edge}
      {link : DataLink} (hon : options.expandNested = true) (hspread : spread built = .ok () filled)
      (hhouses : Houses (prepareNested (depth + 1)) filled owner pipeline)
      (hbuild : build pipeline = .ok built')
      (hprepare : prepareNested (depth + 1) built' = .ok () inner) (hold : old ∈ inner.edges)
      (hkind : old.kind = edge.kind) (hfirst : first ∈ inner.nodes) (hstart : first.id = old.source)
      (hsecond : second ∈ inner.nodes) (hend : second.id = old.target)
      (hsource : source.name = owner.name ++ "_" ++ first.name)
      (htarget : target.name = owner.name ++ "_" ++ second.name)
      (h : Timely depth {} built' inner old link first second)
      (hfree : ∀ value, inner.outcome? first.id link.sourceProperty = some value →
        value.references = []) :
      Timely (depth + 1) options built prepared edge link source target

/-- It is enough that all that the source reads stands when the edge has its turn. -/
theorem timely_of_standing {depth : Nat} {options : CompileOptions} {pipeline : Pipeline}
    {built repeated prepared : Graph} {u : Unit} (hbuild : build pipeline = .ok built)
    (hsplit : split built = .ok () repeated)
    (hprepare : prepareStages options (prepareNested depth) built = .ok u prepared) {edge : Edge}
    {link : DataLink} {source target : Node} {order : List Node} {before behind : List Nat}
    {place : Nat} {leaf : ScopeId} (horder : repeated.topologicalOrder = .ok order)
    (hturn : repeated.applicationOrder order = before ++ place :: behind)
    (hedge : repeated.edges[place]? = some edge)
    (hleaf : prepared.scope.forest.leaf? source.name link.sourceProperty = some leaf)
    (hreads : prepared.scope.forest.Reads
      (repeated.Standing (place :: behind) prepared.scope.forest) leaf)
    (hplain : ∀ value, prepared.outcome? source.id link.sourceProperty = some value →
      (Merge.pick link value).references = [])
    (hdealt : ∀ first ∈ repeated.nodes, first.id = edge.target →
      ∀ given ∈ first.overrides.get? link.targetProperty, ∀ path ∈ given.references,
        Merge.fieldsOf? link.sourceProperty [source.name, source.spec.id] path = none) :
    Timely depth options built prepared edge link source target := by
  obtain ⟨other, filled, expanded, hsplit', hconfigure, hexpand, hfinalize⟩ :=
    prepareStages_eq_ok hprepare
  obtain ⟨-, rfl⟩ := EStateM.Result.ok.inj (hsplit.symm.trans hsplit')
  have hm : repeated.Mirrored := (inStep_split hsplit (mirrored_build hbuild)).1
  obtain ⟨order', horder', hrun⟩ := applied_of_configure hconfigure
  obtain rfl := Except.ok.inj (horder.symm.trans horder')
  rw [hturn] at hrun
  obtain ⟨_, g, _, -, -, -, hbefore, hrest, -⟩ := turn_of_forM hm hrun
  exact .own hsplit horder hturn hbefore hedge hleaf (hreads.mono fun id hid hvalue =>
    hid.raw?_eq hbuild hsplit hbefore hrest hexpand hfinalize hvalue) hplain hdealt

/-- An edge from a pipeline inside a job was the only one to its parameter there as well. -/
theorem Copies.inside {inner prepared : Graph} {edge old : Edge} {link : DataLink} {owner : String}
    {source target first second : Node} (hc : prepared.Copies edge link source target)
    (hkind : old.kind = edge.kind) (hold : old ∈ inner.edges) (hstart : first.id = old.source)
    (hend : second.id = old.target)
    (hsource : AdoptedFor owner first source) (htarget : AdoptedFor owner second target)
    (hfed : (inner.fed second.id link.targetProperty).length ≤
      (prepared.fed target.id link.targetProperty).length) : inner.Copies old link first second where
  kind := hkind.trans hc.kind
  whole := hc.whole
  starts := hstart
  ends := hend
  plain := by
    rw [Node.parameter?, ← htarget.spec]
    exact hc.plain
  only := by
    have hmem : old ∈ inner.fed second.id link.targetProperty := List.mem_filter.mpr
      ⟨hold, Edge.into_iff.mpr ⟨hend.symm, link, hkind.trans hc.kind, rfl⟩⟩
    rw [hc.only, List.length_singleton] at hfed
    obtain ⟨other, hother⟩ := List.length_eq_one_iff.mp
      (Nat.le_antisymm hfed (List.length_pos_of_mem hmem))
    rw [hother] at hmem ⊢
    rw [List.mem_singleton.mp hmem]
  declared := by
    rw [Node.declared?, ← htarget.spec, ← hsource.spec]
    exact hc.declared

/-- Source and target of a timely edge agree. The induction goes into the pipelines inside jobs. -/
theorem Timely.agree {depth : Nat} {options : CompileOptions} {built prepared : Graph} {edge : Edge}
    {link : DataLink} {source target : Node}
    (h : Timely depth options built prepared edge link source target) {pipeline : Pipeline} {u : Unit}
    (hbuild : build pipeline = .ok built)
    (hprepare : prepareStages options (prepareNested depth) built = .ok u prepared)
    (hs : source ∈ prepared.nodes) (ht : target ∈ prepared.nodes)
    (hc : prepared.Copies edge link source target) :
    ∃ value, prepared.outcome? source.id link.sourceProperty = some value ∧
      prepared.outcome? target.id link.targetProperty = some (Merge.pick link value) ∧
      (Merge.pick link value).references = [] := by
  induction h generalizing pipeline u with
  | own hsplit horder hturn hbefore hedge hleaf hreads hplain hdealt =>
    obtain ⟨hm, hsettled, -⟩ := settled_of_stages hbuild hprepare
    obtain ⟨repeated, filled, expanded, hsplit', hconfigure, hexpand, hfinalize⟩ :=
      prepareStages_eq_ok hprepare
    obtain ⟨-, rfl⟩ := EStateM.Result.ok.inj (hsplit.symm.trans hsplit')
    obtain ⟨value, houtcome, hagree⟩ := hc.agree_of_unchanged hconfigure hexpand hfinalize hbuild hsplit
      hs ht horder hturn hbefore hedge hdealt hm hsettled hleaf hreads hplain
    exact ⟨value, houtcome, hagree, hplain value houtcome⟩
  | @adopted depth options built filled prepared built' inner owner source target first second nested
    edge old link hon hspread hhouses hbuilt hinner hold hkind hfirst hstart hsecond hend hsource
    htarget htimely hfree ih =>
    obtain ⟨hm, hsettled, -⟩ := settled_of_stages hbuild hprepare
    rw [prepareStages_eq] at hprepare
    obtain ⟨_, filled', hspread', hprepare⟩ := bind_eq_ok.mp hprepare
    obtain ⟨_, expanded, hexpand, hfinalize⟩ := bind_eq_ok.mp hprepare
    obtain ⟨-, rfl⟩ := EStateM.Result.ok.inj (hspread.symm.trans hspread')
    have hrun := expandWithin_eq_ok hexpand
    rw [if_pos hon] at hrun
    have hstages : prepareStages {} (prepareNested depth) built' = .ok () inner :=
      prepareNested_succ depth ▸ hinner
    obtain ⟨hmi, -, -⟩ := settled_of_stages hbuilt hstages
    obtain ⟨_, _, _, hbuilt', hinner', htransplanted⟩ := hhouses.transplanted
      (preparesAcyclic_prepareNested _) (awaits_of_spread hbuild hspread) hrun hfinalize
    obtain rfl := Except.ok.inj (hbuilt.symm.trans hbuilt')
    obtain ⟨-, rfl⟩ := EStateM.Result.ok.inj (hinner.symm.trans hinner')
    obtain ⟨giver, hgiver, hgives, -⟩ := htransplanted.nodes first hfirst
    obtain ⟨taker, htaker, htakes, hhandle⟩ := htransplanted.nodes second hsecond
    have hfed := htransplanted.length_fed_le hhandle link.targetProperty
    obtain rfl := List.inj_on_of_nodup_map hm.names hgiver hs (hgives.name.trans hsource.symm)
    obtain rfl := List.inj_on_of_nodup_map hm.names htaker ht (htakes.name.trans htarget.symm)
    obtain ⟨value, houtcome, hagree, hplain⟩ := ih hbuilt hstages hfirst hsecond
      (hc.inside hkind hold hstart hend hgives htakes hfed)
    exact ⟨value, hgives.outcome_eq hmi hm hsettled hfirst hgiver houtcome (hfree value houtcome),
      htakes.outcome_eq hmi hm hsettled hsecond htaker hagree hplain, hplain⟩

/-- **Agreement.** A parameter that is declared to be nothing but a reference to an output, and to
which one timely edge hands on a value, ends up with what the output comes to, or with the element of
it that the edge is for. -/
theorem agree_of_prepare {options : CompileOptions} {pipeline : Pipeline} {built prepared : Graph}
    {u : Unit} (hbuild : build pipeline = .ok built) (hprepare : prepare options built = .ok u prepared)
    {source target : Node} (hs : source ∈ prepared.nodes) (ht : target ∈ prepared.nodes) {edge : Edge}
    {link : DataLink} (hcopies : prepared.Copies edge link source target)
    (htimely : Timely built.depth options built prepared edge link source target) :
    ∃ value, prepared.outcome? source.id link.sourceProperty = some value ∧
      prepared.outcome? target.id link.targetProperty = some (Merge.pick link value) := by
  rw [prepare_eq] at hprepare
  obtain ⟨value, houtcome, hagree, -⟩ := htimely.agree hbuild hprepare hs ht hcopies
  exact ⟨value, houtcome, hagree⟩

set_option synthInstance.maxSize 2000 in
theorem right_cup_agrees : ∃ built prepared, build pouring = .ok built ∧
    prepare {} built = .ok () prepared ∧ ∃ source ∈ prepared.nodes, ∃ target ∈ prepared.nodes,
      ∃ edge link, prepared.Copies edge link source target ∧
        Timely built.depth {} built prepared edge link source target ∧ link.splitIndex? = some 1 ∧
        prepared.outcome? source.id link.sourceProperty =
          some (.list [.str "silver/left", .str "silver/right"]) ∧
        ∃ value, prepared.outcome? source.id link.sourceProperty = some value ∧
          prepared.outcome? target.id link.targetProperty = some (Merge.pick link value) := by
  obtain ⟨built, repeated, prepared, hbuild, hsplit, hprepare, source, hs, target, ht, edge, -, hcopies,
      hname, hat, happlied, hhouse, hothers, hgiven, hfinals, hleaf, htray, hlist, hsilver, hlookup⟩ :=
    exists_prepared {} pouring (fun built repeated prepared => ∃ source ∈ prepared.nodes,
      ∃ target ∈ prepared.nodes, ∃ edge ∈ repeated.edges,
        prepared.Copies edge ⟨.oneToOne, "out", "cup", .str "silver/right", some 1⟩ source target ∧
        source.name = "pour" ∧ repeated.edges[1]? = some edge ∧
        repeated.topologicalOrder.toOption.map repeated.applicationOrder = some [0, 1] ∧
        (repeated.scope.forest.child? Forest.root "pour").isSome ∧
        (∀ node ∈ repeated.nodes, node.name = "pour" → node.id ≠ edge.target) ∧
        (∀ first ∈ repeated.nodes, first.id = edge.target →
          first.overrides.get? "cup" = some (.str "silver/right")) ∧
        prepared.outcome? source.id "out" = some (.list [.str "silver/left", .str "silver/right"]) ∧
        prepared.scope.forest.leaf? "pour" "out" = some 3 ∧
        prepared.scope.forest.place? none "tray" = some 1 ∧
        prepared.scope.forest.raw? 3 =
          some (.list [.str "$\x7btray\x7d/left", .str "$\x7btray\x7d/right"]) ∧
        prepared.scope.forest.raw? 1 = some (.str "silver") ∧
        prepared.scope.forest.lookup? ((prepared.scope.forest.parent? 3).getD 3) ["tray"] =
          some (1, 1)) (by decide +kernel)
  obtain ⟨order, horder, hturn⟩ : ∃ order, repeated.topologicalOrder = .ok order ∧
      repeated.applicationOrder order = [0] ++ 1 :: [] := by
    cases horder : repeated.topologicalOrder with
    | error e => simp [horder, Except.toOption] at happlied
    | ok order => exact ⟨order, rfl, by simpa [horder, Except.toOption] using happlied⟩
  have hplain : (Value.str "silver/right").references = [] := by decide +kernel
  -- The list leads to the tray, and no edge leads to the one or the other.
  have hreads : prepared.scope.forest.Reads (repeated.Standing [1] prepared.scope.forest) 3 := by
    have hrefs : (Value.list [.str "$\x7btray\x7d/left", .str "$\x7btray\x7d/right"]).references =
        [["tray"], ["tray"]] := by decide +kernel
    have hnone : (Value.str "silver").references = [] := by decide +kernel
    refine .intro ⟨some "pour", "out", hleaf, fun owner howner => ?_⟩ hlist (fun path hp => ?_)
      fun path hp other consumed hother => ?_
    · obtain rfl := Option.mem_some_iff.mp howner
      refine ⟨hhouse, ?_⟩
      rintro ⟨node, hn, hcalled, place, hplace, other, hother, hinto, -⟩
      obtain rfl := List.mem_singleton.mp hplace
      obtain rfl := Option.some.inj (hat.symm.trans hother)
      exact hothers node hn hcalled hinto.symm
    · obtain rfl : path = ["tray"] := by simpa [hrefs] using hp
      rw [hlookup]
      rfl
    · obtain rfl : path = ["tray"] := by simpa [hrefs] using hp
      obtain ⟨rfl, -⟩ := Prod.mk.inj (Option.some.inj (hlookup.symm.trans hother))
      exact .of_plain ⟨none, "tray", htray, by simp⟩ hsilver hnone
  have htimely : Timely built.depth {} built prepared edge
      ⟨.oneToOne, "out", "cup", .str "silver/right", some 1⟩ source target := by
    refine timely_of_standing hbuild hsplit (prepare_eq {} built ▸ hprepare) horder hturn hat
      (hname ▸ hleaf) hreads (fun value hvalue => ?_) fun first hfirst hid given hg path hp => ?_
    · obtain rfl := Option.some.inj (hfinals.symm.trans hvalue)
      exact hplain
    · obtain rfl := Option.some.inj ((hgiven first hfirst hid).symm.trans hg)
      simp [hplain] at hp
  exact ⟨built, prepared, hbuild, hprepare, source, hs, target, ht, edge, _, hcopies, htimely, rfl,
    hfinals, agree_of_prepare hbuild hprepare hs ht hcopies htimely⟩

/-- What an index leads to is found on a sheet only after the index was printed. -/
def cookbook : Pipeline where
  jobs := [
    { id := "index"
      parameters := [{ name := "entry", isOutput := true }]
      configuration := .ofList [("entry", .str "$\x7bcard.page\x7d")] },
    { id := "print"
      parameters := [{ name := "line" }]
      configuration := .ofList [("line", .str "$\x7bindex.entry\x7d")] },
    { id := "scan"
      parameters := [{ name := "sheet", isOutput := true }]
      configuration := .ofList [("sheet", .str "tea"), ("working_dir", .str "/book")] },
    { id := "card"
      parameters := [{ name := "page", isFile := true }]
      configuration := .ofList [("page", .str "$\x7bscan.sheet\x7d")] }]

/-- A text is copied that says what else to read. -/
def quoting : Pipeline where
  jobs := [
    { id := "copy"
      parameters := [{ name := "text", isOutput := true }]
      configuration := .ofList [("text", .str "$\x7bsign\x7d$\x7bname\x7d")] },
    { id := "read"
      parameters := [{ name := "line" }]
      configuration := .ofList [("line", .str "$\x7bcopy.text\x7d")] }]
  configuration := .ofList [("sign", .str "$"), ("name", .str "\x7bleaf\x7d"), ("leaf", .str "green")]

/-- Tins are labelled with texts that name the tins. -/
def labelling : Pipeline where
  jobs := [
    { id := "write"
      parameters := [{ name := "text", isOutput := true }]
      configuration := .ofList [("text", .str "$\x7bsign\x7d$\x7bname\x7d")] },
    { id := "note"
      parameters := [{ name := "line" }]
      configuration := .ofList
        [("line", .str "$\x7bwrite.text\x7d"), ("tin", .str "shelf/tea.txt")] },
    { id := "tin"
      parameters := [{ name := "name", isOutput := true, isList := true }]
      configuration := .ofList [("name", .list [.str "$\x7bnote.line\x7d", .str "milk"])] },
    { id := "label"
      parameters := [{ name := "line" }]
      configuration := .ofList [("line", .str "$\x7btin.name\x7d")] }]
  configuration := .ofList [("sign", .str "$"), ("name", .str "\x7btin.name\x7d tin")]

/-- A page may be found too late, a text may say more when it is handed on or take up what is handed on
in a way of its own, and a list may become too short. -/
theorem lines_differ_from_entries :
    (∃ built repeated prepared, build cookbook = .ok built ∧ split built = .ok () repeated ∧
      prepare {} built = .ok () prepared ∧ ∃ source ∈ prepared.nodes, ∃ target ∈ prepared.nodes,
        ∃ edge ∈ prepared.edges,
          prepared.Copies edge ⟨.oneToOne, "entry", "line", .str "tea", none⟩ source target ∧
          prepared.outcome? source.id "entry" = some (.str "/book/tea") ∧
          prepared.outcome? target.id "line" = some (.str "tea")) ∧
    (∃ built repeated prepared, build quoting = .ok built ∧ split built = .ok () repeated ∧
      prepare {} built = .ok () prepared ∧ ∃ source ∈ prepared.nodes, ∃ target ∈ prepared.nodes,
        ∃ edge ∈ prepared.edges,
          prepared.Copies edge ⟨.oneToOne, "text", "line", .str "$\x7bleaf\x7d", none⟩ source target ∧
          prepared.outcome? source.id "text" = some (.str "$\x7bleaf\x7d") ∧
          prepared.outcome? target.id "line" = some (.str "green")) ∧
    (∃ built repeated prepared, build labelling = .ok built ∧ split built = .ok () repeated ∧
      prepare {} built = .ok () prepared ∧ ∃ source ∈ prepared.nodes, ∃ target ∈ prepared.nodes,
        ∃ edge ∈ prepared.edges,
          prepared.Copies edge ⟨.oneToOne, "name", "line", .str "$\x7btin.name\x7d tin", some 0⟩ source
            target ∧
          prepared.outcome? source.id "name" = some (.list [.str "tea tin", .str "milk"]) ∧
          prepared.outcome? target.id "line" = some (.str "tea tin tin")) ∧
    ∃ built repeated prepared, build spilling = .ok built ∧ split built = .ok () repeated ∧
      prepare {} built = .ok () prepared ∧ ∃ source ∈ prepared.nodes, ∃ target ∈ prepared.nodes,
        ∃ edge ∈ prepared.edges,
          prepared.Copies edge ⟨.oneToOne, "out", "cup", .str "milk", some 2⟩ source target ∧
          prepared.outcome? source.id "out" = some (.list [.str "milk", .str "tea"]) ∧
          prepared.outcome? target.id "cup" = some (.str "milk") :=
  ⟨exists_prepared {} cookbook _ (by decide +kernel), exists_prepared {} quoting _ (by decide +kernel),
    exists_prepared {} labelling _ (by decide +kernel),
    exists_prepared {} spilling _ (by decide +kernel)⟩

end Graph

end Pipework
