import Pipework.Proofs.Arrival

/-!
# Handing on values to kept ones

When an edge has its turn, it hands on what the edge is for, and no other value changes. So kept values
hold at any time what has been handed to them, and in the end they hold it all.
-/

namespace Pipework

open Step Resolve

namespace Graph

/-- An edge hands on a value of one node that was built, the source, to a parameter of another. The scope
of the parameter held one value and holds another afterwards. -/
structure Writes (built : Graph) (edge : Edge) (link : DataLink) (source node : Node) (p : Parameter)
    (id : ScopeId) (value : Value) (g g' : Graph) : Prop where
  /-- The edge hands on a value. -/
  kind : edge.kind = .data link
  /-- The source was built. -/
  isSource : source ∈ built.nodes
  /-- The edge leads from there. -/
  starts : source.id = edge.source
  /-- The node was built. -/
  isTarget : node ∈ built.nodes
  /-- The edge leads there. -/
  ends : edge.target = node.id
  /-- It is a parameter of the node. -/
  isParameter : p ∈ node.spec.parameters
  /-- The value is for that parameter. -/
  key : link.targetProperty = p.name
  /-- The scope is that of the parameter. -/
  leaf : built.scope.forest.leaf? node.name p.name = some id
  /-- What the value at the source means is merged into what the scope held. -/
  merge : ∃ now u, g.scope.forest.raw? id = some now ∧
    (∀ leaf, built.scope.forest.leaf? source.name link.sourceProperty = some leaf →
      (built.scope.forest.raw? leaf).isSome → Means g.scope.forest leaf u) ∧
    Merge.merge (.data link) node.name (some now) (built.scope.forest.raw? id) u
      [source.name, source.name] = .ok (some value)
  /-- The scopes stay. -/
  alike : g.scope.forest.Alike g'.scope.forest
  /-- What is remembered is meant. -/
  truthful : g'.Truthful
  /-- No other value changes. -/
  raw : ∀ other, g'.scope.forest.raw? other =
    if other = id then some value else g.scope.forest.raw? other

/-- What the turn of an edge comes to, in terms of the graph that was built. -/
inductive Written (built : Graph) (edge : Edge) (g g' : Graph) : Prop
  | order (hk : edge.kind = .after) (hsame : g' = g)
  | value {link : DataLink} {source node : Node} {p : Parameter} {id : ScopeId} {value : Value}
      (h : Writes built edge link source node p id value g g')

/-- Without a working directory, what is handed on is the value itself. -/
theorem located_eq {source target : Node} {link : DataLink} {value : Value}
    (h : source.configured? workingDirKey = none) : located source target link value = value := by
  rw [located, h, Option.bind_none]
  split <;> rfl

/-- What is filled by an edge that was built is a parameter of the node it leads to that has a value. -/
theorem exists_parameter_of_fills {pipeline : Pipeline} {built : Graph}
    (hbuild : build pipeline = .ok built) {edge : Edge} (he : edge ∈ built.edges) {key : String}
    (hfills : edge.Fills key) {node : Node} (hn : node ∈ built.nodes) (hend : edge.target = node.id) :
    ∃ p ∈ node.spec.parameters, p.name = key ∧ ∃ raw, node.configured? key = some raw := by
  rcases referred_of_build hbuild he with hafter | ⟨other, ho, start, -, q, hq, raw, hraw, path, -, owner,
    w, -, -, rfl⟩
  · exact absurd hfills (Edge.not_fills_of_after hafter _)
  · obtain rfl := List.inj_on_of_nodup_map (mirrored_build hbuild).ids ho hn hend
    obtain ⟨link, hk, rfl⟩ := hfills
    obtain rfl := EdgeKind.data.inj hk
    exact ⟨q, hq, rfl, raw, hraw⟩

/-- What a node is asked for is what its scope means, if there is a value. -/
theorem means_of_propertyValue {g t : Graph} (htruthful : g.Truthful) {node : Node}
    (hn : g.node? node.id = some node) {key : String} {value? : Option Value}
    (h : propertyValue node.id key g = .ok value? t) {leaf : ScopeId}
    (hleaf : g.scope.forest.leaf? node.name key = some leaf)
    (hheld : (g.scope.forest.raw? leaf).isSome) :
    ∃ v, value? = some v ∧ Means g.scope.forest leaf v := by
  have hsame : SameButMemo g t := (moves_propertyValue _ _).of_ok h
  have htruth := htruthful.of_sameButMemo hsame
  rcases propertyValue_eq_ok hn h with ⟨-, hnone⟩ | ⟨v, rfl, hremembers⟩
  · obtain ⟨raw, hraw⟩ := Option.isSome_iff_exists.mp hheld
    refine absurd ?_ (hnone raw)
    rw [Forest.held?, hleaf, Option.map_some, hraw]
  · obtain ⟨memo, -, rfl⟩ := hsame
    exact ⟨v, rfl, htruth.means hremembers hleaf⟩

section Turn

variable {pipeline : Pipeline} {built repeated : Graph} (hbuild : build pipeline = .ok built)
  (hnames : built.Distinct)
  (hfree : ∀ node ∈ built.nodes, node.configured? workingDirKey = none)
  (hun : Unmoved built repeated) {done : List Nat} {place : Nat} {edge : Edge} {g g' : Graph}
  (he : repeated.edges[place]? = some edge) (hmid : Midway repeated done g)
  (hi : Intact built done g) (h : Handed edge g g')

include hun hmid

/-- A node is one that was built, at most with other values. -/
theorem exists_built {now : Node} (hn : now ∈ g.nodes) :
    ∃ node ∈ built.nodes, now.outline = node.outline := by
  obtain ⟨middle, hmiddle, hspared⟩ := Spares.exists_node hmid.filled hn
  obtain ⟨node, hnode, houtline⟩ := hun.retains.exists_outline hmiddle
  exact ⟨node, hnode, hspared.outline.trans houtline.symm⟩

include hbuild hfree he hi h

theorem written_of_handed : Written built edge g g' := by
  have hm := mirrored_build hbuild
  cases h with
  | order hk => exact .order hk rfl
  | @value link current source target value t _ hk hv hs ht hmerge hset =>
    obtain ⟨old, hold, hkeeps⟩ := hun.retains.edges.before he
    obtain ⟨hsin, hsid⟩ := id_of_node? hs
    obtain ⟨htin, htid⟩ := id_of_node? ht
    obtain ⟨origin, hfrom, hlook⟩ := exists_built hun hmid hsin
    obtain ⟨node, hn, hlook'⟩ := exists_built hun hmid htin
    have hname : source.name = origin.name := name_of_outline hlook
    have hspec : source.spec = origin.spec := spec_of_outline hlook
    have hname' : target.name = node.name := name_of_outline hlook'
    have hspec' : target.spec = node.spec := spec_of_outline hlook'
    have hstart : origin.id = edge.source := by rw [← id_of_outline hlook, hsid]
    have hend : edge.target = node.id := by rw [← id_of_outline hlook', htid]
    obtain ⟨p, hp, hkey, raw, hraw⟩ := exists_parameter_of_fills hbuild (List.mem_of_getElem? hold)
      (hkeeps.2.2 _ ⟨link, hk, rfl⟩) hn (hkeeps.2.1.symm.trans hend)
    obtain ⟨leaf, hleaf, hthere⟩ := hm.exists_leaf hn hraw
    have hleaf' : g.scope.forest.leaf? target.name link.targetProperty = some leaf := by
      rw [hi.alike.leaf?, hname', hleaf]
    -- What merging is given: the value there is, the declared one, the names and the value of the source.
    obtain ⟨now, hnow⟩ : ∃ now, g.scope.forest.raw? leaf = some now := by
      rw [← Option.isSome_iff_exists, hi.alike.holds, hthere, Option.isSome_some]
    have hexisting : target.configured? link.targetProperty = some now :=
      (hmid.mirrored.configured?_of_leaf? htin hleaf').trans hnow
    have hdeclared : target.declared? link.targetProperty = built.scope.forest.raw? leaf := by
      rw [hthere, ← hraw, configured?_of_build hbuild hn, Node.declared?, Node.declared?, hspec']
    have hnames' : [source.name, source.spec.id] = [origin.name, origin.name] := by
      rw [hname, hspec, (nodes_of_build hbuild origin hfrom).2.1]
    have hlocated : located source target link (current.getD link.value) = current.getD link.value := by
      refine located_eq ?_
      rw [← hmid.mirrored.leaf?_eq_none hsin, hi.alike.leaf?, hname, hm.leaf?_eq_none hfrom]
      exact hfree origin hfrom
    have hmeans : ∀ other, built.scope.forest.leaf? origin.name link.sourceProperty = some other →
        (built.scope.forest.raw? other).isSome →
          Means g.scope.forest other (current.getD link.value) := by
      intro other hother hheld
      rw [← hi.alike.holds] at hheld
      rw [← hname, ← hi.alike.leaf?] at hother
      obtain ⟨v, rfl, hmeans⟩ :=
        means_of_propertyValue hi.truthful (by rwa [hsid]) (by rwa [hsid]) hother hheld
      exact hmeans
    rw [hexisting, hdeclared, hnames', hlocated, hname'] at hmerge
    -- What setting the value changes.
    have htmirror : t.Mirrored := (((moves_propertyValue _ _).of_ok hv).inStep hmid.mirrored).1
    obtain ⟨memo, -, rfl⟩ : SameButMemo g t := (moves_propertyValue _ _).of_ok hv
    rw [← htid] at hset
    obtain ⟨hmemo, kept, hforest⟩ := forest_of_setNodeValue htmirror htin hleaf' hset
    have hheld : (g.scope.forest.raw? leaf).isSome := Option.isSome_of_eq_some hnow
    suffices hwrites : Writes built edge link origin node p leaf value g g' from .value hwrites
    refine ⟨hk, hfrom, hstart, hn, hend, hp, hkey.symm, hkey ▸ hleaf,
      ⟨now, _, hnow, hmeans, hmerge⟩, ?_, truthful_of_memo hmemo, fun other => ?_⟩
    · rw [hforest]
      exact Forest.alike_setEntry hheld _
    · rw [hforest]
      exact Forest.raw?_setEntry_of_isSome hheld _ other

end Turn

theorem Asks.owner {g : Graph} {node : Node} {start : ScopeId} {path : List String}
    {owner : OutputOwner} (h : g.Asks node start path owner) :
    owner.node ∈ g.nodes ∧ g.HoldsParameter owner.node owner.scope ∧
      g.scope.forest.leaf? owner.node.name owner.parameter.name = some owner.scope := by
  obtain ⟨found, -, hat⟩ := Option.bind_eq_some_iff.mp h.1
  obtain ⟨hin, hp⟩ := outputOwner?_spec hat
  have hleaf := leaf?_of_outputOwner? hat
  exact ⟨hin, ⟨owner.parameter, List.mem_of_find?_eq_some hp, hleaf⟩, hleaf⟩

section Turned

variable {built repeated : Graph} (hun : Unmoved built repeated) {done : List Nat} {place : Nat}
  {edge : Edge} (he : repeated.edges[place]? = some edge)

include hun he

theorem exists_old : ∃ old, built.edges[place]? = some old ∧ old.Keeps edge :=
  hun.retains.edges.before he

/-- If only firm edges lead to a parameter, the turn of an edge to another one hands on nothing to it. -/
theorem given_of_other {node : Node} {p : Parameter}
    (hfirm : ∀ old ∈ built.edges, old.target = node.id → old.Fills p.name → old.Firm)
    (hother : edge.target = node.id → ¬ edge.Fills p.name) :
    built.Given (done ++ [place]) node p = built.Given done node p := by
  refine given_of_elsewhere fun old hold htarget hfills => ?_
  have hat := hun.firm place old hold (hfirm old (List.mem_of_getElem? hold) htarget hfills)
  obtain rfl := Option.some.inj (he.symm.trans hat)
  exact hother htarget hfills

variable {link : DataLink} {source node : Node} {p : Parameter} {id : ScopeId} {value : Value}
  {g g' : Graph} (h : Writes built edge link source node p id value g g')

include h

omit hun he in
theorem Writes.fills : edge.Fills p.name := ⟨link, h.kind, h.key⟩

/-- An edge to the scope of a value that stands would be one that was built. -/
theorem Writes.stands {id' : ScopeId} {raw v : Value} {m : Memo} (hs : built.Stands id' raw v m)
    (hheld : g.scope.forest.raw? id' = some raw) : g'.scope.forest.raw? id' = some raw := by
  have hne : id' ≠ id := by
    rintro rfl
    obtain ⟨old, hold, hkeeps⟩ := exists_old hun he
    refine hs.unfed node h.isTarget p h.isParameter h.leaf old (List.mem_of_getElem? hold) ?_
      (hkeeps.2.2 _ h.fills)
    rw [← hkeeps.2.1, h.ends]
  rw [h.raw, if_neg hne, hheld]

omit hun he in
/-- An edge to another parameter would lead to the same scope. -/
theorem Writes.elsewhere (hm : built.Mirrored) {node' : Node} {p' : Parameter} {id' : ScopeId}
    (hn : node' ∈ built.nodes) (hleaf : built.scope.forest.leaf? node'.name p'.name = some id')
    (hne : id' ≠ id) : edge.target = node'.id → ¬ edge.Fills p'.name := by
  intro htarget hfills
  obtain rfl := List.inj_on_of_nodup_map hm.ids hn h.isTarget (htarget.symm.trans h.ends)
  rw [hfills.unique h.fills, h.leaf] at hleaf
  exact hne (Option.some.inj hleaf.symm)

/-- An edge that is firm hands on what a reference in the value of the parameter leads to. -/
theorem Writes.exists_owner {pipeline : Pipeline} (hbuild : build pipeline = .ok built)
    (hnames : built.Distinct) {raw : Value}
    (hraw : built.scope.forest.raw? id = some raw)
    (hfirm : ∀ old ∈ built.edges, old.target = node.id → old.Fills p.name → old.Firm) :
    ∃ path ∈ raw.references, ∃ owner w, built.Asks node (built.scope.forest.seat id) path owner ∧
      built.edges[place]? = some (linkEdge owner node.id p w) ∧ source = owner.node ∧
      link = ⟨.between owner.parameter.isList p.isList, owner.parameter.name, p.name, w, none⟩ := by
  obtain ⟨old, hold, hkeeps⟩ := exists_old hun he
  have hin := List.mem_of_getElem? hold
  have htarget : old.target = node.id := hkeeps.2.1.symm.trans h.ends
  have hfills : old.Fills p.name := hkeeps.2.2 _ h.fills
  obtain ⟨path, hpath, owner, w, hasks, hlink⟩ :=
    link_of_fills hbuild hnames h.isTarget h.isParameter h.leaf hraw hin htarget hfills
  obtain rfl := Option.some.inj (he.symm.trans (hun.firm place old hold (hfirm old hin htarget hfills)))
  subst hlink
  refine ⟨path, hpath, owner, w, hasks, hold, ?_, (EdgeKind.data.inj h.kind).symm⟩
  exact List.inj_on_of_nodup_map (mirrored_build hbuild).ids h.isSource hasks.owner.1 h.starts

end Turned

section Step

variable {pipeline : Pipeline} {built repeated : Graph} (hbuild : build pipeline = .ok built)
  (hnames : built.Distinct) {done : List Nat}
  {place : Nat} (hnew : place ∉ done)

include hbuild hnames hnew

/-- An output is handed on to a parameter only once. -/
theorem not_given_of_new {node : Node} {p : Parameter} {owner : OutputOwner} {w : Value}
    (he : built.edges[place]? = some (linkEdge owner node.id p w)) :
    ¬ built.Given done node p owner.node.id owner.parameter.name := by
  rintro ⟨other, hin, old, hold, hcarries⟩
  have hapart := List.pairwise_iff_getElem.mp (apart_of_build hbuild fun node hn =>
    Job.nodup_asks (hnames node hn))
  obtain ⟨hlt, hat⟩ := List.getElem?_eq_some_iff.mp he
  obtain ⟨hlt', hat'⟩ := List.getElem?_eq_some_iff.mp hold
  have hthis : (linkEdge owner node.id p w).Carries owner.node.id owner.parameter.name node.id p.name :=
    carries_linkEdge.mpr ⟨rfl, rfl⟩
  rcases Nat.lt_trichotomy place other with hbefore | rfl | hbehind
  · refine hapart place other hlt hlt' hbefore ?_
    rw [hat, hat']
    exact hthis.twins hcarries
  · exact hnew hin
  · refine hapart other place hlt' hlt hbehind ?_
    rw [hat, hat']
    exact hcarries.twins hthis

variable (hun : Unmoved built repeated) {edge : Edge} (he : repeated.edges[place]? = some edge)
  {g g' : Graph} (hi : Intact built done g)

include hun he hi

section Writes

variable {link : DataLink} {source node : Node} {p : Parameter} {id : ScopeId} {value : Value}
  (h : Writes built edge link source node p id value g g')

include h

/-- A text receives the value that is handed on, if that is for it. -/
theorem Writes.receives {node' : Node} {p' : Parameter} {id' : ScopeId} {text : String} {v : Value}
    {m : Memo} (hkept : ∀ other u, m.lookup other = some u → built.Exact other u)
    (hr : built.Receives node' p' id' text v m) : ∃ now, g'.scope.forest.raw? id' = some now ∧
      built.Receiving node' id' text v m (built.Given (done ++ [place]) node' p') now := by
  have hm := mirrored_build hbuild
  have hfirm : ∀ old ∈ built.edges, old.target = node'.id → old.Fills p'.name → old.Firm :=
    fun _ hold => hr.firm hbuild hnames hold
  obtain ⟨now, hnow, hreceiving⟩ := hi.receives hkept hr
  by_cases hid : id' = id
  · subst hid
    obtain ⟨rfl, rfl⟩ :=
      parameter_unique hm hnames h.isTarget h.isParameter hr.isNode hr.isParameter h.leaf hr.leaf
    obtain ⟨path, hpath, owner, w, hasks, hold, rfl, rfl⟩ :=
      h.exists_owner hun he hbuild hnames hr.holds hfirm
    obtain ⟨now', u, hnow', hmeans, hmerge⟩ := h.merge
    obtain rfl := Option.some.inj (hnow.symm.trans hnow')
    obtain ⟨u', hu'⟩ := hr.exists_lookup hpath hasks
    have hheld := (hkept _ _ hu').isSome_raw?
    obtain rfl : u = u' :=
      hi.unique (hkept _ _ hu') (hmeans _ hasks.owner.2.2 hheld)
    refine ⟨value, by rw [h.raw, if_pos rfl], ?_⟩
    rw [given_of_link hold]
    refine hreceiving.merge hr hm hpath hasks hheld (not_given_of_new hbuild hnames hnew hold) hu' rfl
      ?_ rfl hmerge
    rw [(hr.named path hpath owner hasks).1, hr.takesOne]
    rfl
  · refine ⟨now, by rw [h.raw, if_neg hid, hnow], ?_⟩
    rwa [given_of_other hun he hfirm (h.elsewhere hm hr.isNode hr.leaf hid)]

omit hnew in
/-- A list gathers the value that is handed on, if that is for it. -/
theorem Writes.gathers
    (hready : ∀ (other : Nat) earlier, repeated.edges[other]? = some earlier →
      earlier.target = edge.source → other ∈ done)
    {node' : Node} {p' : Parameter} {id' : ScopeId} {raw v : Value} {m : Memo}
    (hkept : ∀ other u, m.lookup other = some u → built.Kept other u)
    (hg : built.Gathers node' p' id' raw v m) : ∃ now, g'.scope.forest.raw? id' = some now ∧
      built.Gathering node' id' raw m (built.Given (done ++ [place]) node' p') now := by
  have hm := mirrored_build hbuild
  have hfirm : ∀ old ∈ built.edges, old.target = node'.id → old.Fills p'.name → old.Firm :=
    fun _ hold => hg.firm hbuild hnames hold
  obtain ⟨now, hnow, hgathering⟩ := hi.gathers hkept hg
  by_cases hid : id' = id
  · subst hid
    obtain ⟨rfl, rfl⟩ :=
      parameter_unique hm hnames h.isTarget h.isParameter hg.isNode hg.isParameter h.leaf hg.leaf
    obtain ⟨path, hpath, owner, w, hasks, hold, rfl, rfl⟩ :=
      h.exists_owner hun he hbuild hnames hg.holds hfirm
    obtain ⟨x, hx, hcalls⟩ := hg.calls_of_asks hpath hasks
    obtain ⟨now', u, hnow', hmeans, hmerge⟩ := h.merge
    obtain rfl := Option.some.inj (hnow.symm.trans hnow')
    obtain ⟨u', -, hu', -⟩ := hg.exists_answer hx hcalls
    have hheld := (hkept _ _ hu').isSome_raw?
    obtain ⟨howner, hholds, hleaf⟩ := hasks.owner
    -- All has arrived at the source when its output is handed on.
    have harrived : ∀ other ∈ built.nodes, built.HoldsParameter other owner.scope →
        ∀ (place : Nat) earlier, built.edges[place]? = some earlier → earlier.target = other.id →
          place ∈ done := by
      intro other ho hother place earlier hearlier htarget
      obtain rfl := hother.unique hm ho howner hholds
      obtain ⟨later, hlater, hkeeps⟩ := hun.retains.edges.behind hearlier
      exact hready place later hlater (hkeeps.2.1.trans (htarget.trans h.starts))
    have hleaves : ∀ w, m.lookup owner.scope = some w → ∀ y, y ∈ u.leaves ↔ y ∈ w.leaves :=
      fun w hw => hi.leaves hbuild (hkept _ _ hw) harrived (hmeans _ hleaf hheld)
    refine ⟨value, by rw [h.raw, if_pos rfl], ?_⟩
    rw [given_of_link hold]
    rw [hg.holds] at hmerge
    exact hgathering.merge hm hx hcalls hheld hg hleaves rfl (by rw [hg.takesMany]) hmerge
  · refine ⟨now, by rw [h.raw, if_neg hid, hnow], ?_⟩
    rwa [given_of_other hun he hfirm (h.elsewhere hm hg.isNode hg.leaf hid)]

end Writes

/-- The turn of an edge hands on what the edge is for, and leaves all other kept values alone. -/
theorem Intact.step (hready : ∀ (other : Nat) earlier, repeated.edges[other]? = some earlier →
      earlier.target = edge.source → other ∈ done)
    (h : Written built edge g g') : Intact built (done ++ [place]) g' := by
  cases h with
  | order hk hsame =>
    subst hsame
    have hother : ∀ {node : Node} {p : Parameter}, edge.target = node.id → ¬ edge.Fills p.name :=
      fun _ => Edge.not_fills_of_after hk _
    refine ⟨hi.alike, hi.truthful, hi.stands, fun hkept hr => ?_, fun hkept hg => ?_⟩
    · rw [given_of_other hun he (fun old hold => hr.firm hbuild hnames hold) hother]
      exact hi.receives hkept hr
    · rw [given_of_other hun he (fun old hold => hg.firm hbuild hnames hold) hother]
      exact hi.gathers hkept hg
  | value h =>
    exact ⟨trans_of Forest.Alike hi.alike h.alike, h.truthful,
      fun hkept hs => h.stands hun he hs (hi.stands hkept hs),
      h.receives hbuild hnames hnew hun he hi, h.gathers hbuild hnames hun he hi hready⟩

end Step

/-- When all values have been handed on, kept values hold all that is for them. -/
theorem intact_of_configure {pipeline : Pipeline} {built repeated filled : Graph} {u : Unit}
    (hbuild : build pipeline = .ok built)
    (hnames : built.Distinct)
    (hfree : ∀ node ∈ built.nodes, node.configured? workingDirKey = none)
    (hun : Unmoved built repeated) (hw : repeated.WellFormed)
    (h : configure repeated = .ok u filled) : ∃ places, Intact built places filled ∧
      Midway repeated places filled ∧
      ∀ (place : Nat) edge, built.edges[place]? = some edge → place ∈ places := by
  obtain ⟨places, hsequence, hmid, hintact⟩ := configure_induction (P := Intact built) hw h hun.mirrored
    hun.intact fun done place edge g g' he hnew hready hmid hi hh =>
      hi.step hbuild hnames hnew hun he hready (written_of_handed hbuild hfree hun he hmid hi hh)
  refine ⟨places, hintact, hmid, fun place edge hedge => ?_⟩
  obtain ⟨now, hnow, -⟩ := hun.retains.edges.behind hedge
  exact hsequence.all place now hnow

end Graph

end Pipework
