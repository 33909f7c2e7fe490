import Pipework.Proofs.Receiving
import Pipework.Proofs.Twins
import Pipework.Proofs.UnrepeatedJobs

/-!
# Kept values while values are handed on

Each edge that hands on a value is one that some reference made when the graph was built. So it is known
for every kept value which edges lead to it, and what it holds when some of them have had their turn:
what stands is untouched, a text has received some of its outputs, a list has gathered some of its own.
In all these states a value that does not gather means what it always meant, and one that gathers means
the same scalars once all has arrived at its node.
-/

namespace Pipework

open Step Resolve

/-- The edge hands on an output to a parameter. -/
def Edge.Carries (edge : Edge) (source : NodeId) (output : String) (target : NodeId) (key : String) :
    Prop :=
  edge.source = source ∧ edge.target = target ∧ ∃ link, edge.kind = .data link ∧
    link.sourceProperty = output ∧ link.targetProperty = key

theorem Edge.Carries.twins {edge edge' : Edge} {source target : NodeId} {output key : String}
    (h : edge.Carries source output target key) (h' : edge'.Carries source output target key) :
    edge.Twins edge' := by
  obtain ⟨rfl, rfl, link, hk, rfl, rfl⟩ := h
  obtain ⟨hsource, htarget, link', hk', hproperty, hkey⟩ := h'
  exact ⟨hsource.symm, htarget.symm, link, link', hk, hk', hproperty.symm, hkey.symm⟩

theorem Edge.Carries.fills {edge : Edge} {source target : NodeId} {output key : String}
    (h : edge.Carries source output target key) : edge.target = target ∧ edge.Fills key := by
  obtain ⟨-, htarget, link, hk, -, hkey⟩ := h
  exact ⟨htarget, link, hk, hkey⟩

namespace Graph

theorem carries_linkEdge {owner : OutputOwner} {p : Parameter} {w : Value} {source target : NodeId}
    {output : String} : (linkEdge owner target p w).Carries source output target p.name ↔
      source = owner.node.id ∧ output = owner.parameter.name := by
  constructor
  · rintro ⟨rfl, -, link, hk, rfl, -⟩
    rw [← EdgeKind.data.inj hk]
    exact ⟨rfl, rfl⟩
  · rintro ⟨rfl, rfl⟩
    exact ⟨rfl, rfl, _, rfl, rfl, rfl⟩

/-- Unless a list is handed to a parameter that takes a single value, the edge is firm. -/
theorem firm_linkEdge {owner : OutputOwner} {p : Parameter} {w : Value} {target : NodeId}
    (h : p.isList = true ∨ owner.parameter.isList = false) : (linkEdge owner target p w).Firm := by
  intro link hk
  rw [← EdgeKind.data.inj hk]
  rcases h with hmany | hone
  · rw [hmany]
    cases owner.parameter.isList <;> exact nofun
  · rw [hone]
    cases p.isList <;> exact nofun

/-- The output was handed on to the parameter by one of the edges that have had their turn. -/
def Given (built : Graph) (done : List Nat) (node : Node) (p : Parameter) (source : NodeId)
    (output : String) : Prop :=
  ∃ place ∈ done, ∃ edge, built.edges[place]? = some edge ∧
    edge.Carries source output node.id p.name

section Given

variable {built : Graph} {done : List Nat} {node : Node} {p : Parameter} {place : Nat}

theorem given_nil : built.Given [] node p = fun _ _ => False :=
  funext fun _ => funext fun _ => eq_false fun ⟨_, hin, _⟩ => nomatch hin

theorem given_append {source : NodeId} {output : String} :
    built.Given (done ++ [place]) node p source output ↔ built.Given done node p source output ∨
      ∃ edge, built.edges[place]? = some edge ∧ edge.Carries source output node.id p.name := by
  constructor
  · rintro ⟨other, hin, hcarries⟩
    rcases List.mem_append.mp hin with hin | hin
    · exact .inl ⟨other, hin, hcarries⟩
    · exact .inr (List.mem_singleton.mp hin ▸ hcarries)
  · rintro (⟨other, hin, hcarries⟩ | hcarries)
    · exact ⟨other, List.mem_append_left _ hin, hcarries⟩
    · exact ⟨place, List.mem_append_right _ (List.mem_singleton_self place), hcarries⟩

/-- Once an edge has had its turn, its output was handed on. -/
theorem given_of_link {owner : OutputOwner} {w : Value}
    (he : built.edges[place]? = some (linkEdge owner node.id p w)) :
    built.Given (done ++ [place]) node p = Further (built.Given done node p) owner := by
  funext source output
  refine propext (given_append.trans (or_congr_right ⟨?_, fun hsame => ?_⟩))
  · rintro ⟨edge, hedge, hcarries⟩
    obtain rfl := Option.some.inj (he.symm.trans hedge)
    exact carries_linkEdge.mp hcarries
  · exact ⟨_, he, carries_linkEdge.mpr hsame⟩

/-- The turn of an edge that leads elsewhere hands on nothing to a parameter. -/
theorem given_of_elsewhere
    (he : ∀ edge, built.edges[place]? = some edge → edge.target = node.id → ¬ edge.Fills p.name) :
    built.Given (done ++ [place]) node p = built.Given done node p := by
  funext source output
  refine propext (given_append.trans (or_iff_left ?_))
  rintro ⟨edge, hedge, hcarries⟩
  exact he edge hedge hcarries.fills.1 hcarries.fills.2

end Given

/-- The value of a key is what is held for it. -/
theorem Mirrored.configured?_of_leaf? {g : Graph} (hm : g.Mirrored) {node : Node} (hn : node ∈ g.nodes)
    {key : String} {leaf : ScopeId} (hleaf : g.scope.forest.leaf? node.name key = some leaf) :
    node.configured? key = g.scope.forest.raw? leaf := by
  rw [← hm.entry?_eq hn key, Forest.entry?_some, hleaf, Option.bind_some]

/-- What a node is configured with has a scope of its own. -/
theorem Mirrored.exists_leaf {g : Graph} (hm : g.Mirrored) {node : Node} (hn : node ∈ g.nodes)
    {key : String} {raw : Value} (hraw : node.configured? key = some raw) :
    ∃ leaf, g.scope.forest.leaf? node.name key = some leaf ∧ g.scope.forest.raw? leaf = some raw := by
  obtain ⟨leaf, hleaf⟩ : ∃ leaf, g.scope.forest.leaf? node.name key = some leaf := by
    refine Option.ne_none_iff_exists'.mp fun hnone => ?_
    rw [hm.leaf?_eq_none hn, hraw] at hnone
    cases hnone
  exact ⟨leaf, hleaf, (hm.configured?_of_leaf? hn hleaf).symm.trans hraw⟩

theorem leaf?_of_outputOwner? {g : Graph} {leaf : ScopeId} {owner : OutputOwner}
    (h : g.outputOwner? leaf = some owner) :
    g.scope.forest.leaf? owner.node.name owner.parameter.name = some owner.scope := by
  rw [outputOwner?] at h
  split at h
  next name key _ _ =>
    simp only [Option.bind_eq_bind, Option.bind_eq_some_iff] at h
    obtain ⟨node, hn, parameter, hp, scope, hscope, h⟩ := h
    split at h
    · cases h
      have hname : node.name = name := by simpa using List.find?_some hn
      have hkey : parameter.name = key := by simpa using List.find?_some hp
      rw [hname, hkey, Forest.leaf?, Option.bind_eq_some_iff]
      exact hscope
    · cases h
  next => cases h

section Built

variable {pipeline : Pipeline} {built : Graph} (hbuild : build pipeline = .ok built)
  (hnames : built.Distinct)
  {node : Node} {p : Parameter} {id : ScopeId}

include hbuild hnames

/-- An edge to a parameter goes back to a reference in its value. -/
theorem link_of_fills (hn : node ∈ built.nodes) (hp : p ∈ node.spec.parameters)
    (hleaf : built.scope.forest.leaf? node.name p.name = some id) {raw : Value}
    (hraw : built.scope.forest.raw? id = some raw) {edge : Edge} (he : edge ∈ built.edges)
    (htarget : edge.target = node.id) (hfills : edge.Fills p.name) :
    ∃ path ∈ raw.references, ∃ owner w, built.Asks node (built.scope.forest.seat id) path owner ∧
      edge = linkEdge owner node.id p w := by
  have hm := mirrored_build hbuild
  rcases referred_of_build hbuild he with hafter | ⟨other, ho, start, hstart, q, hq, raw', hraw', path,
    hpath, owner, w, howner, hne, rfl⟩
  · exact absurd hfills (Edge.not_fills_of_after hafter _)
  · obtain rfl := List.inj_on_of_nodup_map hm.ids ho hn htarget
    obtain ⟨link, hk, hname⟩ := hfills
    have hname : q.name = p.name := by
      rw [← hname, ← EdgeKind.data.inj hk]
    obtain rfl := List.inj_on_of_nodup_map (hnames other hn) hq hp hname
    rw [hm.configured?_of_leaf? hn hleaf, hraw] at hraw'
    obtain rfl := Option.some.inj hraw'
    obtain rfl := Option.some.inj (hstart.symm.trans (Forest.seat_of_leaf? hm.sound hleaf))
    exact ⟨path, hpath, owner, w, ⟨howner, hne⟩, rfl⟩

/-- Single values are handed to a text. -/
theorem Receives.firm {text : String} {v : Value} {m : Memo} (h : built.Receives node p id text v m)
    {edge : Edge} (he : edge ∈ built.edges) (htarget : edge.target = node.id)
    (hfills : edge.Fills p.name) : edge.Firm := by
  obtain ⟨path, hpath, owner, w, hasks, rfl⟩ :=
    link_of_fills hbuild hnames h.isNode h.isParameter h.leaf h.holds he htarget hfills
  exact firm_linkEdge (.inr (h.named path hpath owner hasks).1)

/-- No list that is handed on meets a parameter for a single value where a list is taken. -/
theorem Gathers.firm {raw v : Value} {m : Memo} (h : built.Gathers node p id raw v m)
    {edge : Edge} (he : edge ∈ built.edges) (htarget : edge.target = node.id)
    (hfills : edge.Fills p.name) : edge.Firm := by
  obtain ⟨path, hpath, owner, w, hasks, rfl⟩ :=
    link_of_fills hbuild hnames h.isNode h.isParameter h.leaf h.holds he htarget hfills
  exact firm_linkEdge (.inl h.takesMany)

end Built

/-- Outputs of other nodes are referred to in elements that are such references. -/
theorem Gathers.calls_of_asks {g : Graph} {node : Node} {p : Parameter} {id : ScopeId} {raw v : Value}
    {m : Memo} (h : g.Gathers node p id raw v m) {path : List String} (hpath : path ∈ raw.references)
    {owner : OutputOwner} (hasks : g.Asks node (g.scope.forest.seat id) path owner) :
    ∃ x ∈ raw.toList, g.Calls node (g.scope.forest.seat id) x path owner := by
  obtain ⟨l, hl, hpath⟩ := Value.mem_references.mp hpath
  obtain ⟨x, hx, hl⟩ := Value.mem_leaves.mp hl
  have hpath : path ∈ x.references := Value.mem_references.mpr ⟨l, hl, hpath⟩
  rcases h.elements x hx with ⟨path', owner', hcalls⟩ | hrests
  · rw [hcalls.references] at hpath
    obtain rfl := List.mem_singleton.mp hpath
    obtain rfl := hasks.unique hcalls.asks
    exact ⟨x, hx, hcalls⟩
  · exact absurd hasks (hrests path hpath owner)

/-- What kept values hold when the edges at some places have had their turn. -/
structure Intact (built : Graph) (done : List Nat) (g : Graph) : Prop where
  /-- The scopes are those that were built. -/
  alike : built.scope.forest.Alike g.scope.forest
  /-- What is remembered is meant. -/
  truthful : g.Truthful
  /-- What nothing is handed to is as it was. -/
  stands : ∀ {id raw v m}, (∀ other u, m.lookup other = some u → built.Exact other u) →
    built.Stands id raw v m → g.scope.forest.raw? id = some raw
  /-- A text has received what was handed to it. -/
  receives : ∀ {node p id text v m}, (∀ other u, m.lookup other = some u → built.Exact other u) →
    built.Receives node p id text v m → ∃ now, g.scope.forest.raw? id = some now ∧
      built.Receiving node id text v m (built.Given done node p) now
  /-- A list has gathered what was handed to it. -/
  gathers : ∀ {node p id raw v m}, (∀ other u, m.lookup other = some u → built.Kept other u) →
    built.Gathers node p id raw v m → ∃ now, g.scope.forest.raw? id = some now ∧
      built.Gathering node id raw m (built.Given done node p) now

/-- Before values are handed on, kept values are as they were built. -/
theorem Unmoved.intact {built g : Graph} (h : Unmoved built g) : Intact built [] g where
  alike := h.alike
  truthful := h.truthful
  stands hm hs := (h.kept _ _ (.exact (.stands hm hs))).trans hs.holds
  receives hm hr :=
    ⟨_, (h.kept _ _ (.exact (.receives hm hr))).trans hr.holds, given_nil ▸ hr.receiving⟩
  gathers hm hg :=
    ⟨_, (h.kept _ _ (.gathers hm hg)).trans hg.holds, given_nil ▸ gathering_nothing _ _ _ _ _⟩

/-- With the same scopes and values, kept values hold the same. -/
theorem Intact.of_forest {built g g' : Graph} {done : List Nat} (h : Intact built done g)
    (hforest : g'.scope.forest = g.scope.forest) (htruthful : g'.Truthful) : Intact built done g' where
  alike := hforest ▸ h.alike
  truthful := htruthful
  stands hm hs := hforest ▸ h.stands hm hs
  receives hm hr := hforest ▸ h.receives hm hr
  gathers hm hg := hforest ▸ h.gathers hm hg

section Intact

variable {built g : Graph} {done : List Nat} (hi : Intact built done g) {id : ScopeId} {v : Value}

include hi

/-- At any time, what is exact means what it meant when the graph was built. -/
theorem Intact.unique (hk : built.Exact id v) {u : Value} (hu : Means g.scope.forest id u) : u = v := by
  induction hk generalizing u with
  | stands hm h ih =>
    exact means_unique hi.alike (hi.stands hm h) h.value
      (fun other a ha b hb => ih other a ha hb) hu
  | receives hm h ih =>
    obtain ⟨now, hraw, hr⟩ := hi.receives hm h
    exact means_unique hi.alike hraw (hr.value h) (fun other a ha b hb => ih other a ha hb) hu

/-- Once all has arrived at its node, a kept value means the scalars that it meant when the graph was
built. -/
theorem Intact.leaves {pipeline : Pipeline} (hbuild : build pipeline = .ok built)
    (hk : built.Kept id v)
    (harrived : ∀ node ∈ built.nodes, built.HoldsParameter node id → ∀ (place : Nat) edge,
      built.edges[place]? = some edge → edge.target = node.id → place ∈ done) {u : Value}
    (hu : Means g.scope.forest id u) (y : Value) : y ∈ u.leaves ↔ y ∈ v.leaves := by
  have hm := mirrored_build hbuild
  induction hk generalizing u y with
  | exact h => rw [hi.unique h hu]
  | @gathers node p id raw v m hkept h ih =>
    have hheld : built.HoldsParameter node id := ⟨p, h.isParameter, h.leaf⟩
    obtain ⟨now, hraw, hg⟩ := hi.gathers hkept h
    cases hu with
    | @intro _ raw' _ m' hraw' hmeans hvalue =>
      obtain rfl := Option.some.inj (hraw.symm.trans hraw')
      have hseat : (g.scope.forest.parent? id).getD id = built.scope.forest.seat id := by
        rw [hi.alike.parent?, Forest.seat]
      rw [hseat] at hvalue
      refine hg.leaves h (fun x hx path owner hcalls => ?_) hvalue (fun x hx hrests l hl a b ha hb => ?_) y
      · have hpath : path ∈ raw.references := by
          refine Value.mem_references.mpr ⟨x, Value.mem_leaves.mpr ⟨x, hx, ?_⟩, ?_⟩
          · simp [hcalls.leaves]
          · simp [hcalls.references]
        have hconfigured := (hm.configured?_of_leaf? h.isNode h.leaf).trans h.holds
        obtain ⟨w, hw⟩ := edge_of_reference hbuild h.isNode (Forest.seat_of_leaf? hm.sound h.leaf)
          h.isParameter hconfigured hpath hcalls.asks.1 hcalls.asks.2
        obtain ⟨place, hplace⟩ := List.mem_iff_getElem?.mp hw
        refine ⟨place, ?_, _, hplace, carries_linkEdge.mpr ⟨rfl, rfl⟩⟩
        exact harrived node h.isNode hheld place _ hplace rfl
      · rcases h.faithful x hx hrests l hl with hexact | ⟨text, path, leaf, consumed, rfl, hsingle, hlookup,
          hown⟩
        · have hsame : a = b := by
            refine valueWith_unique (fun path hp c d hc hd => ?_) ha hb
            refine fromMemory_unique hi.alike hc hd fun leaf consumed hlookup w w' hw hw' => ?_
            exact hi.unique (hexact path hp leaf consumed hlookup w hw) (hmeans leaf w' hw')
          rw [hsame]
          exact fun _ => Iff.rfl
        · rw [valueWith_of_singleReference? hsingle, fromMemory] at ha hb
          rw [hi.alike.lookup?] at hb
          simp only [hlookup] at ha hb
          cases hfirst : m.lookup leaf with
          | none => simp [hfirst] at ha
          | some w =>
            cases hsecond : m'.lookup leaf with
            | none => simp [hsecond] at hb
            | some w' =>
              simp only [hfirst] at ha
              simp only [hsecond] at hb
              refine FileField.leaves_derive_congr (fun y => ?_) hb ha
              refine ih leaf w hfirst (fun other ho hother => ?_) (hmeans leaf w' hsecond) y
              obtain rfl := hother.unique hm ho h.isNode hown
              exact harrived other ho hheld

end Intact

end Graph

end Pipework
