import Pipework.Proofs.Construction

/-!
# What repeating a node leaves alone

While it is found out what a node is repeated for, and while a node takes the one value that
it is given, edges may change what they hand on. They go on joining the same nodes, and edges
for the order only stay such edges. Neither does any node come or go.
-/

namespace Pipework

open Step Resolve

/-- The edge hands on a value to this key. -/
def Edge.Fills (edge : Edge) (key : String) : Prop :=
  ∃ link, edge.kind = .data link ∧ link.targetProperty = key

/-- An edge for the order only hands on nothing. -/
theorem Edge.not_fills_of_after {edge : Edge} (h : edge.kind = .after) (key : String) :
    ¬ edge.Fills key := by
  rintro ⟨link, hlink, -⟩
  rw [h] at hlink
  cases hlink

/-- An edge hands on to one parameter only. -/
theorem Edge.Fills.unique {edge : Edge} {key other : String} (h : edge.Fills key)
    (h' : edge.Fills other) : key = other := by
  obtain ⟨link, hlink, rfl⟩ := h
  obtain ⟨link', hlink', rfl⟩ := h'
  rw [hlink] at hlink'
  rw [EdgeKind.data.inj hlink']

instance (edge : Edge) (key : String) : Decidable (edge.Fills key) :=
  match h : edge.kind with
  | .after => isFalse (Edge.not_fills_of_after h key)
  | .data link => decidable_of_iff (link.targetProperty = key)
      ⟨fun hk => ⟨link, h, hk⟩, fun ⟨other, hother, hk⟩ => by
        rw [h] at hother
        rwa [EdgeKind.data.inj hother]⟩

/-- The edge still joins the same nodes, and it hands on a value to no other key. -/
def Edge.Keeps (edge edge' : Edge) : Prop :=
  edge'.source = edge.source ∧ edge'.target = edge.target ∧ ∀ key, edge'.Fills key → edge.Fills key

theorem Edge.keeps_refl (edge : Edge) : edge.Keeps edge := ⟨rfl, rfl, fun _ h => h⟩

/-- Edges may be changed one time after another. -/
theorem Edge.Keeps.trans {edge edge' edge'' : Edge} (h : edge.Keeps edge')
    (h' : edge'.Keeps edge'') : edge.Keeps edge'' :=
  ⟨h'.1.trans h.1, h'.2.1.trans h.2.1, fun key hk => h.2.2 key (h'.2.2 key hk)⟩

/-- An edge that fills no key which one for the order only does not fill is for the order only. -/
theorem Edge.kind_of_fills {edge edge' : Edge} (h : ∀ key, edge'.Fills key → edge.Fills key)
    (hk : edge.kind = .after) : edge'.kind = .after := by
  cases hkind : edge'.kind with
  | after => rfl
  | data link =>
    exact absurd (h link.targetProperty ⟨link, hkind, rfl⟩) (not_fills_of_after hk _)

/-- If the edge was for the order only it still is. -/
theorem Edge.Keeps.kind {edge edge' : Edge} (h : edge.Keeps edge') :
    edge.kind = .after → edge'.kind = .after := kind_of_fills h.2.2

/-- An edge for the order only is known by the nodes that it joins. -/
theorem Edge.eq_after {edge : Edge} {source target : NodeId} (hs : edge.source = source)
    (ht : edge.target = target) (hk : edge.kind = .after) : edge = .after source target := by
  obtain ⟨_, _, _⟩ := edge
  cases hs
  cases ht
  exact congrArg _ hk

/-- An edge for the order only stays as it is. -/
theorem Edge.Keeps.eq_of_after {edge edge' : Edge} (h : edge.Keeps edge') (hk : edge.kind = .after) :
    edge' = edge :=
  (eq_after h.1 h.2.1 (h.kind hk)).trans (eq_after rfl rfl hk).symm

namespace Graph

/-- At each place stands the same edge, save for what it hands on. -/
def EdgesKept (edges edges' : List Edge) : Prop :=
  ∀ place : Nat, Option.Rel Edge.Keeps edges[place]? edges'[place]?

instance : Std.Refl EdgesKept where
  refl edges place := by
    cases edges[place]? with
    | none => exact .none
    | some edge => exact .some edge.keeps_refl

instance : IsTrans (List Edge) EdgesKept where
  trans edges edges' edges'' h h' place := by
    have hfirst := h place
    have hsecond := h' place
    revert hfirst hsecond
    generalize edges[place]? = a, edges'[place]? = b, edges''[place]? = c
    rintro (hab | _) (hbc | _)
    · exact .some (hab.trans hbc)
    · exact .none

/-- What stands at a place afterwards stood there before, up to what it hands on. -/
theorem EdgesKept.before {edges edges' : List Edge} (h : EdgesKept edges edges') {place : Nat}
    {edge' : Edge} (he : edges'[place]? = some edge') :
    ∃ edge, edges[place]? = some edge ∧ edge.Keeps edge' := by
  have hrel := h place
  rw [he] at hrel
  generalize edges[place]? = before at hrel
  obtain (hkeeps | _) := hrel
  exact ⟨_, rfl, hkeeps⟩

/-- What stands at a place still stands there afterwards, up to what it hands on. -/
theorem EdgesKept.behind {edges edges' : List Edge} (h : EdgesKept edges edges') {place : Nat}
    {edge : Edge} (he : edges[place]? = some edge) :
    ∃ edge', edges'[place]? = some edge' ∧ edge.Keeps edge' := by
  have hrel := h place
  rw [he] at hrel
  generalize edges'[place]? = behind at hrel
  obtain (hkeeps | _) := hrel
  exact ⟨_, rfl, hkeeps⟩

/-- Each edge was there before, up to what it hands on. -/
theorem EdgesKept.exists_edge {edges edges' : List Edge} (h : EdgesKept edges edges')
    {edge' : Edge} (he : edge' ∈ edges') : ∃ edge ∈ edges, edge.Keeps edge' := by
  obtain ⟨place, hplace⟩ := List.mem_iff_getElem?.mp he
  obtain ⟨edge, hedge, hkeeps⟩ := h.before hplace
  exact ⟨edge, List.mem_of_getElem? hedge, hkeeps⟩

/-- An edge for the order only stays where it is. -/
theorem EdgesKept.after_at {edges edges' : List Edge} (h : EdgesKept edges edges') {place : Nat}
    {edge : Edge} (he : edges[place]? = some edge) (hk : edge.kind = .after) :
    edges'[place]? = some edge := by
  obtain ⟨edge', he', hkeeps⟩ := h.behind he
  rwa [hkeeps.eq_of_after hk] at he'

/-- Edges for the order only are still there. -/
theorem EdgesKept.mem_after {edges edges' : List Edge} (h : EdgesKept edges edges')
    {source target : NodeId} (he : Edge.after source target ∈ edges) :
    Edge.after source target ∈ edges' := by
  obtain ⟨place, hplace⟩ := List.mem_iff_getElem?.mp he
  exact List.mem_of_getElem? (h.after_at hplace rfl)

/-- At most values and what edges hand on differ. -/
structure Retains (g g' : Graph) : Prop where
  /-- The nodes differ in values only. -/
  nodes : g'.nodes.map Node.outline = g.nodes.map Node.outline
  /-- No handle is given out. -/
  nextId : g'.nextId = g.nextId
  /-- The edges stay. -/
  edges : EdgesKept g.edges g'.edges

instance : Std.Refl Retains := ⟨fun g => ⟨rfl, rfl, refl_of EdgesKept g.edges⟩⟩

instance : IsTrans Graph Retains where
  trans _ _ _ h h' :=
    ⟨h'.nodes.trans h.nodes, h'.nextId.trans h.nextId, trans_of EdgesKept h.edges h'.edges⟩

/-- A graph with the same outline has the same edges and the same nodes. -/
theorem SameOutline.retains {g g' : Graph} (h : SameOutline g g') : Retains g g' :=
  ⟨congrArg Graph.nodes h, h.nextId, h.edges ▸ refl_of EdgesKept g.edges⟩

/-- What does not depend on values is the same for all nodes. -/
theorem Retains.map_nodes {α : Type} {g g' : Graph} (h : Retains g g') (f : Node → α)
    (hf : ∀ node : Node, f node.outline = f node) : g'.nodes.map f = g.nodes.map f := by
  have hn := congrArg (List.map f) h.nodes
  simpa only [List.map_map, Function.comp_def, hf] using hn

/-- Nodes are there under the handles that they had. -/
theorem Retains.ids {g g' : Graph} (h : Retains g g') :
    g'.nodes.map (·.id) = g.nodes.map (·.id) := h.map_nodes _ fun _ => rfl

/-- Each node was there before, with the same job. -/
theorem Retains.exists_node {g g' : Graph} (h : Retains g g') {node : Node}
    (hn : node ∈ g'.nodes) : ∃ old ∈ g.nodes, old.id = node.id ∧ old.spec = node.spec := by
  have hmap := h.map_nodes (fun n => (n.id, n.spec)) fun _ => rfl
  have hmem : (node.id, node.spec) ∈ g'.nodes.map fun n => (n.id, n.spec) :=
    List.mem_map_of_mem hn
  rw [hmap] at hmem
  obtain ⟨old, ho, heq⟩ := List.mem_map.mp hmem
  exact ⟨old, ho, congrArg Prod.fst heq, congrArg Prod.snd heq⟩

/-- Handles of nodes go on fitting together. -/
theorem Retains.wellFormed {g g' : Graph} (h : Retains g g') (hw : g.WellFormed) :
    g'.WellFormed := by
  refine ⟨?_, ?_, fun edge' he' => ?_⟩
  · simpa only [h.ids, h.nextId] using hw.below
  · simpa only [h.ids] using hw.nodup
  · obtain ⟨edge, he, hs, ht, -⟩ := h.edges.exists_edge he'
    rw [h.ids, hs, ht]
    exact hw.closed edge he

/-- At most more is remembered of values, and edges hand on something else. -/
def Plans (g g' : Graph) : Prop :=
  ∃ memo edges, Learns g.scope.forest [] g.scope.memo memo ∧ EdgesKept g.edges edges ∧
    g' = { g with edges, scope := { g.scope with memo } }

instance : Std.Refl Plans :=
  ⟨fun g => ⟨g.scope.memo, g.edges, refl_of _ g.scope.memo, refl_of EdgesKept g.edges, rfl⟩⟩

instance : IsTrans Graph Plans where
  trans := by
    rintro g _ _ ⟨memo, edges, hlearns, hkept, rfl⟩ ⟨memo', edges', hlearns', hkept', rfl⟩
    exact ⟨memo', edges', trans_of (Learns g.scope.forest []) hlearns hlearns',
      trans_of EdgesKept hkept hkept', rfl⟩

/-- Where only what is remembered changes, edges and nodes are kept. -/
theorem SameButMemo.plans {g g' : Graph} (h : SameButMemo g g') : Plans g g' := by
  obtain ⟨memo, hlearns, rfl⟩ := h
  exact ⟨memo, g.edges, hlearns, refl_of EdgesKept g.edges, rfl⟩

/-- While it is found out what a node is repeated for, edges and nodes are kept. -/
theorem Plans.retains {g g' : Graph} (h : Plans g g') : Retains g g' := by
  obtain ⟨memo, edges, -, hkept, rfl⟩ := h
  exact ⟨rfl, rfl, hkept⟩

/-- Changing what one edge hands on keeps the edges. -/
theorem edgesKept_modify (edges : List Edge) (place : Nat) {change : Edge → Edge}
    (hc : ∀ edge : Edge, edge.Keeps (change edge)) : EdgesKept edges (edges.modify place change) := by
  intro other
  rw [List.getElem?_modify]
  cases edges[other]? with
  | none => exact .none
  | some edge =>
    by_cases heq : place = other
    · simpa [heq] using Option.Rel.some (hc edge)
    · simpa [heq] using Option.Rel.some edge.keeps_refl

/-- A graph with one edge changed in what it hands on has the same nodes and scopes. -/
theorem moves_modifyEdge (place : Nat) {change : Edge → Edge}
    (hc : ∀ edge : Edge, edge.Keeps (change edge)) :
    Moves Plans (modify (·.modifyEdge place change) : GraphM Unit) :=
  .modify fun g => ⟨g.scope.memo, _, refl_of _ g.scope.memo, edgesKept_modify g.edges place hc, rfl⟩

/-- Looking at one edge to a node may change what this edge hands on. -/
theorem moves_addDriver (drivers : Drivers) (place : Nat) :
    Moves Plans (addDriver drivers place) := by
  refine (moves_edgeAt place).bind fun edge => ?_
  cases edge.kind with
  | after => exact .pure _
  | data link =>
    cases hcard : link.cardinality with
    | manyToOne =>
      simp only [hcard]
      refine ((moves_propertyValue _ _).mono fun _ _ h => h.plans).bind fun current => ?_
      have hempty : ∀ edge : Edge, edge.Keeps { edge with kind := .after } :=
        fun edge => ⟨rfl, rfl, fun key hk => absurd hk (Edge.not_fills_of_after rfl key)⟩
      split
      · exact (moves_modifyEdge place hempty).bind fun _ => .pure _
      · exact .pure _
    | oneToOne =>
      simp only [hcard]
      exact (moves_nodeAt _).bind fun _ => .pure _
    | oneToMany =>
      simp only [hcard]
      exact .pure _
    | manyToMany =>
      simp only [hcard]
      exact .pure _

/-- Looking at the lists that a node has reads values and nothing else. -/
theorem moves_listDrivers (id : NodeId) (linked : List String) (parameters : List Parameter) :
    Moves SameButMemo (listDrivers id linked parameters) := by
  induction parameters with
  | nil => exact .pure _
  | cons parameter parameters ih =>
    rw [listDrivers]
    split
    · exact ih
    · refine (moves_propertyValue _ _).bind fun current => ih.bind fun others => ?_
      split <;> exact .pure _

/-- Finding out what a node is repeated for touches neither nodes nor their values. -/
theorem moves_drivers (id : NodeId) : Moves Plans (drivers id) := by
  refine Moves.get.bind fun graph => ?_
  refine (Moves.foldlM (fun found place _ => moves_addDriver found place) _).bind fun found => ?_
  refine (moves_nodeAt id).bind fun node => ?_
  exact ((moves_listDrivers id _ _).mono fun _ _ h => h.plans).bind fun _ => .pure _

/-- Having an edge hand on its one element changes what this edge hands on. -/
theorem moves_narrowEdge (share : Share) : Moves Plans (narrowEdge share) := by
  refine moves_modifyEdge share.edge fun edge => ?_
  cases hk : edge.kind with
  | after => exact edge.keeps_refl
  | data link =>
    refine ⟨rfl, rfl, ?_⟩
    rintro _ ⟨narrowed, hnarrowed, rfl⟩
    obtain rfl := EdgeKind.data.inj hnarrowed
    exact ⟨link, hk, rfl⟩

/-- A node takes the values that it is to have in steps that narrow edges and set its values. -/
theorem moves_collapse_of {R : Graph → Graph → Prop} [Std.Refl R] [IsTrans Graph R]
    (hplans : ∀ g g', Plans g g' → R g g') {id : NodeId} {drivers : Drivers}
    (hset : ∀ entry ∈ drivers.lists, ∀ item ∈ entry.2, Moves R (setNodeValue id entry.1 item)) :
    Moves R (collapse id drivers) := by
  have hshares : Moves R (drivers.shares.forM fun entry => entry.2.forM narrowEdge) :=
    .forM fun _ _ => .forM fun share _ => (moves_narrowEdge share).mono hplans
  refine hshares.bind fun _ => .forM fun entry hentry => ?_
  cases hitem : entry.2[0]? with
  | none => exact .throw _
  | some item => exact hset entry hentry item (List.mem_of_getElem? hitem)

/-- Taking a single value retains all edges. -/
theorem moves_collapse (id : NodeId) (drivers : Drivers) : Moves Retains (collapse id drivers) :=
  moves_collapse_of (fun _ _ h => h.retains) fun entry _ item _ =>
    (moves_setNodeValue id entry.1 item).mono fun _ _ h => h.retains

/-- The elements of a list that comes in along the edge at a place. -/
def sharesAt (place : Nat) (source : NodeId) (property : String) (items : List Value) :
    List Share :=
  items.zipIdx.map fun item => ⟨place, source, property, item.2, item.1⟩

/-- What taking account of an edge comes to. -/
inductive Noted (place : Nat) (edge : Edge) (found : Drivers) (g : Graph) : Drivers → Graph → Prop
  | order (hk : edge.kind = .after) : Noted place edge found g found g
  | list {link : DataLink} (hk : edge.kind = .data link)
      (hc : link.cardinality = .oneToMany ∨ link.cardinality = .manyToMany) :
      Noted place edge found g found g
  | empty {link : DataLink} {current : Option Value} {t : Graph} (hk : edge.kind = .data link)
      (hc : link.cardinality = .manyToOne)
      (hv : propertyValue edge.source link.sourceProperty g = .ok current t)
      (hi : (current.getD link.value).toList = []) :
      Noted place edge found g found (t.modifyEdge place ({ · with kind := .after }))
  | shares {link : DataLink} {current : Option Value} {t : Graph} (hk : edge.kind = .data link)
      (hc : link.cardinality = .manyToOne)
      (hv : propertyValue edge.source link.sourceProperty g = .ok current t)
      (hi : (current.getD link.value).toList ≠ []) :
      Noted place edge found g { found with
        shares := Drivers.addShares link.targetProperty (sharesAt place edge.source
          link.sourceProperty (current.getD link.value).toList) found.shares } t
  | strand {link : DataLink} {source : Node} (hk : edge.kind = .data link)
      (hc : link.cardinality = .oneToOne) (hn : g.node? edge.source = some source) :
      Noted place edge found g { found with
        strands := Drivers.addStrand link.targetProperty source.spec.id link.sourceProperty place
          found.strands } g

/-- Looking at an edge does one of the things that may be noted about it. -/
theorem noted_of_addDriver {g g' : Graph} {found found' : Drivers} {place : Nat}
    (h : addDriver found place g = .ok found' g') :
    ∃ edge, g.edges[place]? = some edge ∧ Noted place edge found g found' g' := by
  obtain ⟨edge, _, hat, h⟩ := bind_eq_ok.mp h
  obtain ⟨hedge, rfl⟩ := edgeAt_eq_ok.mp hat
  refine ⟨edge, hedge, ?_⟩
  cases hkind : edge.kind with
  | after =>
    simp only [hkind] at h
    obtain ⟨rfl, rfl⟩ := pure_eq_ok.mp h
    exact .order hkind
  | data link =>
    simp only [hkind] at h
    cases hcard : link.cardinality with
    | manyToOne =>
      simp only [hcard] at h
      obtain ⟨current, t, hvalue, h⟩ := bind_eq_ok.mp h
      cases hitems : (current.getD link.value).toList with
      | nil =>
        simp only [hitems] at h
        obtain ⟨_, _, hmodify, h⟩ := bind_eq_ok.mp h
        obtain rfl := modify_eq_ok.mp hmodify
        obtain ⟨rfl, rfl⟩ := pure_eq_ok.mp h
        exact .empty hkind hcard hvalue hitems
      | cons item items =>
        simp only [hitems] at h
        obtain ⟨rfl, rfl⟩ := pure_eq_ok.mp h
        rw [← hitems]
        exact .shares hkind hcard hvalue (by simp [hitems])
    | oneToOne =>
      simp only [hcard] at h
      obtain ⟨source, _, hat, h⟩ := bind_eq_ok.mp h
      obtain ⟨hsource, rfl⟩ := nodeAt_eq_ok.mp hat
      obtain ⟨rfl, rfl⟩ := pure_eq_ok.mp h
      exact .strand hkind hcard hsource
    | oneToMany =>
      simp only [hcard] at h
      obtain ⟨rfl, rfl⟩ := pure_eq_ok.mp h
      exact .list hkind (.inl hcard)
    | manyToMany =>
      simp only [hcard] at h
      obtain ⟨rfl, rfl⟩ := pure_eq_ok.mp h
      exact .list hkind (.inr hcard)

/-- The place of an edge that hands on a value to this key of the node. -/
def Feeds (edges : List Edge) (id : NodeId) (key : String) (place : Nat) : Prop :=
  ∃ edge, edges[place]? = some edge ∧ edge.target = id ∧ edge.Fills key

/-- What a node is repeated for comes in along edges to it. -/
structure Traced (edges : List Edge) (id : NodeId) (drivers : Drivers) : Prop where
  /-- An element of a list comes along an edge to the key that it is for. -/
  shares : ∀ entry ∈ drivers.shares, ∀ share ∈ entry.2, Feeds edges id entry.1 share.edge
  /-- It comes from the source of the edge. -/
  sources : ∀ entry ∈ drivers.shares, ∀ share ∈ entry.2, ∀ edge, edges[share.edge]? = some edge →
    edge.source = share.source
  /-- There is something to be shared out for each key that is mentioned. -/
  nonempty : ∀ entry ∈ drivers.shares, entry.2 ≠ []
  /-- A strand is made of edges to its key. -/
  strands : ∀ strand ∈ drivers.strands, ∀ place ∈ strand.edges, Feeds edges id strand.property place

/-- Elements of lists come in only where an edge leads to. -/
theorem Traced.exists_edge {edges : List Edge} {id : NodeId} {drivers : Drivers}
    (h : Traced edges id drivers) {entry : String × List Share} (he : entry ∈ drivers.shares) :
    ∃ edge ∈ edges, edge.target = id ∧ edge.Fills entry.1 := by
  obtain ⟨share, hshare⟩ := List.exists_mem_of_ne_nil _ (h.nonempty entry he)
  obtain ⟨edge, hedge, ht, hk⟩ := h.shares entry he share hshare
  exact ⟨edge, List.mem_of_getElem? hedge, ht, hk⟩

/-- Shares that are added for a parameter go behind those that it has, or are its first. -/
theorem mem_addShares {property : String} {added : List Share}
    {entries : List (String × List Share)} {entry : String × List Share}
    (h : entry ∈ Drivers.addShares property added entries) : entry ∈ entries ∨
      entry.1 = property ∧ (entry.2 = added ∨ ∃ old ∈ entries, old.1 = property ∧
        entry.2 = old.2 ++ added) := by
  induction entries with
  | nil =>
    rw [Drivers.addShares, List.mem_singleton] at h
    exact .inr (h ▸ ⟨rfl, .inl rfl⟩)
  | cons first entries ih =>
    rw [Drivers.addShares] at h
    split at h
    next hkey =>
      rcases List.mem_cons.mp h with rfl | h
      · exact .inr ⟨rfl, .inr ⟨first, by simp, hkey, rfl⟩⟩
      · exact .inl (List.mem_cons_of_mem _ h)
    · rcases List.mem_cons.mp h with rfl | h
      · exact .inl (by simp)
      · refine (ih h).imp (List.mem_cons_of_mem _) fun ⟨hkey, hall⟩ => ⟨hkey, hall.imp_right ?_⟩
        exact fun ⟨old, ho, hold⟩ => ⟨old, List.mem_cons_of_mem _ ho, hold⟩

/-- So what a parameter then has is one of these shares, or it had it before. -/
theorem mem_of_mem_addShares {property : String} {added : List Share}
    {entries : List (String × List Share)} {entry : String × List Share}
    (h : entry ∈ Drivers.addShares property added entries) {share : Share} (hs : share ∈ entry.2) :
    (entry.1 = property ∧ share ∈ added) ∨ ∃ old ∈ entries, old.1 = entry.1 ∧ share ∈ old.2 := by
  rcases mem_addShares h with hold | ⟨hkey, hall | ⟨old, hold, hsame, hall⟩⟩
  · exact .inr ⟨entry, hold, rfl, hs⟩
  · exact .inl ⟨hkey, hall ▸ hs⟩
  · rcases List.mem_append.mp (hall ▸ hs) with hs | hs
    · exact .inr ⟨old, hold, hsame.trans hkey.symm, hs⟩
    · exact .inl ⟨hkey, hs⟩

/-- An edge that is added to the strands goes behind those of its strand, or is its first. -/
theorem mem_addStrand {property origin sourceProperty : String} {place : Nat}
    {strands : List Strand} {strand : Strand}
    (h : strand ∈ Drivers.addStrand property origin sourceProperty place strands) :
    strand ∈ strands ∨ strand.property = property ∧ (strand.edges = [place] ∨
      ∃ old ∈ strands, old.property = property ∧ strand.edges = old.edges ++ [place]) := by
  induction strands with
  | nil =>
    rw [Drivers.addStrand, List.mem_singleton] at h
    exact .inr (h ▸ ⟨rfl, .inl rfl⟩)
  | cons first strands ih =>
    rw [Drivers.addStrand] at h
    split at h
    next hkey =>
      rcases List.mem_cons.mp h with rfl | h
      · exact .inr ⟨hkey.1, .inr ⟨first, by simp, hkey.1, rfl⟩⟩
      · exact .inl (List.mem_cons_of_mem _ h)
    · rcases List.mem_cons.mp h with rfl | h
      · exact .inl (by simp)
      · refine (ih h).imp (List.mem_cons_of_mem _) fun ⟨hkey, hall⟩ => ⟨hkey, hall.imp_right ?_⟩
        exact fun ⟨old, ho, hold⟩ => ⟨old, List.mem_cons_of_mem _ ho, hold⟩

/-- So an edge of a strand is this one, or it was there before. -/
theorem mem_of_mem_addStrand {property origin sourceProperty : String} {place : Nat}
    {strands : List Strand} {strand : Strand}
    (h : strand ∈ Drivers.addStrand property origin sourceProperty place strands) {other : Nat}
    (ho : other ∈ strand.edges) : (strand.property = property ∧ other = place) ∨
      ∃ old ∈ strands, old.property = strand.property ∧ other ∈ old.edges := by
  rcases mem_addStrand h with hold | ⟨hkey, hall | ⟨old, hold, hsame, hall⟩⟩
  · exact .inr ⟨strand, hold, rfl, ho⟩
  · exact .inl ⟨hkey, List.mem_singleton.mp (hall ▸ ho)⟩
  · rcases List.mem_append.mp (hall ▸ ho) with ho | ho
    · exact .inr ⟨old, hold, hsame.trans hkey.symm, ho⟩
    · exact .inl ⟨hkey, List.mem_singleton.mp ho⟩

/-- The places of the edges with a property are just those where such an edge stands. -/
theorem mem_placesWhere {graph : Graph} {test : Edge → Bool} {place : Nat} :
    place ∈ graph.placesWhere test ↔ ∃ edge, graph.edges[place]? = some edge ∧ test edge := by
  simp only [placesWhere, List.mem_filterMap, Option.ite_none_right_eq_some]
  constructor
  · rintro ⟨⟨edge, other⟩, hmem, htest, heq⟩
    obtain rfl := Option.some.inj heq
    exact ⟨edge, List.mem_zipIdx_iff_getElem?.mp hmem, htest⟩
  · rintro ⟨edge, hedge, htest⟩
    exact ⟨(edge, place), List.mem_zipIdx_iff_getElem?.mpr hedge, htest, rfl⟩

/-- With one more edge looked at, all that is noted still goes back to edges to the node. -/
theorem traced_of_addDriver {g t t' : Graph} {id : NodeId} {found found' : Drivers} {place : Nat}
    (hr : Retains g t) (hp : place ∈ g.incoming id) (hf : Traced g.edges id found)
    (h : addDriver found place t = .ok found' t') : Traced g.edges id found' := by
  obtain ⟨before, hbefore, htarget⟩ := mem_placesWhere.mp hp
  obtain ⟨edge, hedge, hnoted⟩ := noted_of_addDriver h
  obtain ⟨old, hold, hkeeps⟩ := hr.edges.before hedge
  obtain rfl : before = old := Option.some.inj (hbefore.symm.trans hold)
  have hfeeds : ∀ link, edge.kind = .data link → Feeds g.edges id link.targetProperty place :=
    fun link hk => ⟨before, hbefore, by simpa using htarget, hkeeps.2.2 _ ⟨link, hk, rfl⟩⟩
  cases hnoted with
  | order _ | list _ _ | empty _ _ _ _ => exact hf
  | @shares link current _ hk _ _ hi =>
    have hnew : ∀ share ∈ sharesAt place edge.source link.sourceProperty
        (current.getD link.value).toList, share.edge = place ∧ share.source = edge.source := by
      intro share hshare
      obtain ⟨item, -, rfl⟩ := List.mem_map.mp hshare
      exact ⟨rfl, rfl⟩
    refine ⟨fun entry he share hs => ?_, fun entry he share hs edge' he' => ?_,
      fun entry he => ?_, hf.strands⟩
    · rcases mem_of_mem_addShares he hs with ⟨hkey, hs⟩ | ⟨earlier, hearlier, hkey, hs⟩
      · rw [hkey, (hnew share hs).1]
        exact hfeeds link hk
      · exact hkey ▸ hf.shares earlier hearlier share hs
    · rcases mem_of_mem_addShares he hs with ⟨-, hs⟩ | ⟨earlier, hearlier, -, hs⟩
      · obtain ⟨hplace, hsource⟩ := hnew share hs
        obtain rfl := Option.some.inj (hbefore.symm.trans (hplace ▸ he'))
        exact hkeeps.1.symm.trans hsource.symm
      · exact hf.sources earlier hearlier share hs edge' he'
    · have hsome : sharesAt place edge.source link.sourceProperty
          (current.getD link.value).toList ≠ [] := by simpa [sharesAt] using hi
      rcases mem_addShares he with he | ⟨-, hall | ⟨earlier, -, -, hall⟩⟩
      · exact hf.nonempty entry he
      · rwa [hall]
      · rw [hall]
        exact List.append_ne_nil_of_right_ne_nil _ hsome
  | strand hk _ _ =>
    refine ⟨hf.shares, hf.sources, hf.nonempty, fun strand hstrand other hother => ?_⟩
    rcases mem_of_mem_addStrand hstrand hother with ⟨hkey, rfl⟩ | ⟨earlier, hearlier, hkey, hother⟩
    · exact hkey ▸ hfeeds _ hk
    · exact hkey ▸ hf.strands earlier hearlier other hother

/-- All parameters for which a node is repeated bring as many values. -/
theorem length_of_size? {drivers : Drivers} {job : String} {count : Nat}
    (h : drivers.size? job = .ok (some count)) : ∀ entry ∈ drivers.sizes, entry.2 = count := by
  rw [Drivers.size?] at h
  cases hsizes : drivers.sizes with
  | nil => simp [hsizes] at h
  | cons first others =>
    simp only [hsizes] at h
    split at h
    · cases h
    · next hno =>
      obtain rfl : first.2 = count := by simpa using h
      intro entry hentry
      rcases List.mem_cons.mp hentry with rfl | hentry
      · rfl
      · simpa using List.find?_eq_none.mp hno entry hentry

/-- What a node is repeated for is found by taking account of the edges to it, and looking for lists
among its own values. -/
theorem drivers_eq_ok {g g' : Graph} {id : NodeId} {plan : Drivers}
    (h : drivers id g = .ok plan g') : ∃ found t node lists,
      (g.incoming id).foldlM addDriver {} g = .ok found t ∧ t.node? id = some node ∧
      listDrivers id (g.linkedProperties id) node.spec.parameters t = .ok lists g' ∧
      plan = { found with lists, strands := found.strands.filter fun s => 1 < s.edges.length } := by
  obtain ⟨_, _, hget, h⟩ := bind_eq_ok.mp h
  obtain ⟨rfl, rfl⟩ := get_eq_ok.mp hget
  obtain ⟨found, t, hfold, h⟩ := bind_eq_ok.mp h
  obtain ⟨node, _, hat, h⟩ := bind_eq_ok.mp h
  obtain ⟨hnode, rfl⟩ := nodeAt_eq_ok.mp hat
  obtain ⟨lists, _, hlists, h⟩ := bind_eq_ok.mp h
  obtain ⟨rfl, rfl⟩ := pure_eq_ok.mp h
  exact ⟨found, t, node, lists, hfold, hnode, hlists, rfl⟩

/-- All that is noted for a node goes back to edges to it, or to lists that it has. -/
theorem traced_of_drivers {g g' : Graph} {id : NodeId} {found : Drivers}
    (h : drivers id g = .ok found g') : Traced g.edges id found := by
  obtain ⟨all, t, node, lists, hfold, -, -, rfl⟩ := drivers_eq_ok h
  have hstart : Retains g g ∧ Traced g.edges id ({} : Drivers) :=
    ⟨refl_of Retains g, by simp, by simp, by simp, by simp⟩
  have hall := (foldlM_keeps (P := fun drivers t => Retains g t ∧ Traced g.edges id drivers)
    (fun place hplace drivers t drivers' t' ht hstep =>
      ⟨trans_of Retains ht.1 ((moves_addDriver drivers place).of_ok hstep).retains,
        traced_of_addDriver ht.1 hplace ht.2 hstep⟩) hstart hfold).2
  refine ⟨hall.shares, hall.sources, hall.nonempty, fun strand hstrand => ?_⟩
  exact hall.strands strand (List.mem_of_mem_filter hstrand)

/-- An edge for the order only is none of those that bring values to be shared out. -/
theorem Traced.not_consumes {edges : List Edge} {id : NodeId} {drivers : Drivers} {place : Nat}
    {edge : Edge} (h : Traced edges id drivers) (he : edges[place]? = some edge)
    (hk : edge.kind = .after) : drivers.consumes place = false := by
  have hno : ∀ key, ¬ Feeds edges id key place := by
    rintro key ⟨other, hother, -, hfills⟩
    obtain rfl := Option.some.inj (he.symm.trans hother)
    exact Edge.not_fills_of_after hk key hfills
  rw [← Bool.not_eq_true, Drivers.consumes, Bool.or_eq_true, not_or]
  constructor
  · simp only [List.any_eq_true, beq_iff_eq, not_exists, not_and]
    rintro entry hentry share hshare rfl
    exact hno entry.1 (h.shares entry hentry share hshare)
  · simp only [List.any_eq_true, List.contains_eq_mem, decide_eq_true_eq, not_exists, not_and]
    exact fun strand hstrand hplace => hno _ (h.strands strand hstrand place hplace)

end Graph

end Pipework
