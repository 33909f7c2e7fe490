import Pipework.Proofs.Display
import Pipework.Proofs.ReferenceCycles

/-!
# What is looked up while nodes are repeated and values are handed on

Places and handles are found out in one step and used in a later one, so what makes a step find what
it looks up is what the steps in between keep. Edges stay where they are until a node is replaced,
they join nodes, and the scopes of a graph show its nodes. Where values are shared out there is one
for each repetition, as there are as many of each. And nothing is asked of the scopes that is not
there, whatever they are.
-/

namespace Pipework

namespace Step

variable {ε σ α β : Type} {P : ε → Prop} {s : σ}

/-- If the step fails when it starts in this state, then for such a reason. -/
def FailsAt (P : ε → Prop) (x : EStateM ε σ α) (s : σ) : Prop := ∀ e s', x s = .error e s' → P e

/-- What a step fails for anywhere it fails for here. -/
theorem FailsFor.here {x : EStateM ε σ α} (h : FailsFor P x) : FailsAt P x s := h s

/-- A step that comes to an end here does not fail here. -/
theorem failsAt_of_ok {x : EStateM ε σ α} (h : ∃ a s', x s = .ok a s') : FailsAt P x s := by
  obtain ⟨a, s', h⟩ := h
  intro e t he
  rw [h] at he
  cases he

/-- What comes second starts only where the first part comes to an end. -/
theorem FailsAt.bind {x : EStateM ε σ α} {f : α → EStateM ε σ β} (hx : FailsAt P x s)
    (hf : ∀ a t, x s = .ok a t → FailsAt P (f a) t) : FailsAt P (x >>= f) s := by
  intro e s' h
  rcases bind_eq_error.mp h with h | ⟨a, t, ha, h⟩
  · exact hx e s' h
  · exact hf a t ha e s' h

/-- To look at the state first changes nothing about what a step fails for. -/
theorem FailsAt.get_bind {f : σ → EStateM ε σ β} (h : FailsAt P (f s) s) :
    FailsAt P (get >>= f) s := h

section Preorder

variable {R : σ → σ → Prop} [Std.Refl R] [IsTrans σ R]

/-- A step that is taken for all elements of a list fails for what it fails for at one of them, wherever
the steps before have led. -/
theorem FailsAt.forM {l : List α} {f : α → EStateM ε σ PUnit} (hf : ∀ a ∈ l, Moves R (f a))
    (h : ∀ a ∈ l, ∀ t, R s t → FailsAt P (f a) t) : FailsAt P (l.forM f) s := by
  intro e s' he
  obtain ⟨a, ha, t, ht, hfail⟩ := exists_of_forM_error hf he
  exact h a ha t ht e s' hfail

/-- A step with a result for each element fails for what it fails for at one of them, wherever the steps
before have led. -/
theorem FailsAt.mapM {l : List α} {f : α → EStateM ε σ β} (hf : ∀ a ∈ l, Moves R (f a))
    (h : ∀ a ∈ l, ∀ t, R s t → FailsAt P (f a) t) : FailsAt P (l.mapM f) s := by
  induction l generalizing s with
  | nil => exact FailsFor.pure _ s
  | cons a l ih =>
    rw [List.mapM_cons]
    refine (h a List.mem_cons_self s (refl_of R s)).bind fun b t ha => ?_
    have hst : R s t := (hf a List.mem_cons_self).of_ok ha
    refine (ih (fun c hc => hf c (List.mem_cons_of_mem a hc)) fun c hc t' ht => ?_).bind
      fun _ _ _ => FailsFor.pure _ _
    exact h c (List.mem_cons_of_mem a hc) t' (trans_of R hst ht)

/-- A step that goes on from its last result fails for what it fails for at one of the elements. -/
theorem FailsAt.foldlM {l : List α} {f : β → α → EStateM ε σ β}
    (hf : ∀ b, ∀ a ∈ l, Moves R (f b a)) (h : ∀ b, ∀ a ∈ l, ∀ t, R s t → FailsAt P (f b a) t)
    (b : β) : FailsAt P (l.foldlM f b) s := by
  induction l generalizing s b with
  | nil => exact FailsFor.pure _ s
  | cons a l ih =>
    rw [List.foldlM_cons]
    refine (h b a List.mem_cons_self s (refl_of R s)).bind fun c t ha => ?_
    have hst : R s t := (hf b a List.mem_cons_self).of_ok ha
    refine ih (fun d e he => hf d e (List.mem_cons_of_mem a he)) (fun d e he t' ht => ?_) c
    exact h d e (List.mem_cons_of_mem a he) t' (trans_of R hst ht)

end Preorder

end Step

open Step

/-! ### Scopes -/

namespace Resolve

/-- Following a reference asks for no scope, place or part that is not there. -/
theorem failsFor_fromScope (f : Forest) (start : ScopeId) (path : List String) :
    FailsFor (· ≠ .dangling) (fromScope f start path) := by
  rw [fromScope, follow]
  cases f.lookup? start path with
  | none => exact .throw (by simp)
  | some found =>
    refine FailsFor.bind ?_ fun v => failsFor_ofExcept fun e he => ?_
    · exact (failsFor_scopeValueWithin rfl List.nodup_nil (by simp) _).mono fun _ h => h.1
    · obtain ⟨segment, -, rfl, -⟩ := FileField.derive_eq_error he
      simp

/-- Whatever is asked of a scope, it is there where a reference leads. -/
theorem failsFor_action (query : Query) (f : Forest) :
    FailsFor (· ≠ .dangling) (query.action f) := by
  cases query with
  | evaluate id text => exact failsFor_evaluate (by simp) fun path _ => failsFor_fromScope f id path
  | resolve id value =>
    exact failsFor_value (by simp) value fun path _ => failsFor_fromScope f id path
  | resolveAt id =>
    exact (failsFor_scopeValueWithin rfl List.nodup_nil (by simp) _).mono fun _ h => h.1

end Resolve

namespace ScopeTree

/-- Whatever is found out about values, all that is looked up is there. -/
theorem failsFor_query (query : Query) : FailsFor (· ≠ .dangling) query.run := by
  rw [query.run_eq]
  intro tree e tree' h
  obtain ⟨memo, h, -⟩ := resolving_eq_error.mp h
  exact Resolve.failsFor_action query tree.forest tree.memo e memo h

/-- A scope that the forest has is found. -/
theorem failsAt_scopeAt {id : ScopeId} {tree : ScopeTree} (hid : id < tree.forest.size) :
    FailsAt (· ≠ .dangling) (scopeAt id) tree := by
  obtain ⟨scope, hscope⟩ := Option.isSome_iff_exists.mp (Forest.lt_size.mp hid)
  exact failsAt_of_ok ⟨scope, tree, scopeAt_eq_ok.mpr ⟨hscope, rfl⟩⟩

/-- Adding a scope to one that there is looks up nothing that is not there. -/
theorem failsAt_createChild {parent : ScopeId} {name : String} {tree : ScopeTree}
    (hp : parent < tree.forest.size) : FailsAt (· ≠ .dangling) (createChild parent name) tree := by
  refine (failsAt_scopeAt hp).bind fun scope t _ => FailsAt.get_bind ?_
  dsimp only
  split
  · exact FailsFor.throw (by simp) t
  · split
    · exact FailsFor.throw (by simp) t
    · exact (FailsFor.modify _).bind (fun _ => .pure _) t

/-- Storing a value in a scope that there is looks up nothing that is not there. -/
theorem failsAt_store {id : ScopeId} {value : Value} {binding? : Option Binding} {tree : ScopeTree}
    (hid : id < tree.forest.size) : FailsAt (· ≠ .dangling) (store id value binding?) tree := by
  refine (failsAt_scopeAt hid).bind fun scope t _ => FailsAt.get_bind ?_
  dsimp only
  split
  · exact FailsFor.throw (by simp) t
  · exact (FailsFor.modify _).bind (fun _ => .modify _) t

/-- A value may be put into any scope that there is. -/
theorem failsAt_put {parent : ScopeId} {name : String} {value : Value} {tree : ScopeTree}
    (hs : tree.forest.Shapely) (hp : parent < tree.forest.size) :
    FailsAt (· ≠ .dangling) (put parent name value) tree := by
  refine FailsAt.get_bind ?_
  cases hchild : tree.forest.child? parent name with
  | some id =>
    refine FailsAt.bind (FailsFor.pure id tree) fun _ _ hid => ?_
    obtain ⟨rfl, rfl⟩ := pure_eq_ok.mp hid
    have hlt := hs.lt_size (Forest.mem_of_child? hchild).1
    exact (failsAt_store hlt).bind fun _ _ _ => FailsFor.pure _ _
  | none =>
    refine (failsAt_createChild hp).bind fun id t hid => ?_
    obtain ⟨tree', hstore⟩ := exists_store_of_createChild hid value
    exact (failsAt_of_ok ⟨(), tree', hstore⟩).bind fun _ _ _ => FailsFor.pure _ _

end ScopeTree

/-- Something that had to be there was not found. -/
def GraphError.IsDangling (error : GraphError) : Prop :=
  error = .dangling ∨ error = .scope .dangling

instance (error : GraphError) : Decidable error.IsDangling :=
  inferInstanceAs (Decidable (error = .dangling ∨ error = .scope .dangling))

namespace Graph

/-- In this graph the step finds what it looks up. -/
abbrev FindsIn {α : Type} (x : GraphM α) (g : Graph) : Prop :=
  FailsAt (¬ GraphError.IsDangling ·) x g

/-- In any graph the step finds what it looks up. -/
abbrev Finds {α : Type} (x : GraphM α) : Prop := FailsFor (¬ GraphError.IsDangling ·) x

/-- A step on the tree finds what it looks up in the graph if it does so in the tree. -/
theorem findsIn_onScope {α : Type} {action : ScopeM α} {g : Graph}
    (h : FailsAt (· ≠ .dangling) action g.scope) : FindsIn (onScope action) g := by
  intro e g' hrun
  rw [onScope] at hrun
  cases haction : action g.scope with
  | ok a scope => simp [haction] at hrun
  | error cause scope =>
    rw [haction] at hrun
    obtain ⟨rfl, -⟩ := EStateM.Result.error.inj hrun
    have hcause := h cause scope haction
    simp [GraphError.IsDangling, hcause]

/-- What is there is found. -/
theorem finds_ofOption {α : Type} {x : Option α} (h : x.isSome) : Finds (ofOption x) := by
  obtain ⟨a, rfl⟩ := Option.isSome_iff_exists.mp h
  exact .pure a

/-- A node is found under its handle. -/
theorem findsIn_nodeAt {id : NodeId} {g : Graph} (h : id ∈ g.nodes.map (·.id)) :
    FindsIn (nodeAt id) g := by
  refine FailsAt.get_bind (finds_ofOption ?_).here
  obtain ⟨node, hn, rfl⟩ := List.mem_map.mp h
  exact List.find?_isSome.mpr ⟨node, hn, by simp⟩

/-- An edge is found at its place. -/
theorem findsIn_edgeAt {place : Nat} {g : Graph} (h : place < g.edges.length) :
    FindsIn (edgeAt place) g :=
  FailsAt.get_bind (finds_ofOption (by simpa using h)).here

/-- Whatever keeps a scope from being resolved, it is not that something is missing. -/
theorem finds_resolveAt (id : ScopeId) :
    FailsFor (fun e => ¬ (GraphError.scope e).IsDangling) (ScopeTree.resolveAt id) :=
  (ScopeTree.failsFor_query (.resolveAt id)).mono fun e he => by simpa [GraphError.IsDangling] using he

/-- Reading a value of a node finds all scopes that references lead to. -/
theorem finds_propertyValue (id : NodeId) (key : String) : Finds (propertyValue id key) :=
  failsFor_propertyValue finds_resolveAt id key

/-- Reading all values under a name finds all scopes that references lead to. -/
theorem finds_configuration (name : String) : Finds (configuration name) :=
  failsFor_configuration finds_resolveAt (by simp [GraphError.IsDangling])

/-- Putting nodes in order looks up nothing that is not there. -/
theorem finds_topologicalOrder (g : Graph) : Finds (ofExcept g.topologicalOrder) :=
  failsFor_topologicalOrder (by simp [GraphError.IsDangling]) g

/-- Where the scopes of a graph show its nodes, a node may be given a value. -/
theorem findsIn_setNodeValue {g : Graph} (h : g.Attuned) (id : NodeId) (key : String)
    (value : Value) : FindsIn (setNodeValue id key value) g := by
  obtain ⟨g', hset, -⟩ := setNodeValue_spec h.mirrored id key value
  exact failsAt_of_ok ⟨(), g', hset⟩

/-- And a node may be added. -/
theorem findsIn_addNode {g : Graph} (h : g.Attuned) (node : Node) : FindsIn (addNode node) g := by
  intro e g' hadd
  have hroot : FailsAt (· ≠ .dangling) (ScopeTree.createChild Forest.root node.name) g.scope :=
    ScopeTree.failsAt_createChild h.shapely.rooted
  exact findsIn_onScope hroot e g' (createChild_of_addNode h.mirrored.sound hadd)

/-! ### What a node is repeated for -/

/-- A test is passed by edges that there are. -/
theorem lt_of_mem_placesWhere {g : Graph} {test : Edge → Bool} {place : Nat}
    (h : place ∈ g.placesWhere test) : place < g.edges.length := by
  obtain ⟨edge, hedge, -⟩ := mem_placesWhere.mp h
  exact (List.getElem?_eq_some_iff.mp hedge).1

/-- Edges that are kept are as many as before. -/
theorem EdgesKept.length_eq {edges edges' : List Edge} (h : EdgesKept edges edges') :
    edges'.length = edges.length := by
  have hiff : ∀ place : Nat, edges[place]? = none ↔ edges'[place]? = none := fun place => by
    have hrel := h place
    generalize edges[place]? = a, edges'[place]? = b at hrel
    cases hrel <;> simp
  simp only [List.getElem?_eq_none_iff] at hiff
  exact Nat.le_antisymm ((hiff _).mp le_rfl) ((hiff _).mpr le_rfl)

/-- Looking at an edge that there is finds the edge and the nodes that it joins. -/
theorem findsIn_addDriver {g : Graph} (hw : g.WellFormed) {place : Nat}
    (hplace : place < g.edges.length) (plan : Drivers) : FindsIn (addDriver plan place) g := by
  refine (findsIn_edgeAt hplace).bind fun edge t hat => ?_
  obtain ⟨hedge, rfl⟩ := edgeAt_eq_ok.mp hat
  cases hk : edge.kind with
  | after => exact FailsFor.pure _ g
  | data link =>
    cases hcard : link.cardinality with
    | manyToOne =>
      simp only [hcard]
      refine (finds_propertyValue _ _).here.bind fun current t _ => ?_
      split
      · exact (FailsFor.modify _).bind (fun _ => .pure _) t
      · exact FailsFor.pure _ t
    | oneToOne =>
      simp only [hcard]
      have hsource := (hw.closed edge (List.mem_of_getElem? hedge)).1
      exact (findsIn_nodeAt hsource).bind fun _ _ _ => FailsFor.pure _ _
    | oneToMany =>
      simp only [hcard]
      exact FailsFor.pure _ g
    | manyToMany =>
      simp only [hcard]
      exact FailsFor.pure _ g

/-- It can be found out of every node what it is repeated for. -/
theorem findsIn_drivers {g : Graph} (hw : g.WellFormed) {id : NodeId}
    (hid : id ∈ g.nodes.map (·.id)) : FindsIn (drivers id) g := by
  have hmoves : ∀ found, ∀ place ∈ g.incoming id, Moves Plans (addDriver found place) :=
    fun found place _ => moves_addDriver found place
  refine FailsAt.get_bind (FailsAt.bind ?_ fun found t hfold => ?_)
  · refine FailsAt.foldlM hmoves (fun found place hplace t ht => ?_) _
    have hlt := lt_of_mem_placesWhere hplace
    rw [← ht.retains.edges.length_eq] at hlt
    exact findsIn_addDriver (ht.retains.wellFormed hw) hlt found
  · have hsame := (Moves.foldlM hmoves _).of_ok hfold
    rw [← hsame.retains.ids] at hid
    refine (findsIn_nodeAt hid).bind fun node t' _ => ?_
    exact (failsFor_listDrivers finds_resolveAt _ _ _).bind (fun _ => .pure _) t'

/-- What is found to be shared out, and along which edges it comes, is there: the edges that bring
values, and where so many values are brought, one of each for each of so many places. -/
structure Supplies (plan : Drivers) (count : Nat) (g : Graph) : Prop where
  /-- There is an element for each place. -/
  shares : ∀ entry ∈ plan.shares, entry.2.length = count
  /-- There is an element for each place where lists are shared out. -/
  lists : ∀ entry ∈ plan.lists, entry.2.length = count
  /-- There is an edge for each place. -/
  strands : ∀ strand ∈ plan.strands, strand.edges.length = count
  /-- Elements come along edges that there are. -/
  carried : ∀ entry ∈ plan.shares, ∀ share ∈ entry.2, share.edge < g.edges.length
  /-- So do those of a strand. -/
  edges : ∀ strand ∈ plan.strands, ∀ place ∈ strand.edges, place < g.edges.length

/-- A plan goes on supplying all repetitions as long as edges stay where they are. -/
theorem Supplies.of_edges {plan : Drivers} {count : Nat} {g g' : Graph} (h : Supplies plan count g)
    (hedges : g'.edges.length = g.edges.length) : Supplies plan count g' :=
  ⟨h.shares, h.lists, h.strands, hedges ▸ h.carried, hedges ▸ h.edges⟩

/-- So many values are brought as all agree on. -/
theorem supplies_of_drivers {g t : Graph} {id : NodeId} {plan : Drivers} {job : String} {count : Nat}
    (h : drivers id g = .ok plan t) (hsize : plan.size? job = .ok (some count)) :
    Supplies plan count t := by
  have hcount := length_of_size? hsize
  have htraced := traced_of_drivers h
  have hlength := ((moves_drivers id).of_ok h).retains.edges.length_eq
  have hlt : ∀ {key place}, Feeds g.edges id key place → place < t.edges.length := by
    rintro key place ⟨edge, hedge, -⟩
    rw [hlength]
    exact (List.getElem?_eq_some_iff.mp hedge).1
  constructor
  · exact fun entry he => hcount (entry.1, entry.2.length) (List.mem_append_left _
      (List.mem_append_left _ (List.mem_map_of_mem he)))
  · exact fun entry he => hcount (entry.1, entry.2.length) (List.mem_append_left _
      (List.mem_append_right _ (List.mem_map_of_mem he)))
  · exact fun strand hs => hcount (strand.property, strand.edges.length)
      (List.mem_append_right _ (List.mem_map_of_mem hs))
  · exact fun entry he share hs => hlt (htraced.shares entry he share hs)
  · exact fun strand hs place hp => hlt (htraced.strands strand hs place hp)

/-! ### Repeating a node -/

section Supplied

variable {plan : Drivers} {count : Nat} {g : Graph} (hs : Supplies plan count g)

include hs

/-- A node that is brought one value of each finds it. -/
theorem findsIn_collapse (hg : g.Attuned) (hone : count = 1) (id : NodeId) :
    FindsIn (collapse id plan) g := by
  have hnarrow : Moves (Keeps Attuned) (plan.shares.forM fun entry => entry.2.forM narrowEdge) :=
    .forM fun _ _ => .forM fun share _ => (moves_narrowEdge share).mono covers_attuned.plan
  refine FailsAt.bind (FailsFor.forM fun _ _ => .forM fun _ _ => .modify _).here fun _ t hshares => ?_
  have ht : t.Attuned := hnarrow.of_ok hshares hg
  refine FailsAt.forM (R := Keeps Attuned) (fun entry _ => ?_) fun entry he t' ht' => ?_
  · exact (moves_ofOption _).bind fun item => covers_attuned.setNodeValue id entry.1 item
  · have hfirst : entry.2[0]?.isSome := by simp [hs.lists entry he, hone]
    refine (finds_ofOption hfirst).here.bind fun item _ hat => ?_
    obtain ⟨-, rfl⟩ := ofOption_eq_ok.mp hat
    exact findsIn_setNodeValue (ht' ht) id entry.1 item

variable {place : Nat} (hplace : place < count)

include hplace

/-- Each repetition finds its share of what is shared out. -/
theorem finds_shareOut (node : Node) : Finds (shareOut node plan place) := by
  refine FailsFor.bind (.foldlM (fun _ entry he => ?_) _) fun _ => .foldlM (fun _ entry he => ?_) _
  · have hitem : entry.2[place]?.isSome := by simp [hs.lists entry he, hplace]
    exact (finds_ofOption hitem).bind fun _ => .pure _
  · have hshare : entry.2[place]?.isSome := by simp [hs.shares entry he, hplace]
    exact (finds_ofOption hshare).bind fun _ => .pure _

/-- Each repetition finds the edges that bring it its shares. -/
theorem finds_shareEdges (replica : NodeId) : Finds (shareEdges plan place replica) := by
  refine .mapM fun entry he => ?_
  have hshare : entry.2[place]?.isSome := by simp [hs.shares entry he, hplace]
  exact (finds_ofOption hshare).bind fun _ => .pure _

/-- Each repetition finds its edge of each strand. -/
theorem findsIn_strandEdges (replica : NodeId) : FindsIn (strandEdges plan place replica) g := by
  have hmoves : ∀ strand ∈ plan.strands, Moves SameButMemo (do
      let edge ← edgeAt (← ofOption strand.edges[place]?)
      return { edge with target := replica } : GraphM Edge) := fun strand _ =>
    (moves_ofOption _).bind fun _ => (moves_edgeAt _).bind fun _ => .pure _
  refine FailsAt.mapM hmoves fun strand hstrand t ht => ?_
  have hfound : strand.edges[place]?.isSome := by simp [hs.strands strand hstrand, hplace]
  refine (finds_ofOption hfound).here.bind fun found _ hat => ?_
  obtain ⟨hfound, rfl⟩ := ofOption_eq_ok.mp hat
  have hlt := hs.edges strand hstrand found (List.mem_of_getElem? hfound)
  rw [← ht.edges] at hlt
  exact (findsIn_edgeAt hlt).bind fun _ _ _ => FailsFor.pure _ _

end Supplied

/-- The edges to the node that stay with all repetitions are found. -/
theorem findsIn_keptEdges {g : Graph} {incoming : List Nat}
    (hin : ∀ place ∈ incoming, place < g.edges.length) (plan : Drivers) (replica : NodeId) :
    FindsIn (keptEdges plan incoming replica) g := by
  refine FailsAt.mapM (R := SameButMemo) (fun place _ => (moves_edgeAt _).bind fun _ => .pure _)
    fun place hplace t ht => ?_
  have hlt := hin place (List.mem_of_mem_filter hplace)
  rw [← ht.edges] at hlt
  exact (findsIn_edgeAt hlt).bind fun _ _ _ => FailsFor.pure _ _

/-- The edges from the node are found. -/
theorem findsIn_outgoingEdges {g : Graph} {outgoing : List Nat}
    (hout : ∀ place ∈ outgoing, place < g.edges.length) (replica : NodeId) :
    FindsIn (outgoingEdges outgoing replica) g := by
  refine FailsAt.mapM (R := SameButMemo) (fun place _ => moves_outgoingEdge replica place)
    fun place hplace t ht => ?_
  have hlt := hout place hplace
  rw [← ht.edges] at hlt
  refine (findsIn_edgeAt hlt).bind fun edge t' _ => ?_
  cases edge.kind with
  | after => exact FailsFor.pure _ t'
  | data link => exact (finds_propertyValue _ _).bind (fun _ => .pure _) t'

/-- All edges of the repetitions are found, whatever the place of the first of them. -/
theorem findsIn_replicaEdges {node : Node} {plan : Drivers} {serial : Bool}
    {incoming outgoing : List Nat} {count : Nat} {g : Graph} (hs : Supplies plan count g)
    (hin : ∀ place ∈ incoming, place < g.edges.length)
    (hout : ∀ place ∈ outgoing, place < g.edges.length) {place : Nat} {previous? : Option NodeId}
    {replicas : List NodeId} (hcount : place + replicas.length ≤ count) :
    FindsIn (replicaEdges node plan serial incoming outgoing place previous? replicas) g := by
  induction replicas generalizing g place previous? with
  | nil => exact FailsFor.pure _ g
  | cons replica replicas ih =>
    rw [List.length_cons] at hcount
    have hplace : place < count := by omega
    -- None of this changes what edges there are.
    have hsame : ∀ {t : Graph}, SameButMemo g t → Supplies plan count t ∧
        (∀ place ∈ incoming, place < t.edges.length) ∧
        ∀ place ∈ outgoing, place < t.edges.length := fun {t} ht => by
      rw [ht.edges]
      exact ⟨hs.of_edges (congrArg List.length ht.edges), hin, hout⟩
    rw [replicaEdges_cons]
    refine FailsAt.bind ?_ fun own t hown => ?_
    · refine (finds_shareEdges hs hplace replica).here.bind fun _ t₁ h₁ => ?_
      have h₁ := (moves_shareEdges _ _ _).of_ok h₁
      refine (findsIn_strandEdges (hsame h₁).1 hplace replica).bind fun _ t₂ h₂ => ?_
      have h₂ := trans_of SameButMemo h₁ ((moves_strandEdges _ _ _).of_ok h₂)
      refine (findsIn_keptEdges (hsame h₂).2.1 plan replica).bind fun _ t₃ h₃ => ?_
      have h₃ := trans_of SameButMemo h₂ ((moves_keptEdges _ _ _).of_ok h₃)
      refine (findsIn_outgoingEdges (hsame h₃).2.2 replica).bind fun _ t₄ _ => ?_
      exact (failsFor_chainEdges finds_resolveAt _ _ _ _).bind (fun _ => .pure _) t₄
    · obtain ⟨hs, hin, hout⟩ := hsame ((moves_ownEdges _ _ _ _ _ _ _ _).of_ok hown)
      exact (ih hs hin hout (by omega)).bind fun _ _ _ => FailsFor.pure _ _

/-- The repetitions that are given files of their own are found. -/
theorem findsIn_separateOutputs {g : Graph} (hg : g.Attuned) (node : Node) (plan : Drivers)
    (serial : Bool) (replicas : List NodeId) :
    FindsIn (separateOutputs node plan serial replicas) g := by
  refine FailsAt.forM (R := Keeps Attuned) (fun p _ => ?_) fun p _ t ht => ?_
  · exact moves_separateOutput covers_attuned.read serial fun _ _ _ => covers_attuned.setNodeValue _ _ _
  have hread : Moves (Keeps Attuned) (replicas.mapM fun replica => propertyValue replica p.name) :=
    .mapM fun _ _ => (moves_propertyValue _ _).mono covers_attuned.read
  refine FailsAt.bind (FailsFor.mapM fun replica _ => finds_propertyValue replica p.name).here
    fun values t' hvalues => ?_
  have ht' : t'.Attuned := hread.of_ok hvalues (ht hg)
  dsimp only
  split
  · exact FailsFor.pure _ t'
  refine FailsAt.forM (R := Keeps Attuned) (fun entry _ => ?_) fun entry _ t'' ht'' => ?_
  · split
    · exact covers_attuned.setNodeValue _ _ _
    · exact .pure _
  · split
    · exact findsIn_setNodeValue (ht'' ht') _ _ _
    · exact FailsFor.pure _ t''

/-- A node may be replaced by as many repetitions as there are values of each. -/
theorem findsIn_replicate {g : Graph} (hg : g.Attuned) {node : Node} {plan : Drivers} {count : Nat}
    (hs : Supplies plan count g) : FindsIn (replicate node plan count) g := by
  have hserial : Finds (ofExcept (isSerial node)) :=
    failsFor_isSerial node (by simp [GraphError.IsDangling])
  refine FailsAt.bind hserial.here fun serial t hat => ?_
  obtain ⟨-, rfl⟩ := ofExcept_eq_ok.mp hat
  have hadd : ∀ place ∈ List.range count,
      Moves (Keeps Attuned) (addReplica node plan serial place) := fun place _ =>
    ((moves_shareOut node plan place).mono covers_attuned.read).bind fun _ => covers_attuned.addNode _
  refine FailsAt.bind (FailsAt.mapM hadd fun place hplace t ht => ?_) fun replicas t₁ hreplicas => ?_
  · refine (finds_shareOut hs (List.mem_range.mp hplace) node).here.bind fun overrides t' hshare => ?_
    exact findsIn_addNode (covers_attuned.read _ _ ((moves_shareOut _ _ _).of_ok hshare) (ht hg)) _
  have hg₁ : t₁.Attuned := (Moves.mapM hadd).of_ok hreplicas hg
  obtain ⟨added, ⟨-, scope, hextends⟩, rfl, hall⟩ := extends_of_addReplicas hreplicas
  refine (findsIn_separateOutputs hg₁ node plan serial _).bind fun _ t₂ houtputs => ?_
  have hsame : SameOutline t₁ t₂ := (moves_separateOutputs (fun _ _ h => h.sameOutline) plan serial
    fun _ _ _ _ _ _ _ _ => moves_setNodeValue _ _ _).of_ok houtputs
  have hedges : t₂.edges = g.edges := by rw [hsame.edges, hextends]
  refine FailsAt.get_bind (FailsAt.bind ?_ fun edges t₃ _ => FailsFor.modify _ t₃)
  refine findsIn_replicaEdges (hs.of_edges (congrArg List.length hedges))
    (fun _ hp => lt_of_mem_placesWhere hp) (fun _ hp => lt_of_mem_placesWhere hp) ?_
  rw [List.length_map, ← hall.length_eq, List.length_range, Nat.zero_add]

/-- When a node has its turn it finds what it looks up. -/
theorem findsIn_splitNode {g : Graph} (hw : g.WellFormed) (hg : g.Attuned) (id : NodeId) :
    FindsIn (splitNode id) g := by
  refine FailsAt.get_bind ?_
  cases hnode : g.node? id with
  | none => exact FailsFor.pure _ g
  | some node =>
    obtain ⟨hn, rfl⟩ := id_of_node? hnode
    refine (findsIn_drivers hw (List.mem_map_of_mem hn)).bind fun plan t hplan => ?_
    have ht : t.Attuned := covers_attuned.plan _ _ ((moves_drivers _).of_ok hplan) hg
    have hfinds : Finds (ofExcept (plan.size? node.name)) :=
      failsFor_size? plan node.name (by simp [GraphError.IsDangling])
    refine hfinds.here.bind fun size? _ hat => ?_
    obtain ⟨hsize, rfl⟩ := ofExcept_eq_ok.mp hat
    split
    · exact FailsFor.pure _ _
    · exact findsIn_collapse (supplies_of_drivers hplan hsize) ht rfl _
    · exact findsIn_replicate ht (supplies_of_drivers hplan hsize)

/-- Repeating all nodes, one after the other, finds what it looks up. -/
theorem findsIn_split {g : Graph} (hw : g.WellFormed) (hg : g.Attuned) : FindsIn split g := by
  refine FailsAt.get_bind ((finds_topologicalOrder g).here.bind fun order t hat => ?_)
  obtain ⟨horder, rfl⟩ := ofExcept_eq_ok.mp hat
  refine FailsAt.forM (R := Keeps fun t => t.Sturdy ∧ t.Attuned) (fun node _ t ht => ?_)
    fun node _ t ht => ?_
  · exact ⟨keeps_splitNode node.id t ht.1, covers_attuned.moves_splitNode node.id t ht.2⟩
  · obtain ⟨hsturdy, hg⟩ := ht ⟨sturdy_of_topologicalOrder hw horder, hg⟩
    exact findsIn_splitNode hsturdy.wellFormed hg node.id

end Graph

/-! ### Handing on values -/

namespace Merge

variable {value : Value} {property : String} {names : List String} {e : ScopeError}

/-- Taking parts of a value looks up no scope. -/
theorem derive_ne_dangling {fields : List String} {reference : String} :
    FileField.derive value fields reference ≠ .error .dangling := by
  intro h
  obtain ⟨segment, -, h, -⟩ := FileField.derive_eq_error h
  cases h

/-- Filling in a reference looks up no scope. -/
theorem fillToken_ne_dangling {token : Token} :
    fillToken value property names token ≠ .error .dangling := by
  intro h
  cases token with
  | literal text => cases h
  | reference path =>
    rw [fillToken] at h
    split at h
    · rcases except_bind_eq_error.mp h with h | ⟨_, -, h⟩
      · exact derive_ne_dangling h
      · cases h
    · cases h

/-- Putting a value into a text takes no part of a path that is not there. -/
theorem substitute_ne_dangling {raw : String} :
    substitute raw value property names ≠ .error .dangling := by
  intro h
  rw [substitute] at h
  split at h
  · split at h
    · exact derive_ne_dangling h
    · cases h
  · split at h
    · cases h
    · rcases except_bind_eq_error.mp h with h | ⟨_, -, h⟩
      · obtain ⟨token, -, h⟩ := exists_of_mapM_eq_error h
        exact fillToken_ne_dangling h
      · cases h

/-- Neither does adding it to a list. -/
theorem incoming_ne_dangling {declared? : Option Value} :
    incoming declared? value property names ≠ .error .dangling := by
  intro h
  rw [incoming] at h
  split at h
  · cases h
  · obtain ⟨place, -, h⟩ := exists_of_mapM_eq_error h
    exact derive_ne_dangling h

/-- Merging a value into another one looks up no scope. -/
theorem not_isDangling_of_merge {kind : EdgeKind} {target : String}
    {existing? declared? : Option Value} {e : GraphError}
    (h : merge kind target existing? declared? value names = .error e) : ¬ e.IsDangling := by
  have hlift : ∀ {x : Except ScopeError Value}, x ≠ .error .dangling →
      (do return some (← lift x) : Except GraphError (Option Value)) = .error e →
        ¬ e.IsDangling := by
    intro x hx he
    cases x with
    | ok value => cases he
    | error cause =>
      cases he
      simpa [GraphError.IsDangling] using hx
  have hgather : ∀ {link keep}, gather link existing? declared? value names keep ≠ .error .dangling := by
    intro link keep h
    rcases except_bind_eq_error.mp h with h | ⟨added, -, h⟩
    · exact incoming_ne_dangling h
    · cases h
  cases kind with
  | after => cases h
  | data link =>
    simp only [merge] at h
    split at h
    · refine hlift (fun hfill => ?_) h
      unfold fill at hfill
      split at hfill
      · exact substitute_ne_dangling hfill
      · cases hfill
    · exact hlift hgather h
    · exact hlift hgather h
    · cases h
      simp [GraphError.IsDangling]

end Merge

namespace Graph

/-- The value of an edge may be handed on. -/
theorem findsIn_applyEdge {g : Graph} (hw : g.WellFormed) (hg : g.Attuned) {place : Nat}
    (hplace : place < g.edges.length) : FindsIn (applyEdge place) g := by
  refine (findsIn_edgeAt hplace).bind fun edge _ hat => ?_
  obtain ⟨hedge, rfl⟩ := edgeAt_eq_ok.mp hat
  obtain ⟨hsource, htarget⟩ := hw.closed edge (List.mem_of_getElem? hedge)
  cases hk : edge.kind with
  | after => exact FailsFor.pure _ g
  | data link =>
    simp only
    refine (finds_propertyValue _ _).here.bind fun current t hcurrent => ?_
    have hsame := (moves_propertyValue _ _).of_ok hcurrent
    have hids := hsame.sameOutline.ids
    refine (findsIn_nodeAt (hids ▸ hsource)).bind fun source _ hat => ?_
    obtain ⟨-, rfl⟩ := nodeAt_eq_ok.mp hat
    refine (findsIn_nodeAt (hids ▸ htarget)).bind fun target _ hat => ?_
    obtain ⟨-, rfl⟩ := nodeAt_eq_ok.mp hat
    refine (failsFor_ofExcept fun e he => Merge.not_isDangling_of_merge he).here.bind
      fun merged _ hat => ?_
    obtain ⟨-, rfl⟩ := ofExcept_eq_ok.mp hat
    cases merged with
    | none => exact FailsFor.pure _ _
    | some value => exact findsIn_setNodeValue (covers_attuned.read _ _ hsame hg) _ _ value

/-- Handing on values along all edges finds what it looks up. -/
theorem findsIn_configure {g : Graph} (hw : g.WellFormed) (hg : g.Attuned) : FindsIn configure g := by
  refine FailsAt.get_bind ((finds_topologicalOrder g).here.bind fun order t hat => ?_)
  obtain ⟨-, rfl⟩ := ofExcept_eq_ok.mp hat
  refine FailsAt.forM (R := Keeps fun t => SameOutline g t ∧ t.Attuned) (fun place _ t ht => ?_)
    fun place hplace t ht => ?_
  · have hsame : SameOutline t (left (applyEdge place t)) :=
      Graph.moves_applyEdge (fun _ _ h => h.sameOutline) moves_setNodeValue place t
    exact ⟨trans_of SameOutline ht.1 hsame, covers_attuned.moves_applyEdge place t ht.2⟩
  · obtain ⟨hsame, ht⟩ := ht ⟨refl_of SameOutline g, hg⟩
    obtain ⟨node, -, hplace⟩ := List.mem_flatMap.mp hplace
    have hlt := lt_of_mem_placesWhere hplace
    rw [← hsame.edges] at hlt
    exact findsIn_applyEdge (hsame.wellFormed hw) ht hlt

end Graph

end Pipework
