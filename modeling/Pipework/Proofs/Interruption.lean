import Pipework.Proofs.Circles

/-!
# Preparations that are cut short

A preparation may fail between any two of its steps, and what was done stays done. A node that is
to be replaced is taken out last, when nothing can fail any more. So if replacing it fails there are
at most some nodes more, and edges join the same nodes as before. Handles therefore go on fitting
together, wherever a preparation ends.
-/

namespace Pipework

namespace Step

variable {ε σ α β : Type} {R : σ → σ → Prop}

/-- Wherever it starts, if the step fails it does so in a related state. -/
def FailsWithin (R : σ → σ → Prop) (x : EStateM ε σ α) : Prop :=
  ∀ s e s', x s = .error e s' → R s s'

/-- A step that always moves the state does so when it fails. -/
theorem Moves.failsWithin {x : EStateM ε σ α} (h : Moves R x) : FailsWithin R x := by
  intro s e s' hx
  have hr := h s
  rwa [hx] at hr

/-- If only the last part may end elsewhere when it comes to an end, failures stay within. -/
theorem FailsWithin.bind [IsTrans σ R] {x : EStateM ε σ α} {f : α → EStateM ε σ β}
    (hx : Moves R x) (hf : ∀ a, FailsWithin R (f a)) : FailsWithin R (x >>= f) := by
  intro s e s' h
  rcases bind_eq_error.mp h with h | ⟨a, t, ha, h⟩
  · exact hx.failsWithin s e s' h
  · exact trans_of R (hx.of_ok ha) (hf a t e s' h)

theorem FailsWithin.modify (f : σ → σ) : FailsWithin R (modify f : EStateM ε σ PUnit) :=
  fun _ _ _ h => by cases h

/-- What comes second starts only where the first part comes to an end. -/
theorem Moves.bind_of_ok [IsTrans σ R] {x : EStateM ε σ α} {f : α → EStateM ε σ β}
    (hx : Moves R x) (hf : ∀ s a t, x s = .ok a t → R t (left (f a t))) : Moves R (x >>= f) := by
  intro s
  have hs := hx s
  change R s (left (EStateM.bind x f s))
  unfold EStateM.bind
  cases h : x s with
  | ok a t =>
    rw [h] at hs
    exact trans_of R hs (hf s a t h)
  | error e t =>
    rw [h] at hs
    exact hs

/-- What is read of a state has what is kept. -/
theorem Keeps.get_bind {P : σ → Prop} {f : σ → EStateM ε σ β}
    (hf : ∀ s, P s → Moves (Keeps P) (f s)) : Moves (Keeps P) (get >>= f) := fun s hs => hf s hs s hs

/-- What comes second starts only where the first part comes to an end, from a state that has what is
kept. -/
theorem Keeps.bind_of_ok {P : σ → Prop} {x : EStateM ε σ α} {f : α → EStateM ε σ β}
    (hx : Moves (Keeps P) x) (hf : ∀ s a t, P s → x s = .ok a t → P t → P (left (f a t))) :
    Moves (Keeps P) (x >>= f) := by
  intro s hs
  have ht := hx s hs
  change P (left (EStateM.bind x f s))
  unfold EStateM.bind
  cases h : x s with
  | ok a t =>
    rw [h] at ht
    exact hf s a t hs h ht
  | error e t =>
    rw [h] at ht
    exact ht

end Step

open Step

namespace Graph

/-- At most some nodes were added and edges hand on something else. -/
structure Enlarges (g g' : Graph) : Prop where
  /-- The edges stay. -/
  edges : EdgesKept g.edges g'.edges
  /-- Handles go on fitting together. -/
  wellFormed : g.WellFormed → g'.WellFormed

instance : Std.Refl Enlarges := ⟨fun g => ⟨refl_of EdgesKept g.edges, id⟩⟩

instance : IsTrans Graph Enlarges where
  trans _ _ _ h h' := ⟨trans_of EdgesKept h.edges h'.edges, h'.wellFormed ∘ h.wellFormed⟩

/-- Where edges and nodes are kept, handles go on fitting together. -/
theorem Retains.enlarges {g g' : Graph} (h : Retains g g') : Enlarges g g' :=
  ⟨h.edges, h.wellFormed⟩

/-- Edges that are kept make no circle. -/
theorem EdgesKept.acyclic {edges edges' : List Edge} (h : EdgesKept edges edges')
    (ha : Acyclic edges) : Acyclic edges' := fun v hr => ha v (h.reaches_iff.mp hr)

/-- Edges that are kept do not lead back to where they start. -/
theorem EdgesKept.loopless {edges edges' : List Edge} (h : EdgesKept edges edges')
    (hloop : ∀ edge ∈ edges, edge.source ≠ edge.target) :
    ∀ edge ∈ edges', edge.source ≠ edge.target := by
  intro edge' he'
  obtain ⟨edge, he, hs, ht, -⟩ := h.exists_edge he'
  rw [hs, ht]
  exact hloop edge he

/-- If a node is not added, only the scope tree may differ. -/
theorem failsWithin_addNode (node : Node) : FailsWithin SameButScope (addNode node) := by
  refine .bind (moves_onScope _) fun scope => .bind ?_ fun _ => .bind Moves.get fun _ => ?_
  · exact .forM fun entry _ => (moves_onScope _).bind fun _ => .pure _
  · exact fun _ _ _ h => by cases h

/-- Adding nodes keeps the edges and has handles fit together. -/
theorem Extends.enlarges {added : List Node} {g g' : Graph} (h : Extends added g g') :
    Enlarges g g' := by
  refine ⟨?_, h.wellFormed⟩
  obtain ⟨-, scope, rfl⟩ := h
  exact refl_of EdgesKept g.edges

/-- Adding a node, or failing to, keeps the edges and has handles fit together. -/
theorem enlarges_addNode (node : Node) : Moves Enlarges (addNode node) := by
  intro g
  cases h : addNode node g with
  | ok id g' =>
    obtain ⟨rfl, hid, scope, rfl⟩ := adds_of_addNode h
    have hadded : Extends [{ node with id := g.nextId }] g _ := ⟨rfl, scope, rfl⟩
    exact hadded.enlarges
  | error e g' => exact (failsWithin_addNode node g e g' h).sameOutline.retains.enlarges

/-- Adding a repetition, or failing to, keeps the edges and has handles fit together. -/
theorem enlarges_addReplica (node : Node) (drivers : Drivers) (serial : Bool) (place : Nat) :
    Moves Enlarges (addReplica node drivers serial place) :=
  ((moves_shareOut node drivers place).mono fun _ _ h => h.plans.retains.enlarges).bind fun _ =>
    enlarges_addNode _

/-- While a node is being repeated nothing is lost. -/
theorem failsWithin_replicate (node : Node) (drivers : Drivers) (count : Nat) :
    FailsWithin Enlarges (replicate node drivers count) := by
  have hread : ∀ g g', SameButMemo g g' → Enlarges g g' := fun _ _ h => h.plans.retains.enlarges
  have hset : ∀ id key value, Moves Enlarges (setNodeValue id key value) := fun id key value =>
    (moves_setNodeValue id key value).mono fun _ _ h => h.retains.enlarges
  refine .bind (moves_ofExcept _) fun serial => .bind ?_ fun replicas => ?_
  · exact .mapM fun place _ => enlarges_addReplica node drivers serial place
  refine .bind (moves_separateOutputs hread drivers serial fun _ _ _ _ _ _ _ _ => hset _ _ _)
    fun _ => .bind Moves.get fun graph => .bind ?_ fun edges => .modify _
  exact (moves_replicaEdges _ _ _ _ _ _ _ _).mono hread

/-- If the turn of a node fails, edges are kept and handles fit together. -/
theorem failsWithin_splitNode (id : NodeId) : FailsWithin Enlarges (splitNode id) := by
  refine .bind Moves.get fun graph => ?_
  cases graph.node? id with
  | none => exact (Moves.pure _).failsWithin
  | some node =>
    refine .bind ((moves_drivers id).mono fun _ _ h => h.retains.enlarges) fun drivers => ?_
    refine .bind (moves_ofExcept _) fun size? => ?_
    split
    · exact (Moves.pure _).failsWithin
    · exact ((moves_collapse id drivers).mono fun _ _ h => h.enlarges).failsWithin
    · exact failsWithin_replicate node drivers _

/-- Preparing the pipeline inside a job leaves the graph alone. -/
theorem moves_prepareInner {R : Graph → Graph → Prop} [Std.Refl R] (prepare : GraphM Unit)
    (pipeline : Pipeline) : Moves R (prepareInner prepare pipeline) := by
  intro g
  rw [prepareInner]
  cases build pipeline with
  | error e => exact refl_of R g
  | ok built =>
    dsimp only
    cases prepare built <;> exact refl_of R g

/-- While a node gives way to those of the pipeline inside it nothing is lost. -/
theorem failsWithin_expandNode (prepare : GraphM Unit) (id : NodeId) :
    FailsWithin Enlarges (expandNode prepare id) := by
  have hread : ∀ g g', SameButMemo g g' → Enlarges g g' := fun _ _ h => h.plans.retains.enlarges
  refine .bind (moves_nodeAt id) fun node => ?_
  cases hnested : node.spec.nested? with
  | none => exact (Moves.pure _).failsWithin
  | some nested =>
    refine .bind ((moves_configuration _).mono hread) fun settings => ?_
    refine .bind (moves_prepareInner prepare _) fun inner => ?_
    refine .bind (.mapM fun _ _ => (enlarges_addNode _).bind fun _ => .pure _) fun handles => ?_
    refine .bind ((moves_adoptEdges handles inner.edges).mono hread) fun edges => ?_
    exact .bind Moves.get fun graph => .modify _

/-- What is kept while nodes have their turn: handles fit together, and no edge leads back to where
it starts. -/
structure Sturdy (graph : Graph) : Prop where
  /-- Handles fit together. -/
  wellFormed : graph.WellFormed
  /-- No edge leads back to where it starts. -/
  loopless : ∀ edge ∈ graph.edges, edge.source ≠ edge.target

/-- Where the edges are kept, there still is no circle. -/
theorem Enlarges.sturdy {g g' : Graph} (h : Enlarges g g') (hg : g.Sturdy) : g'.Sturdy :=
  ⟨h.wellFormed hg.wellFormed, h.edges.loopless hg.loopless⟩

/-- A graph that can be put in order has no circle. -/
theorem sturdy_of_topologicalOrder {g : Graph} {order : List Node} (hw : g.WellFormed)
    (horder : g.topologicalOrder = .ok order) : g.Sturdy := by
  have hacyclic := (rising_of_topologicalOrder hw.closed horder).acyclic
  exact ⟨hw, fun edge he heq => hacyclic edge.source (.single ⟨edge, he, rfl, heq.symm⟩)⟩

/-- When a node was repeated, there still is no circle. -/
theorem Sturdy.splitNode {g g' : Graph} {id : NodeId} {u : Unit} (hg : g.Sturdy)
    (h : splitNode id g = .ok u g') : g'.Sturdy := by
  cases turned_of_splitNode h with
  | absent _ => exact hg
  | idle _ hf _ => exact ((moves_drivers id).of_ok hf).retains.enlarges.sturdy hg
  | collapsed _ hf _ hc =>
    refine (trans_of Retains ((moves_drivers id).of_ok hf).retains ?_).enlarges.sturdy hg
    exact (moves_collapse _ _).of_ok hc
  | replaced hn hf _ _ hr =>
    obtain ⟨hin, rfl⟩ := id_of_node? hn
    obtain ⟨replicas, hrepeats⟩ := repeats_of_replicate hg.wellFormed hg.loopless hin
      (traced_of_drivers hf) ((moves_drivers _).of_ok hf).retains hr
    exact ⟨hrepeats.wellFormed, hrepeats.loopless⟩

/-- Whether the turn of a node fails or not, there still is no circle. -/
theorem keeps_splitNode (id : NodeId) : Moves (Keeps Sturdy) (splitNode id) := by
  intro g hg
  cases h : splitNode id g with
  | ok u g' => exact hg.splitNode h
  | error e g' => exact (failsWithin_splitNode id g e g' h).sturdy hg

/-- Either nodes cannot be put in order, or they have their turns. -/
theorem left_split (g : Graph) : left (split g) = g ∨ ∃ order, g.topologicalOrder = .ok order ∧
    left (split g) = left (order.forM (Graph.splitNode ·.id) g) := by
  cases horder : g.topologicalOrder with
  | error e =>
    left
    change left ((ofExcept g.topologicalOrder >>= _) g) = _
    rw [horder]
    rfl
  | ok order =>
    refine .inr ⟨order, rfl, ?_⟩
    change left ((ofExcept g.topologicalOrder >>= _) g) = _
    rw [horder]
    rfl

/-- Handles go on fitting together while nodes are repeated. -/
theorem keeps_split : Moves (Keeps WellFormed) split := by
  intro g hw
  rcases left_split g with hsame | ⟨order, horder, hturns⟩
  · rwa [hsame]
  · have hmoves : Moves (Keeps Sturdy) (order.forM (Graph.splitNode ·.id)) :=
      .forM fun node _ => keeps_splitNode node.id
    rw [hturns]
    exact (hmoves g (sturdy_of_topologicalOrder hw horder)).wellFormed

/-- A step that keeps the outline keeps handles fitting together. -/
theorem keeps_of_sameOutline {α : Type} {x : GraphM α} (h : Moves SameOutline x) :
    Moves (Keeps WellFormed) x := h.mono fun _ _ hsame => hsame.wellFormed

/-- Repeating nodes and handing on values keeps handles fitting together, also in a failure. -/
theorem keeps_spread : Moves (Keeps WellFormed) spread :=
  keeps_split.bind fun _ => keeps_of_sameOutline moves_configure

/-- A graph in which values could be handed on has no circle, whatever it was made of. -/
theorem acyclic_of_spread {g g' : Graph} {u : Unit} (hw : g'.WellFormed)
    (h : spread g = .ok u g') : Acyclic g'.edges := by
  obtain ⟨v, t, -, hconfigure⟩ := bind_eq_ok.mp h
  have hsame : SameOutline g' t := (moves_configure.of_ok hconfigure).symm
  exact acyclic_of_configure (hsame.wellFormed hw) hconfigure

/-- Handles fit together and there is no circle while a node gives way to others. -/
theorem keeps_expandNode {prepare : GraphM Unit} (hprepare : PreparesAcyclic prepare)
    (id : NodeId) :
    Moves (Keeps fun g => g.WellFormed ∧ Acyclic g.edges) (expandNode prepare id) := by
  rintro g ⟨hw, ha⟩
  cases h : expandNode prepare id g with
  | error e g' =>
    have henlarges := failsWithin_expandNode prepare id g e g' h
    exact ⟨henlarges.wellFormed hw, henlarges.edges.acyclic ha⟩
  | ok u g' =>
    cases expands_of_expandNode h with
    | plain _ _ => exact ⟨hw, ha⟩
    | replaced hn hnested _ _ _ _ _ =>
      have hgives := givesWay_of_expandNode hprepare hw ha ⟨_, hn, by rw [hnested]; rfl⟩ h
      exact ⟨hgives.wellFormed, hgives.acyclic hw ha⟩

/-- Putting pipelines inside jobs in their place makes no circle, also in a failure. -/
theorem keeps_expandWithin {prepare : GraphM Unit} (hprepare : PreparesAcyclic prepare)
    (options : CompileOptions) :
    Moves (Keeps fun g => g.WellFormed ∧ Acyclic g.edges) (expandWithin options prepare) := by
  rw [expandWithin]
  split
  · exact Moves.get.bind fun _ => .forM fun node _ => keeps_expandNode hprepare node.id
  · exact .pure _

/-- Handles fit together wherever the preparation of a graph ends. -/
theorem keeps_prepareStages {prepare : GraphM Unit} (hprepare : PreparesAcyclic prepare)
    (options : CompileOptions) : Moves (Keeps WellFormed) (prepareStages options prepare) := by
  rw [prepareStages_eq]
  refine keeps_spread.bind_of_ok fun g u g' h hw => ?_
  have hrest : Moves (Keeps fun g => g.WellFormed ∧ Acyclic g.edges)
      (do expandWithin options prepare; finalize) :=
    (keeps_expandWithin hprepare options).bind fun _ => moves_finalize.mono fun _ _ hsame hboth =>
      ⟨hsame.wellFormed hboth.1, hsame.edges ▸ hboth.2⟩
  exact (hrest g' ⟨hw, acyclic_of_spread hw h⟩).1

/-- Preparation keeps handles fitting together, also in a failure. -/
theorem keeps_prepare (options : CompileOptions) : Moves (Keeps WellFormed) (prepare options) := by
  intro g
  rw [prepare_eq]
  exact keeps_prepareStages (preparesAcyclic_prepareNested g.depth) options g

end Graph

end Pipework
