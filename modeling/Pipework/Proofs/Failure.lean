import Pipework.Proofs.Ordering

/-!
# What steps on a graph fail for

A failure of a step is one of the steps it is made of, so what holds of the failures of the
parts holds of those of the whole. Steps that only resolve values fail just for what keeps values
from being resolved. Only putting nodes in order finds that they wait for each other in a circle,
and only handing on a value finds that a list is left where a single value is taken. Repeating a
node, taking over the nodes of another graph and building a graph may fail, but not for that.
Replacing a node fails for something ordinary, or because the pipeline inside it is not prepared.
-/

namespace Pipework

namespace Step

variable {ε σ α β : Type} {P : ε → Prop}

/-- Steps one behind the other fail if the first fails, or the second from where the first came to. -/
theorem bind_eq_error {x : EStateM ε σ α} {f : α → EStateM ε σ β} {s s' : σ} {e : ε} :
    (x >>= f) s = .error e s' ↔
      x s = .error e s' ∨ ∃ a t, x s = .ok a t ∧ f a t = .error e s' := by
  change EStateM.bind x f s = _ ↔ _
  unfold EStateM.bind
  cases x s <;> simp

/-- A sequence of steps fails if it does so behind others. -/
theorem forM_append_eq_error {l l' : List α} {f : α → EStateM ε σ PUnit} {s t s' : σ} {e : ε}
    (hl : l.forM f s = .ok ⟨⟩ t) (h : l'.forM f t = .error e s') :
    (l ++ l').forM f s = .error e s' := by
  induction l generalizing s with
  | nil =>
    obtain ⟨-, rfl⟩ := pure_eq_ok.mp hl
    exact h
  | cons a l ih =>
    obtain ⟨u, middle, ha, hl⟩ := bind_eq_ok.mp hl
    exact bind_eq_error.mpr (.inr ⟨u, middle, ha, ih hl⟩)

/-- Wherever it starts, the step only fails for such reasons. -/
def FailsFor (P : ε → Prop) (x : EStateM ε σ α) : Prop := ∀ s e s', x s = .error e s' → P e

/-- What a step fails for has every property that follows. -/
theorem FailsFor.mono {Q : ε → Prop} {x : EStateM ε σ α} (h : FailsFor P x) (hq : ∀ e, P e → Q e) :
    FailsFor Q x := fun s e s' hx => hq e (h s e s' hx)

/-- Giving back a result does not fail. -/
theorem FailsFor.pure (a : α) : FailsFor P (pure a : EStateM ε σ α) := fun _ _ _ h => by cases h

theorem FailsFor.get : FailsFor P (get : EStateM ε σ σ) := fun _ _ _ h => by cases h

theorem FailsFor.modify (f : σ → σ) : FailsFor P (modify f : EStateM ε σ PUnit) :=
  fun _ _ _ h => by cases h

theorem FailsFor.throw {e : ε} (he : P e) : FailsFor P (throw e : EStateM ε σ α) := by
  intro s e' s' h
  cases h
  exact he

/-- Steps one behind the other fail for what one of them fails for. -/
theorem FailsFor.bind {x : EStateM ε σ α} {f : α → EStateM ε σ β} (hx : FailsFor P x)
    (hf : ∀ a, FailsFor P (f a)) : FailsFor P (x >>= f) := by
  intro s e s' h
  rcases bind_eq_error.mp h with h | ⟨a, t, -, h⟩
  · exact hx s e s' h
  · exact hf a t e s' h

/-- A step that is taken for all elements of a list fails for what it fails for at one of them. -/
theorem FailsFor.forM {l : List α} {f : α → EStateM ε σ PUnit} (hf : ∀ a ∈ l, FailsFor P (f a)) :
    FailsFor P (l.forM f) := by
  induction l with
  | nil => exact .pure _
  | cons a l ih =>
    change FailsFor P (f a >>= fun _ => l.forM f)
    exact (hf a (by simp)).bind fun _ => ih fun b hb => hf b (List.mem_cons_of_mem a hb)

/-- A step with a result for each element of a list fails for what it fails for at one of them. -/
theorem FailsFor.mapM {l : List α} {f : α → EStateM ε σ β} (hf : ∀ a ∈ l, FailsFor P (f a)) :
    FailsFor P (l.mapM f) := by
  induction l with
  | nil => exact .pure _
  | cons a l ih =>
    rw [List.mapM_cons]
    refine (hf a (by simp)).bind fun b => ?_
    exact (ih fun c hc => hf c (List.mem_cons_of_mem a hc)).bind fun _ => .pure _

/-- A step that goes on from its result for the elements before fails for what it fails for at one of
them. -/
theorem FailsFor.foldlM {l : List α} {f : β → α → EStateM ε σ β}
    (hf : ∀ b, ∀ a ∈ l, FailsFor P (f b a)) (b : β) : FailsFor P (l.foldlM f b) := by
  induction l generalizing b with
  | nil => exact .pure _
  | cons a l ih =>
    rw [List.foldlM_cons]
    refine (hf b a (by simp)).bind fun c => ?_
    exact ih (fun d e he => hf d e (List.mem_cons_of_mem a he)) c

/-- If a sequence fails, some step of it does, in a state that those before it lead to. -/
theorem exists_of_forM_error {R : σ → σ → Prop} [Std.Refl R] [IsTrans σ R] {l : List α}
    {f : α → EStateM ε σ PUnit} (hf : ∀ a ∈ l, Moves R (f a)) {s s' : σ} {e : ε}
    (h : l.forM f s = .error e s') : ∃ a ∈ l, ∃ t, R s t ∧ f a t = .error e s' := by
  induction l generalizing s with
  | nil => cases h
  | cons a l ih =>
    rcases bind_eq_error.mp h with h | ⟨u, t, ha, h⟩
    · exact ⟨a, List.mem_cons_self, s, refl_of R s, h⟩
    · obtain ⟨b, hb, t', ht, hfail⟩ := ih (fun c hc => hf c (List.mem_cons_of_mem a hc)) h
      have hat : R s t := (hf a List.mem_cons_self).of_ok ha
      exact ⟨b, List.mem_cons_of_mem a hb, t', trans_of R hat ht, hfail⟩

/-- A step that comes to an end for each element, without moving the state, does so for all of
them. -/
theorem exists_mapM {l : List α} {f : α → EStateM ε σ β} {s : σ}
    (hf : ∀ a ∈ l, ∃ b, f a s = .ok b s) : ∃ bs, l.mapM f s = .ok bs s := by
  induction l with
  | nil => exact ⟨[], rfl⟩
  | cons a l ih =>
    obtain ⟨b, hb⟩ := hf a (by simp)
    obtain ⟨bs, hbs⟩ := ih fun c hc => hf c (List.mem_cons_of_mem a hc)
    refine ⟨b :: bs, ?_⟩
    rw [List.mapM_cons]
    exact bind_eq_ok.mpr ⟨b, s, hb, bind_eq_ok.mpr ⟨bs, s, hbs, rfl⟩⟩

end Step

open Step

/-- Jobs wait for each other in a circle. -/
def GraphError.IsCircle (error : GraphError) : Prop := ∃ jobs, error = .cycle jobs

/-- A link from a list to a single value is still there when values are handed on. -/
def GraphError.IsUnsplit (error : GraphError) : Prop :=
  ∃ job parameter, error = .unsplitManyToOne job parameter

/-- It is neither of these. -/
def GraphError.IsPlain : GraphError → Prop
  | .cycle _ | .unsplitManyToOne _ _ => False
  | _ => True

/-- It tells of a value, a scope or a repetition that is refused, and not of what a pipeline as a whole
is refused for. -/
def GraphError.IsOrdinary : GraphError → Prop
  | .scope _ | .cardinalityMismatch _ _ _ _ | .mixedExpansion _ | .dangling => True
  | _ => False

/-- What may come up whenever values are resolved is neither a circle nor a list that is left. -/
theorem GraphError.IsOrdinary.isPlain {error : GraphError} (h : error.IsOrdinary) :
    error.IsPlain := by
  cases error <;> trivial

theorem GraphError.IsPlain.not_isCircle {error : GraphError} (h : error.IsPlain) :
    ¬ error.IsCircle := by
  rintro ⟨jobs, rfl⟩
  exact h

theorem GraphError.IsCircle.not_isUnsplit {error : GraphError} (h : error.IsCircle) :
    ¬ error.IsUnsplit := by
  obtain ⟨jobs, rfl⟩ := h
  rintro ⟨job, parameter, ⟨⟩⟩

theorem GraphError.IsPlain.not_isUnsplit {error : GraphError} (h : error.IsPlain) :
    ¬ error.IsUnsplit := by
  rintro ⟨job, parameter, rfl⟩
  exact h

namespace Graph

/-- The step fails neither for a circle nor for a list that is left. -/
abbrev FailsPlainly {α : Type} (x : GraphM α) : Prop := FailsFor GraphError.IsPlain x

/-- The step fails only for what values, scopes and repetitions are refused for. -/
abbrev FailsOrdinarily {α : Type} (x : GraphM α) : Prop := FailsFor GraphError.IsOrdinary x

/-- A step that only resolves values finds no circle and no list that is left. -/
theorem FailsOrdinarily.plain {α : Type} {x : GraphM α} (h : FailsOrdinarily x) : FailsPlainly x :=
  h.mono fun _ he => he.isPlain

/-- A result that was found before fails for what it was found to fail for. -/
theorem failsFor_ofExcept {α : Type} {P : GraphError → Prop} {x : Except GraphError α}
    (h : ∀ e, x = .error e → P e) : FailsFor P (ofExcept x) := by
  cases x with
  | ok a => exact .pure a
  | error e => exact .throw (h e rfl)

/-- What is asked of the scopes of a graph fails for what it fails for when it is asked of them. -/
theorem failsFor_onScope {α : Type} {P : GraphError → Prop} {action : ScopeM α}
    (h : FailsFor (fun e => P (.scope e)) action) : FailsFor P (onScope action) := by
  intro g e g' hrun
  rw [onScope] at hrun
  cases haction : action g.scope with
  | ok a scope => simp [haction] at hrun
  | error cause scope =>
    rw [haction] at hrun
    obtain ⟨rfl, -⟩ := EStateM.Result.error.inj hrun
    exact h g.scope cause scope haction

/-! ### Reading values

These steps resolve values and do nothing else that could fail, so it is enough to know what
resolving the value of a scope fails for. -/

/-- Reading a value fails for what resolving a scope fails for. -/
theorem failsFor_readProperty {P : ScopeError → Prop}
    (hresolve : ∀ id, FailsFor P (ScopeTree.resolveAt id)) (owner key : String) :
    FailsFor P (readProperty owner key) := by
  refine FailsFor.get.bind fun tree => ?_
  dsimp only
  split
  · split
    · exact (hresolve _).bind fun _ => .pure _
    · exact .pure _
  · exact .pure _

section Reading

variable {P : GraphError → Prop}
  (hresolve : ∀ id, FailsFor (fun e => P (.scope e)) (ScopeTree.resolveAt id))

include hresolve

theorem failsFor_propertyValue (id : NodeId) (key : String) : FailsFor P (propertyValue id key) := by
  refine FailsFor.get.bind fun graph => ?_
  cases graph.node? id with
  | none => exact .pure _
  | some node => exact failsFor_onScope (failsFor_readProperty hresolve node.name key)

/-- Resolving the values of a node fails for what reading one of them fails for. -/
theorem failsFor_resolveKeys (node : Node) (resolved : Settings) (keys : List String) :
    FailsFor P (resolveKeys node resolved keys) := by
  induction keys generalizing resolved with
  | nil => exact .pure _
  | cons key keys ih =>
    refine (failsFor_onScope (failsFor_readProperty hresolve node.name key)).bind fun value? => ?_
    cases value? with
    | none => exact ih resolved
    | some value => exact ih _

/-- Resolving all that a node has fails for what reading one of its values fails for. -/
theorem failsFor_resolvedOf (node : Node) : FailsFor P (resolvedOf node) := by
  rw [resolvedOf]
  cases node.resolved? with
  | none => exact failsFor_resolveKeys hresolve node ∅ node.keys
  | some resolved => exact .pure _

/-- The values of a job can be asked for only if there is such a job. -/
theorem failsFor_configuration {name : String} (hnone : P (.scope (.unresolvedReference name))) :
    FailsFor P (configuration name) := by
  refine FailsFor.get.bind fun graph => ?_
  cases graph.find? name with
  | none => exact .throw hnone
  | some node => exact failsFor_resolvedOf hresolve node

/-- Having all nodes keep what their values resolve to fails for what reading one of these fails for. -/
theorem failsFor_finalize : FailsFor P finalize :=
  FailsFor.get.bind fun _ => .forM fun node _ =>
    (failsFor_resolveKeys hresolve node ∅ node.keys).bind fun _ => .modify _

/-- Lists that a node has itself are found by reading its values. -/
theorem failsFor_listDrivers (id : NodeId) (linked : List String) (parameters : List Parameter) :
    FailsFor P (listDrivers id linked parameters) := by
  induction parameters with
  | nil => exact .pure _
  | cons parameter parameters ih =>
    rw [listDrivers]
    split
    · exact ih
    · refine (failsFor_propertyValue hresolve _ _).bind fun current => ih.bind fun others => ?_
      split <;> exact .pure _

/-- Finding out what there is to take over from the repetition before fails for what reading a value
there fails for. -/
theorem failsFor_carryEdges (previous current : NodeId) (parameters : List Parameter) :
    FailsFor P (carryEdges previous current parameters) := by
  induction parameters with
  | nil => exact .pure _
  | cons parameter parameters ih =>
    rw [carryEdges]
    cases parameter.expandValue? with
    | none => exact ih
    | some text =>
      refine (failsFor_propertyValue hresolve _ _).bind fun value? => ih.bind fun others => ?_
      cases value? with
      | none => exact .pure _
      | some value => exact .pure _

/-- Edges from one repetition to the next are drawn for values that are there. -/
theorem failsFor_chainEdges (node : Node) (serial : Bool) (previous? : Option NodeId)
    (current : NodeId) : FailsFor P (chainEdges node serial previous? current) := by
  cases serial with
  | false => exact .pure _
  | true =>
    cases previous? with
    | none => exact .pure _
    | some previous => exact (failsFor_carryEdges hresolve _ _ _).bind fun _ => .pure _

/-- Making the edges that a parameter asks for fails for what reading the outputs it refers to fails for. -/
theorem failsFor_linksInto (target : NodeId) (start : ScopeId) (parameter : Parameter)
    (seen : List (NodeId × String)) (paths : List (List String)) :
    FailsFor P (linksInto target start parameter seen paths) := by
  induction paths generalizing seen with
  | nil => exact .pure _
  | cons path paths ih =>
    refine FailsFor.get.bind fun graph => ?_
    split
    · exact ih seen
    · dsimp only
      split
      · exact ih seen
      · exact (failsFor_onScope (hresolve _)).bind fun _ => (ih _).bind fun _ => .pure _

/-- Edges into a node are drawn for outputs whose values are there. -/
theorem failsFor_linksOf (node : Node) (start : ScopeId) (parameters : List Parameter) :
    FailsFor P (linksOf node start parameters) := by
  induction parameters with
  | nil => exact .pure _
  | cons parameter parameters ih =>
    rw [linksOf]
    refine FailsFor.get.bind fun graph => ?_
    split
    · exact (failsFor_linksInto hresolve _ _ _ _ _).bind fun found => ih.bind fun _ => .pure _
    · exact (FailsFor.pure _).bind fun found => ih.bind fun _ => .pure _

end Reading

/-! ### Failures that a single step brings about -/

section Thrown

variable {P : GraphError → Prop}

/-- Nodes that cannot be put in order wait for each other in a circle. -/
theorem failsFor_topologicalOrder (hcycle : ∀ jobs, P (.cycle jobs)) (g : Graph) :
    FailsFor P (ofExcept g.topologicalOrder) := by
  refine failsFor_ofExcept fun e he => ?_
  obtain ⟨jobs, rfl⟩ := cycle_of_topologicalOrder he
  exact hcycle jobs

/-- Dropping implied edges fails for a circle only. -/
theorem failsFor_reduce (hcycle : ∀ jobs, P (.cycle jobs)) : FailsFor P reduce :=
  FailsFor.get.bind fun g => (failsFor_topologicalOrder hcycle g).bind fun _ _ _ _ h => by cases h

/-- There is no number of repetitions if parameters bring different numbers of values. -/
theorem failsFor_size? (drivers : Drivers) (job : String)
    (hsizes : ∀ parameter expected found, P (.cardinalityMismatch job parameter expected found)) :
    FailsFor P (ofExcept (drivers.size? job)) := by
  refine failsFor_ofExcept fun e he => ?_
  rw [Drivers.size?] at he
  split at he
  · cases he
  · split at he
    · cases he
      exact hsizes _ _ _
    · cases he

/-- Repetitions have no order if parameters ask for different ones. -/
theorem failsFor_isSerial (node : Node) (hmixed : ∀ job, P (.mixedExpansion job)) :
    FailsFor P (ofExcept (isSerial node)) := by
  refine failsFor_ofExcept fun e he => ?_
  rw [isSerial] at he
  split at he
  · cases he
    exact hmixed _
  · cases he

/-- The edges that a definition asks for are drawn unless a job comes after one that is not there. -/
theorem failsFor_afterEdges (job : Job) (target : NodeId)
    (hunknown : ∀ after, P (.unknownJob job.id after)) : FailsFor P (afterEdges job target) := by
  refine .forM fun after _ => FailsFor.get.bind fun graph => ?_
  cases graph.find? after with
  | some source => exact .modify _
  | none => exact .throw (hunknown after)

end Thrown

/-! ### Ordinary failures -/

/-- What is looked up and not there is no special failure. -/
theorem ordinary_ofOption {α : Type} (x : Option α) : FailsOrdinarily (ofOption x) := by
  cases x with
  | some a => exact .pure a
  | none => exact .throw trivial

/-- Looking up a node fails at most because it is not there. -/
theorem ordinary_nodeAt (id : NodeId) : FailsOrdinarily (nodeAt id) :=
  FailsFor.get.bind fun _ => ordinary_ofOption _

/-- Looking up an edge fails at most because it is not there. -/
theorem ordinary_edgeAt (place : Nat) : FailsOrdinarily (edgeAt place) :=
  FailsFor.get.bind fun _ => ordinary_ofOption _

/-- Whatever is refused by scopes is ordinary. -/
theorem ordinary_onScope {α : Type} (action : ScopeM α) : FailsOrdinarily (onScope action) :=
  failsFor_onScope fun _ _ _ _ => trivial

/-- Resolving a scope fails for what keeps values from being resolved. -/
theorem ordinary_resolveAt (id : ScopeId) :
    FailsFor (fun e => (GraphError.scope e).IsOrdinary) (ScopeTree.resolveAt id) :=
  fun _ _ _ _ => trivial

/-- Reading a value of a node fails for what keeps values from being resolved. -/
theorem ordinary_propertyValue (id : NodeId) (key : String) :
    FailsOrdinarily (propertyValue id key) := failsFor_propertyValue ordinary_resolveAt id key

/-- Giving a node a value fails for what keeps a scope from being written. -/
theorem ordinary_setNodeValue (id : NodeId) (key : String) (value : Value) :
    FailsOrdinarily (setNodeValue id key value) := by
  refine (FailsFor.modify _).bind fun _ => FailsFor.get.bind fun graph => ?_
  cases graph.scopeOf? id with
  | none => exact .pure _
  | some scope => exact (ordinary_onScope _).bind fun _ => .pure _

/-- Adding a node does so too, for the scope of its name. -/
theorem ordinary_addNode (node : Node) : FailsOrdinarily (addNode node) := by
  refine (ordinary_onScope _).bind fun scope => ?_
  refine (FailsFor.forM fun entry _ => ?_).bind fun _ => ?_
  · exact (ordinary_onScope _).bind fun _ => .pure _
  · exact FailsFor.get.bind fun _ => (FailsFor.modify _).bind fun _ => .pure _

/-! ### Repeating a node -/

/-- Looking at one edge to a node only reads the value at its source. -/
theorem ordinary_addDriver (drivers : Drivers) (place : Nat) :
    FailsOrdinarily (addDriver drivers place) := by
  refine (ordinary_edgeAt place).bind fun edge => ?_
  cases edge.kind with
  | after => exact .pure _
  | data link =>
    cases hcard : link.cardinality with
    | manyToOne =>
      simp only [hcard]
      refine (ordinary_propertyValue _ _).bind fun current => ?_
      split
      · exact (FailsFor.modify _).bind fun _ => .pure _
      · exact .pure _
    | oneToOne =>
      simp only [hcard]
      exact (ordinary_nodeAt _).bind fun _ => .pure _
    | oneToMany =>
      simp only [hcard]
      exact .pure _
    | manyToMany =>
      simp only [hcard]
      exact .pure _

/-- Finding out what a node is repeated for only reads values. -/
theorem ordinary_drivers (id : NodeId) : FailsOrdinarily (drivers id) := by
  refine FailsFor.get.bind fun graph => ?_
  refine (FailsFor.foldlM (fun found place _ => ordinary_addDriver found place) _).bind
    fun found => ?_
  exact (ordinary_nodeAt id).bind fun node =>
    (failsFor_listDrivers ordinary_resolveAt id _ _).bind fun _ => .pure _

/-- Having a node take its one value reads and writes values. -/
theorem ordinary_collapse (id : NodeId) (drivers : Drivers) :
    FailsOrdinarily (collapse id drivers) := by
  refine (FailsFor.forM fun entry _ => .forM fun share _ => .modify _).bind fun _ => ?_
  refine .forM fun entry _ => ?_
  exact (ordinary_ofOption _).bind fun item => ordinary_setNodeValue id entry.1 item

/-- Adding a repetition adds a node and gives it its shares. -/
theorem ordinary_addReplica (node : Node) (drivers : Drivers) (serial : Bool) (place : Nat) :
    FailsOrdinarily (addReplica node drivers serial place) := by
  have hshare : FailsOrdinarily (shareOut node drivers place) := by
    refine (FailsFor.foldlM (fun _ _ _ => ?_) _).bind fun _ => .foldlM (fun _ _ _ => ?_) _
    · exact (ordinary_ofOption _).bind fun _ => .pure _
    · exact (ordinary_ofOption _).bind fun _ => .pure _
  exact hshare.bind fun overrides => ordinary_addNode _

/-- Giving repetitions files of their own reads and writes values. -/
theorem ordinary_separateOutput (serial : Bool) (replicas : List NodeId) (name : String) :
    FailsOrdinarily (separateOutput serial replicas name) := by
  refine (FailsFor.mapM fun replica _ => ordinary_propertyValue replica name).bind fun values => ?_
  dsimp only
  split
  · exact .pure _
  · refine .forM fun entry _ => ?_
    split
    · exact ordinary_setNodeValue _ _ _
    · exact .pure _

/-- The edges of a repetition take reading what there is to take over. -/
theorem ordinary_replicaEdges (node : Node) (drivers : Drivers) (serial : Bool)
    (incoming outgoing : List Nat) (place : Nat) (previous? : Option NodeId)
    (replicas : List NodeId) :
    FailsOrdinarily (replicaEdges node drivers serial incoming outgoing place previous? replicas) := by
  induction replicas generalizing place previous? with
  | nil => exact .pure _
  | cons replica replicas ih =>
    have hshares : FailsOrdinarily (shareEdges drivers place replica) :=
      .mapM fun _ _ => (ordinary_ofOption _).bind fun _ => .pure _
    have hstrands : FailsOrdinarily (strandEdges drivers place replica) :=
      .mapM fun _ _ => (ordinary_ofOption _).bind fun _ => (ordinary_edgeAt _).bind fun _ => .pure _
    have hkept : FailsOrdinarily (keptEdges drivers incoming replica) :=
      .mapM fun _ _ => (ordinary_edgeAt _).bind fun _ => .pure _
    have houtward : FailsOrdinarily (outgoingEdges outgoing replica) := by
      refine .mapM fun _ _ => (ordinary_edgeAt _).bind fun edge => ?_
      cases edge.kind with
      | after => exact .pure _
      | data link => exact (ordinary_propertyValue _ _).bind fun _ => .pure _
    have hchain := failsFor_chainEdges ordinary_resolveAt node serial previous? replica
    exact hshares.bind fun _ => hstrands.bind fun _ => hkept.bind fun _ => houtward.bind fun _ =>
      hchain.bind fun _ => (ih _ _).bind fun _ => .pure _

/-- Repeating a node comes down to such steps. -/
theorem ordinary_replicate (node : Node) (drivers : Drivers) (count : Nat) :
    FailsOrdinarily (replicate node drivers count) := by
  refine (failsFor_isSerial node fun _ => trivial).bind fun serial => ?_
  refine (FailsFor.mapM fun place _ => ordinary_addReplica node drivers serial place).bind
    fun replicas => ?_
  refine (FailsFor.forM fun p _ => ordinary_separateOutput serial replicas p.name).bind fun _ => ?_
  exact FailsFor.get.bind fun _ => (ordinary_replicaEdges _ _ _ _ _ _ _ _).bind fun _ => .modify _

/-- The turn of a node does not fail for a circle or a list that is left. -/
theorem ordinary_splitNode (id : NodeId) : FailsOrdinarily (splitNode id) := by
  refine FailsFor.get.bind fun graph => ?_
  cases graph.node? id with
  | none => exact .pure _
  | some node =>
    refine (ordinary_drivers id).bind fun drivers => ?_
    refine (failsFor_size? drivers node.name fun _ _ _ => trivial).bind fun size? => ?_
    split
    · exact .pure _
    · exact ordinary_collapse id drivers
    · exact ordinary_replicate node drivers _

/-! ### Handing on a value -/

/-- Handing on a value fails for something ordinary, or for a list that meets a single value. -/
theorem isOrdinary_or_of_merge {kind : EdgeKind} {target : String}
    {existing? declared? : Option Value} {value : Value} {names : List String} {e : GraphError}
    (h : Merge.merge kind target existing? declared? value names = .error e) :
    e.IsOrdinary ∨ e.IsUnsplit ∧ ∃ link, kind = .data link ∧ link.cardinality = .manyToOne := by
  have hlift : ∀ x : Except ScopeError Value,
      (do return some (← Merge.lift x) : Except GraphError (Option Value)) = .error e →
        e.IsOrdinary := by
    intro x hx
    cases x with
    | ok value => cases hx
    | error cause =>
      cases hx
      trivial
  cases kind with
  | after => cases h
  | data link =>
    simp only [Merge.merge] at h
    split at h
    · exact .inl (hlift _ h)
    · exact .inl (hlift _ h)
    · exact .inl (hlift _ h)
    next hcard =>
      cases h
      exact .inr ⟨⟨_, _, rfl⟩, link, rfl, hcard⟩

/-- So does handing on the value of an edge. -/
theorem isOrdinary_or_of_applyEdge {place : Nat} {g g' : Graph} {e : GraphError}
    (h : applyEdge place g = .error e g') : e.IsOrdinary ∨ e.IsUnsplit ∧ ∃ edge link,
      g.edges[place]? = some edge ∧ edge.kind = .data link ∧ link.cardinality = .manyToOne := by
  rcases bind_eq_error.mp h with h | ⟨edge, _, hat, h⟩
  · exact .inl (ordinary_edgeAt place _ _ _ h)
  obtain ⟨hedge, rfl⟩ := edgeAt_eq_ok.mp hat
  cases hk : edge.kind with
  | after =>
    simp only [hk] at h
    cases h
  | data link =>
    simp only [hk] at h
    rcases bind_eq_error.mp h with h | ⟨current, _, -, h⟩
    · exact .inl (ordinary_propertyValue _ _ _ _ _ h)
    rcases bind_eq_error.mp h with h | ⟨source, _, -, h⟩
    · exact .inl (ordinary_nodeAt _ _ _ _ h)
    rcases bind_eq_error.mp h with h | ⟨target, _, -, h⟩
    · exact .inl (ordinary_nodeAt _ _ _ _ h)
    rcases bind_eq_error.mp h with h | ⟨merged, _, -, h⟩
    · cases hmerge : Merge.merge edge.kind target.name (target.configured? link.targetProperty)
          (target.declared? link.targetProperty)
          (located source target link (current.getD link.value))
          [source.name, source.spec.id] with
      | ok value? =>
        rw [← hk, hmerge] at h
        cases h
      | error cause =>
        rw [← hk, hmerge] at h
        cases h
        refine (isOrdinary_or_of_merge hmerge).imp_right fun ⟨hunsplit, link, hkind, hcard⟩ => ?_
        exact ⟨hunsplit, edge, link, hedge, hkind, hcard⟩
    · cases merged with
      | none => cases h
      | some value => exact .inl (ordinary_setNodeValue _ _ _ _ _ _ h)

/-- Handing on a value finds no circle. -/
theorem not_isCircle_of_applyEdge {place : Nat} {g g' : Graph} {e : GraphError}
    (h : applyEdge place g = .error e g') : ¬ e.IsCircle := by
  rcases isOrdinary_or_of_applyEdge h with hordinary | ⟨⟨job, parameter, rfl⟩, -⟩
  · exact hordinary.isPlain.not_isCircle
  · rintro ⟨jobs, ⟨⟩⟩

/-! ### Building a graph and taking one over -/

/-- What all jobs may refer to is only written. -/
theorem ordinary_addGlobals (pipeline : Pipeline) : FailsOrdinarily (addGlobals pipeline) := by
  refine (FailsFor.forM fun entry _ => (ordinary_onScope _).bind fun _ => .pure _).bind
    fun _ => .forM fun parameter _ => ?_
  split
  · exact (ordinary_onScope _).bind fun _ => .pure _
  · exact .pure _

/-- The edges that a node asks for take reading the outputs it refers to. -/
theorem ordinary_findDependencies (id : NodeId) : FailsOrdinarily (findDependencies id) := by
  refine (ordinary_nodeAt id).bind fun node => FailsFor.get.bind fun graph => ?_
  cases graph.scopeOf? id with
  | none => exact .pure _
  | some start => exact (failsFor_linksOf ordinary_resolveAt node start _).bind fun _ => .modify _

/-- Building a graph finds neither a circle nor a list that is left. -/
theorem plain_construct (pipeline : Pipeline) : FailsPlainly (construct pipeline) := by
  refine (ordinary_addGlobals pipeline).plain.bind fun _ => ?_
  refine (FailsFor.mapM fun _ _ => (ordinary_addNode _).plain).bind fun ids => ?_
  refine (FailsFor.forM fun entry _ =>
    failsFor_afterEdges entry.1 entry.2 fun _ => trivial).bind fun _ => ?_
  exact .forM fun id _ => (ordinary_findDependencies id).plain

/-- Building a graph does not fail for a circle or a list that is left. -/
theorem isPlain_of_build {pipeline : Pipeline} {e : GraphError}
    (h : build pipeline = .error e) : e.IsPlain := by
  rw [build] at h
  split at h
  · cases hconstruct : construct pipeline (initial pipeline) with
    | ok u graph => simp [hconstruct] at h
    | error cause graph =>
      simp only [hconstruct] at h
      obtain rfl := Except.error.inj h
      exact plain_construct pipeline _ _ _ hconstruct
  · cases h
    trivial

/-- Taking over nodes only adds nodes. -/
theorem ordinary_adoptNodes (owner : String) (nodes : List Node) :
    FailsOrdinarily (nodes.mapM (adoptNode owner)) :=
  .mapM fun _ _ => (ordinary_addNode _).bind fun _ => .pure _

/-- Taking over edges only looks up the nodes they join. -/
theorem ordinary_adoptEdges (handles : List (NodeId × NodeId)) (edges : List Edge) :
    FailsOrdinarily (edges.mapM (adoptEdge handles)) :=
  .mapM fun _ _ => (ordinary_ofOption _).bind fun _ => (ordinary_ofOption _).bind fun _ => .pure _

/-! ### Preparing a graph -/

/-- A node is not replaced for something ordinary, or since the pipeline inside it, with the values of
the node laid over what is configured in it, is not prepared. -/
theorem failure_of_expandNode {prepare : GraphM Unit} {id : NodeId} {g g' : Graph} {e : GraphError}
    (h : expandNode prepare id g = .error e g') : e.IsOrdinary ∨
      ∃ node nested settings t, g.node? id = some node ∧ node.spec.nested? = some nested ∧
        configuration node.name g = .ok settings t ∧ prepareInner prepare
          { nested with configuration := nested.configuration.overlay settings } t = .error e g' := by
  rcases bind_eq_error.mp h with h | ⟨node, _, hat, h⟩
  · exact .inl (ordinary_nodeAt id _ _ _ h)
  obtain ⟨hnode, rfl⟩ := nodeAt_eq_ok.mp hat
  cases hnested : node.spec.nested? with
  | none => simp [hnested, pure, EStateM.pure] at h
  | some nested =>
    simp only [hnested] at h
    rcases bind_eq_error.mp h with h | ⟨settings, t, hsettings, h⟩
    · exact .inl (failsFor_configuration ordinary_resolveAt trivial _ _ _ h)
    rcases bind_eq_error.mp h with h | ⟨inner, t₁, -, h⟩
    · exact .inr ⟨node, nested, settings, t, hnode, hnested, hsettings, h⟩
    -- Once the inner graph is there, it is only taken over.
    rcases bind_eq_error.mp h with h | ⟨handles, t₂, -, h⟩
    · exact .inl (ordinary_adoptNodes _ _ _ _ _ h)
    rcases bind_eq_error.mp h with h | ⟨between, t₃, -, h⟩
    · exact .inl (ordinary_adoptEdges _ _ _ _ _ h)
    rcases bind_eq_error.mp h with h | ⟨_, _, hget, h⟩ <;> cases h

/-- A graph is not prepared since its nodes are not repeated or values not handed on, for something
ordinary, or since a node is not replaced. -/
theorem failure_of_prepareStages {options : CompileOptions} {prepare : GraphM Unit} {g g' : Graph}
    {e : GraphError} (h : prepareStages options prepare g = .error e g') :
    spread g = .error e g' ∨ e.IsOrdinary ∨ ∃ t, spread g = .ok () t ∧ options.expandNested ∧
      t.nestedIds.forM (expandNode prepare) t = .error e g' := by
  rw [prepareStages_eq] at h
  rcases bind_eq_error.mp h with h | ⟨_, t, hspread, h⟩
  · exact .inl h
  rcases bind_eq_error.mp h with h | ⟨_, t', -, h⟩
  · rw [expandWithin] at h
    split at h
    next hon =>
      rcases bind_eq_error.mp h with h | ⟨_, _, hget, h⟩
      · cases h
      obtain ⟨rfl, rfl⟩ := get_eq_ok.mp hget
      refine .inr (.inr ⟨t, hspread, hon, ?_⟩)
      rw [nestedIds]
      simpa using h
    next => cases h
  · exact .inr (.inl (failsFor_finalize ordinary_resolveAt _ _ _ h))

end Graph

end Pipework
