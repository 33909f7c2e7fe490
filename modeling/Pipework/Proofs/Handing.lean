import Pipework.Proofs.ApplicationOrder
import Pipework.Proofs.Reading

/-!
# Handing on values edge by edge

Every edge is applied once. When the turn of an edge comes, all edges to the node that it starts
at have had theirs, so what is handed on has arrived in full. What an edge leaves untouched stays:
a value of a node is another one than before only if an edge to it has had its turn.
-/

namespace Pipework

open Step Resolve

namespace Merge

/-- What is lifted into the errors of graphs came to its value. -/
theorem of_lift {x : Except ScopeError Value} {value : Value}
    (h : (do return some (← lift x)) = Except.ok (some value)) : x = .ok value := by
  cases x with
  | error e => cases h
  | ok w => rw [Option.some.inj (Except.ok.inj h)]

end Merge

namespace Graph

/-- What is known of the places of edges in the order in which these are applied. -/
structure Sequence (edges : List Edge) (places : List Nat) : Prop where
  /-- Each edge has one turn. -/
  nodup : places.Nodup
  /-- Each edge has a turn. -/
  all : ∀ place edge, edges[place]? = some edge → place ∈ places
  /-- The edges to the source of an edge come earlier. -/
  ready : ∀ before place behind, places = before ++ place :: behind → ∀ edge,
    edges[place]? = some edge → ∀ (other : Nat) earlier, edges[other]? = some earlier →
      earlier.target = edge.source → other ∈ before

/-- The places of the edges in the order in which they are applied are such a sequence. -/
theorem sequence_of_topologicalOrder {g : Graph} {order : List Node} (hw : g.WellFormed)
    (h : g.topologicalOrder = .ok order) : Sequence g.edges (g.applicationOrder order) := by
  obtain ⟨hordered, -, -⟩ := ordered_of_topologicalOrder hw.closed h
  have hrising := pairwise_applicationOrder g hordered.nodup
  have hall : ∀ place edge, g.edges[place]? = some edge → place ∈ g.applicationOrder order :=
    fun place edge hedge =>
      (mem_applicationOrder hw.closed h).mpr (List.getElem?_eq_some_iff.mp hedge).1
  refine ⟨nodup_of_pairwise_lt hrising, hall, fun before place behind heq edge hedge other earlier
    hother htarget => ?_⟩
  have hmem := hall other earlier hother
  rw [heq] at hrising hmem
  refine mem_before_of_lt hrising hmem (Prod.Lex.toLex_lt_toLex.mpr (.inl ?_))
  exact rankOf_lt hw.closed h hother hedge (htarget ▸ .refl)

/-- What handing on the value of an edge comes to. -/
inductive Handed (edge : Edge) (g : Graph) : Graph → Prop
  | order (hk : edge.kind = .after) : Handed edge g g
  | value {link : DataLink} {current : Option Value} {source target : Node} {value : Value}
      {t g' : Graph} (hk : edge.kind = .data link)
      (hv : propertyValue edge.source link.sourceProperty g = .ok current t)
      (hs : g.node? edge.source = some source) (ht : g.node? edge.target = some target)
      (hmerge : Merge.merge (.data link) target.name (target.configured? link.targetProperty)
        (target.declared? link.targetProperty)
        (located source target link (current.getD link.value)) [source.name, source.spec.id] =
          .ok (some value))
      (hset : setNodeValue edge.target link.targetProperty value t = .ok () g') : Handed edge g g'

/-- An edge that hands on a value leaves one. -/
theorem merge_ne_none {link : DataLink} {target : String} {existing? declared? : Option Value}
    {value : Value} {names : List String} :
    Merge.merge (.data link) target existing? declared? value names ≠ .ok none := by
  intro h
  have hsome : ∀ x : Except GraphError Value, (do return some (← x)) ≠ Except.ok none := by
    rintro (e | v) hx <;> cases hx
  rw [Merge.merge] at h
  cases hcard : link.cardinality with
  | manyToOne => simp only [hcard] at h; cases h
  | oneToOne | oneToMany | manyToMany =>
    simp only [hcard] at h
    exact hsome _ h

/-- The turn of an edge hands on what the edge is for. -/
theorem handed_of_applyEdge {place : Nat} {u : Unit} {g g' : Graph}
    (h : applyEdge place g = .ok u g') :
    ∃ edge, g.edges[place]? = some edge ∧ Handed edge g g' := by
  obtain ⟨edge, _, hat, h⟩ := bind_eq_ok.mp h
  obtain ⟨hedge, rfl⟩ := edgeAt_eq_ok.mp hat
  refine ⟨edge, hedge, ?_⟩
  cases hkind : edge.kind with
  | after =>
    simp only [hkind] at h
    obtain ⟨-, rfl⟩ := pure_eq_ok.mp h
    exact .order hkind
  | data link =>
    simp only [hkind] at h
    obtain ⟨current, t, hcurrent, h⟩ := bind_eq_ok.mp h
    obtain ⟨source, _, hat, h⟩ := bind_eq_ok.mp h
    obtain ⟨hsource, rfl⟩ := nodeAt_eq_ok.mp hat
    obtain ⟨target, _, hat, h⟩ := bind_eq_ok.mp h
    obtain ⟨htarget, rfl⟩ := nodeAt_eq_ok.mp hat
    obtain ⟨merged, _, hat, h⟩ := bind_eq_ok.mp h
    obtain ⟨hmerged, rfl⟩ := ofExcept_eq_ok.mp hat
    obtain ⟨memo, -, rfl⟩ := (moves_propertyValue _ _).of_ok hcurrent
    cases merged with
    | none => exact absurd hmerged merge_ne_none
    | some value => exact .value hkind hcurrent hsource htarget hmerged h

/-- Values of nodes differ at most where the edges at some places lead to. -/
def Filled (edges : List Edge) (places : List Nat) (g g' : Graph) : Prop :=
  Spares (fun id key => ∃ place ∈ places, Feeds edges id key place) g g'

/-- A graph while values are handed on, when the edges at some places have had their turn. -/
structure Midway (start : Graph) (done : List Nat) (g : Graph) : Prop where
  /-- The graph mirrors its nodes. -/
  mirrored : g.Mirrored
  /-- The edges stay. -/
  edges : g.edges = start.edges
  /-- Only where these edges lead to values may differ. -/
  filled : Filled start.edges done start g

/-- At first no edge has had its turn. -/
theorem midway_start {start : Graph} (hm : start.Mirrored) : Midway start [] start :=
  ⟨hm, rfl, refl_of (Spares _) start⟩

/-- What edges have filled is filled with more of them counted. -/
theorem Filled.mono {edges : List Edge} {places more : List Nat} {g g' : Graph}
    (h : Filled edges places g g') (hsub : places ⊆ more) : Filled edges more g g' := by
  refine List.Forall₂.imp (fun node node' hn => ⟨hn.outline, fun hno => hn.same fun key => ?_,
    fun key hno => hn.values key ?_⟩) h
  · exact fun ⟨place, hplace, hfeeds⟩ => hno key ⟨place, hsub hplace, hfeeds⟩
  · exact fun ⟨place, hplace, hfeeds⟩ => hno ⟨place, hsub hplace, hfeeds⟩

/-- What edges have filled one after the other they have filled together. -/
theorem Filled.trans {edges : List Edge} {places more : List Nat} {g g' g'' : Graph}
    (h : Filled edges places g g') (h' : Filled edges more g' g'') :
    Filled edges (places ++ more) g g'' :=
  trans_of (Spares _) (h.mono (List.subset_append_left _ _)) (h'.mono (List.subset_append_right _ _))

section Step

variable {start g g' : Graph} {place : Nat} {edge : Edge} (he : start.edges[place]? = some edge)
  (h : Handed edge g g')

include h

/-- The turn of an edge leaves all edges. -/
theorem Handed.edges : g'.edges = g.edges := by
  cases h with
  | order _ => rfl
  | value _ hv _ _ _ hset =>
    exact ((moves_setNodeValue _ _ _).of_ok hset).edges.trans ((moves_propertyValue _ _).of_ok hv).edges

/-- The turn of an edge keeps nodes and scopes in step. -/
theorem Handed.inStep : InStep g g' := by
  cases h with
  | order _ => exact refl_of InStep g
  | value _ hv _ _ _ hset =>
    exact trans_of InStep ((moves_propertyValue _ _).of_ok hv).inStep
      ((inStep_setNodeValue _ _ _).of_ok hset)

include he

/-- The turn of an edge fills what the edge leads to. -/
theorem Handed.filled : Filled start.edges [place] g g' := by
  cases h with
  | order _ => exact refl_of (Spares _) g
  | @value link _ _ _ _ _ _ hk hv _ _ _ hset =>
    refine trans_of (Spares _) ((moves_propertyValue _ _).of_ok hv).spares ?_
    refine (spares_setNodeValue ⟨place, List.mem_singleton_self _, edge, he, rfl, ?_⟩ _).of_ok hset
    exact ⟨link, hk, rfl⟩

/-- The turn of one more edge leads on. -/
theorem Midway.step {done : List Nat} (hd : Midway start done g) :
    Midway start (done ++ [place]) g' where
  mirrored := (h.inStep hd.mirrored).1
  edges := h.edges.trans hd.edges
  filled := hd.filled.trans (h.filled he)

end Step

/-- Applying the edges at some places one after another. -/
theorem midway_of_forM {start g g' : Graph} {done places : List Nat} {u : Unit}
    (hd : Midway start done g) (h : places.forM applyEdge g = .ok u g') :
    Midway start (done ++ places) g' ∧ Filled start.edges places g g' ∧ InStep g g' := by
  induction places generalizing done g with
  | nil =>
    obtain ⟨-, rfl⟩ := pure_eq_ok.mp h
    exact ⟨by rwa [List.append_nil], refl_of (Spares _) g, refl_of InStep g⟩
  | cons place places ih =>
    obtain ⟨_, t, hstep, h⟩ := bind_eq_ok.mp h
    obtain ⟨edge, hedge, hhanded⟩ := handed_of_applyEdge hstep
    rw [hd.edges] at hedge
    obtain ⟨hlast, hfilled, hinStep⟩ := ih (hd.step hedge hhanded) h
    rw [List.append_assoc] at hlast
    exact ⟨hlast, (hhanded.filled hedge).trans hfilled, trans_of InStep hhanded.inStep hinStep⟩

/-- The turn of an edge, when the edges at some places are applied one after another. -/
theorem turn_of_forM {start last : Graph} {before behind : List Nat} {place : Nat} {u : Unit}
    (hm : start.Mirrored) (h : (before ++ place :: behind).forM applyEdge start = .ok u last) :
    ∃ edge g g', start.edges[place]? = some edge ∧ Midway start before g ∧ Handed edge g g' ∧
      before.forM applyEdge start = .ok () g ∧ (place :: behind).forM applyEdge g = .ok u last ∧
      behind.forM applyEdge g' = .ok u last := by
  obtain ⟨g, hbefore, hrest⟩ := forM_append_eq_ok.mp h
  obtain ⟨_, g', hat, hbehind⟩ := bind_eq_ok.mp hrest
  have hmid : Midway start before g := (midway_of_forM (midway_start hm) hbefore).1
  obtain ⟨edge, hedge, hhanded⟩ := handed_of_applyEdge hat
  exact ⟨edge, g, g', hmid.edges ▸ hedge, hmid, hhanded, hbefore, hrest, hbehind⟩

section Configure

variable {start last : Graph} {u : Unit} (hw : start.WellFormed)
  (h : configure start = .ok u last)

include hw h

/-- Handing on all values applies the edges in such a sequence. -/
theorem configure_eq_ok : ∃ places, Sequence start.edges places ∧
    places.forM applyEdge start = .ok u last := by
  obtain ⟨_, _, hget, h⟩ := bind_eq_ok.mp h
  obtain ⟨rfl, rfl⟩ := get_eq_ok.mp hget
  obtain ⟨order, _, hat, h⟩ := bind_eq_ok.mp h
  obtain ⟨horder, rfl⟩ := ofExcept_eq_ok.mp hat
  exact ⟨_, sequence_of_topologicalOrder hw horder, h⟩

variable (hm : start.Mirrored)

include hm

/-- What holds at the start and goes on to hold whenever an edge is applied, all those to its source
having been applied, holds of the edges that have had their turn, and so in the end of all. -/
theorem configure_induction {P : List Nat → Graph → Prop} (hstart : P [] start)
    (hstep : ∀ done place edge g g', start.edges[place]? = some edge → place ∉ done →
      (∀ (other : Nat) earlier, start.edges[other]? = some earlier → earlier.target = edge.source →
        other ∈ done) →
      Midway start done g → P done g → Handed edge g g' → P (done ++ [place]) g') :
    ∃ places, Sequence start.edges places ∧ Midway start places last ∧ P places last := by
  obtain ⟨places, hsequence, hrun⟩ := configure_eq_ok hw h
  suffices hall : ∀ done rest g, places = done ++ rest → Midway start done g → P done g →
      rest.forM applyEdge g = .ok u last → Midway start places last ∧ P places last from
    ⟨places, hsequence, hall [] places start rfl (midway_start hm) hstart hrun⟩
  intro done rest g heq hmid hp hrest
  induction rest generalizing done g with
  | nil =>
    obtain ⟨-, rfl⟩ := pure_eq_ok.mp hrest
    rw [heq, List.append_nil]
    exact ⟨hmid, hp⟩
  | cons place rest ih =>
    obtain ⟨_, t, hat, hrest⟩ := bind_eq_ok.mp hrest
    obtain ⟨edge, hedge, hhanded⟩ := handed_of_applyEdge hat
    rw [hmid.edges] at hedge
    have hnew : place ∉ done := fun hmem =>
      (List.nodup_append.mp (heq ▸ hsequence.nodup)).2.2 place hmem place List.mem_cons_self rfl
    refine ih (done ++ [place]) t (by rw [heq, List.append_cons]) (hmid.step hedge hhanded) ?_ hrest
    exact hstep done place edge g t hedge hnew (hsequence.ready done place rest heq edge hedge)
      hmid hp hhanded

/-- The turn of an edge: those to its source have had theirs before, and what comes behind changes
values only where other edges lead to. -/
theorem moment_of_configure {place : Nat} {edge : Edge} (he : start.edges[place]? = some edge) :
    ∃ before g g' behind, Midway start before g ∧ Handed edge g g' ∧
      (∀ (other : Nat) earlier, start.edges[other]? = some earlier → earlier.target = edge.source →
        other ∈ before) ∧
      place ∉ before ∧ place ∉ behind ∧ (∀ other ∈ before, other ∉ behind) ∧
      Filled start.edges behind g' last ∧ InStep g' last := by
  obtain ⟨places, hsequence, hrun⟩ := configure_eq_ok hw h
  obtain ⟨before, behind, rfl⟩ := List.append_of_mem (hsequence.all place edge he)
  obtain ⟨other, g, g', hedge, hmid, hhanded, -, -, hbehind⟩ := turn_of_forM hm hrun
  obtain rfl := Option.some.inj (he.symm.trans hedge)
  obtain ⟨-, hfilled, hinStep⟩ := midway_of_forM (hmid.step he hhanded) hbehind
  obtain ⟨-, hnodup, hapart⟩ := List.nodup_append.mp hsequence.nodup
  refine ⟨before, g, g', behind, hmid, hhanded, hsequence.ready before place behind rfl edge he,
    ?_, (List.nodup_cons.mp hnodup).1, ?_, hfilled, hinStep⟩
  · exact fun hmem => hapart place hmem place List.mem_cons_self rfl
  · exact fun other hmem hmem' => hapart other hmem other (List.mem_cons_of_mem _ hmem') rfl

end Configure

end Graph

end Pipework
