import Mathlib.Data.Set.Finite.Basic
import Mathlib.Order.WellFounded
import Pipework.Graph.Edge

/-!
# Paths along edges

What it means that one node comes before another: a path of edges leads from the first to
the second. Edges without a circle are the same as edges along which some number rises,
and that number bounds the paths. Nothing here asks what the edges hand on.
-/

namespace Pipework.Graph

/-- An edge leads straight from one node to the other. -/
def Leads (edges : List Edge) (u v : NodeId) : Prop :=
  ∃ edge ∈ edges, edge.source = u ∧ edge.target = v

/-- A path of at least one edge leads from one node to the other. -/
abbrev Reaches (edges : List Edge) : NodeId → NodeId → Prop := Relation.TransGen (Leads edges)

/-- A path of at least two edges leads from one node to the other. -/
def Detour (edges : List Edge) (u v : NodeId) : Prop :=
  ∃ w, Leads edges u w ∧ Reaches edges w v

/-- No node comes before itself. -/
def Acyclic (edges : List Edge) : Prop := ∀ v, ¬ Reaches edges v v

/-- The rank of the target is always greater than that of the source. -/
def Rising (rank : NodeId → Nat) (edges : List Edge) : Prop :=
  ∀ edge ∈ edges, rank edge.source < rank edge.target

/-- Both ends of every edge are among the given nodes. -/
def Closed (ids : List NodeId) (edges : List Edge) : Prop :=
  ∀ edge ∈ edges, edge.source ∈ ids ∧ edge.target ∈ ids

/-- An edge leads from its source to its target. -/
theorem leads_of_mem {edges : List Edge} {edge : Edge} (h : edge ∈ edges) :
    Leads edges edge.source edge.target := ⟨edge, h, rfl, rfl⟩

theorem Leads.mono {edges more : List Edge} (h : edges ⊆ more) {u v : NodeId}
    (hl : Leads edges u v) : Leads more u v := by
  obtain ⟨edge, he, hs, ht⟩ := hl
  exact ⟨edge, h he, hs, ht⟩

/-- Among edges that join some nodes one comes from one of them to another. -/
theorem Leads.mem_closed {ids : List NodeId} {edges : List Edge} {u v : NodeId}
    (hl : Leads edges u v) (hc : Closed ids edges) : u ∈ ids ∧ v ∈ ids := by
  obtain ⟨edge, he, rfl, rfl⟩ := hl
  exact hc edge he

/-- With more edges no path is lost. -/
theorem Reaches.mono {edges more : List Edge} (h : edges ⊆ more) {u v : NodeId}
    (hr : Reaches edges u v) : Reaches more u v :=
  Relation.TransGen.mono (fun _ _ hl => Leads.mono h hl) _ _ hr

/-- A path is one edge, or an edge and a path behind it. -/
theorem reaches_iff_leads_or_detour {edges : List Edge} {u v : NodeId} :
    Reaches edges u v ↔ Leads edges u v ∨ Detour edges u v := by
  constructor
  · intro h
    obtain ⟨w, hw, hr⟩ := Relation.TransGen.head'_iff.mp h
    rcases Relation.reflTransGen_iff_eq_or_transGen.mp hr with rfl | hr
    · exact .inl hw
    · exact .inr ⟨w, hw, hr⟩
  · rintro (h | ⟨w, hw, hr⟩)
    · exact .single h
    · exact .head hw hr

/-- With more edges no detour is lost. -/
theorem Detour.mono {edges more : List Edge} (h : edges ⊆ more) {u v : NodeId}
    (hd : Detour edges u v) : Detour more u v := by
  obtain ⟨w, hw, hr⟩ := hd
  exact ⟨w, hw.mono h, Reaches.mono h hr⟩

/-- With fewer edges no circle comes about. -/
theorem Acyclic.mono {edges fewer : List Edge} (h : fewer ⊆ edges) (ha : Acyclic edges) :
    Acyclic fewer := fun v hr => ha v (Reaches.mono h hr)

theorem Closed.mono {ids : List NodeId} {edges fewer : List Edge} (h : fewer ⊆ edges)
    (hc : Closed ids edges) : Closed ids fewer := fun edge he => hc edge (h he)

/-- Along a path the rank grows by at least one. -/
theorem Rising.lt_of_reaches {rank : NodeId → Nat} {edges : List Edge}
    (h : Rising rank edges) {u v : NodeId} (hr : Reaches edges u v) : rank u < rank v := by
  induction hr with
  | single hl =>
    obtain ⟨edge, he, rfl, rfl⟩ := hl
    exact h edge he
  | tail _ hl ih =>
    obtain ⟨edge, he, rfl, rfl⟩ := hl
    exact ih.trans (h edge he)

/-- Edges along which a number rises make no circle. -/
theorem Rising.acyclic {rank : NodeId → Nat} {edges : List Edge} (h : Rising rank edges) :
    Acyclic edges := fun _ hr => lt_irrefl _ (h.lt_of_reaches hr)

/-- Without a circle, some node of any finite selection comes behind no other one of it. -/
theorem Acyclic.exists_first {edges : List Edge} (h : Acyclic edges) {ids : List NodeId}
    (hne : ids ≠ []) : ∃ v ∈ ids, ∀ u ∈ ids, ¬ Leads edges u v := by
  let before : { v // v ∈ ids } → { v // v ∈ ids } → Prop := fun u v => Reaches edges u v
  have : Finite { v // v ∈ ids } := ids.finite_toSet
  have : IsTrans _ before := ⟨fun _ _ _ huv hvw => Relation.TransGen.trans huv hvw⟩
  have : Std.Irrefl before := ⟨fun v => h v⟩
  have hwf : WellFounded before := Finite.wellFounded_of_trans_of_irrefl before
  obtain ⟨first, hfirst⟩ := List.exists_mem_of_ne_nil ids hne
  obtain ⟨v, -, hv⟩ := hwf.has_min Set.univ ⟨⟨first, hfirst⟩, trivial⟩
  exact ⟨v, v.2, fun u hu hl => hv ⟨u, hu⟩ trivial (.single hl)⟩

/-- In a relation without circles that stays among finitely many elements, every way goes on to
an end. -/
theorem exists_end {r : NodeId → NodeId → Prop} (h : ∀ v, ¬ Relation.TransGen r v v)
    {ids : List NodeId} (hc : ∀ u v, r u v → v ∈ ids) {u : NodeId} (hu : u ∈ ids) :
    ∃ v ∈ ids, Relation.ReflTransGen r u v ∧ ∀ w, ¬ r v w := by
  let behind : { v // v ∈ ids } → { v // v ∈ ids } → Prop := fun w v => Relation.TransGen r v w
  have : Finite { v // v ∈ ids } := ids.finite_toSet
  have : IsTrans _ behind := ⟨fun _ _ _ huv hvw => hvw.trans huv⟩
  have : Std.Irrefl behind := ⟨fun v => h v⟩
  have hwf : WellFounded behind := Finite.wellFounded_of_trans_of_irrefl behind
  suffices hall : ∀ v : { v // v ∈ ids }, ∃ w ∈ ids,
      Relation.ReflTransGen r v w ∧ ∀ x, ¬ r w x from hall ⟨u, hu⟩
  refine hwf.fix fun v ih => ?_
  by_cases hlast : ∃ w, r v w
  · obtain ⟨w, hw⟩ := hlast
    obtain ⟨x, hx, hpath, hend⟩ := ih ⟨w, hc v w hw⟩ (.single hw)
    exact ⟨x, hx, .head hw hpath, hend⟩
  · exact ⟨v, v.2, .refl, fun w hw => hlast ⟨w, hw⟩⟩

/-- From any node of a graph without circles a path leads on to one without successors. -/
theorem Acyclic.exists_exit {edges : List Edge} (h : Acyclic edges) {ids : List NodeId}
    (hc : Closed ids edges) {u : NodeId} (hu : u ∈ ids) :
    ∃ v ∈ ids, Relation.ReflTransGen (Leads edges) u v ∧ ∀ w, ¬ Leads edges v w := by
  refine exists_end h ?_ hu
  rintro _ _ ⟨edge, he, rfl, rfl⟩
  exact (hc edge he).2

/-- To any node of a graph without circles a path leads from one without predecessors. -/
theorem Acyclic.exists_entry {edges : List Edge} (h : Acyclic edges) {ids : List NodeId}
    (hc : Closed ids edges) {v : NodeId} (hv : v ∈ ids) :
    ∃ u ∈ ids, Relation.ReflTransGen (Leads edges) u v ∧ ∀ w, ¬ Leads edges w u := by
  have hback : ∀ w, ¬ Relation.TransGen (Function.swap (Leads edges)) w w := fun w hw =>
    h w (Relation.transGen_swap.mp hw)
  obtain ⟨u, hu, hpath, hend⟩ := @exists_end _ hback ids (by
    rintro _ _ ⟨edge, he, rfl, rfl⟩
    exact (hc edge he).1) v hv
  exact ⟨u, hu, Relation.reflTransGen_swap.mp hpath, hend⟩

end Pipework.Graph
