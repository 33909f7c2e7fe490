import Pipework.Proofs.LastHanded
import Pipework.Proofs.Singleness
import Pipework.Proofs.Strands

/-!
# The last edge to a parameter

The edges to a node are applied one behind another, in the order in which they stand in the graph. So a
parameter is left with what the last edge to it hands on, whatever has been handed on to it before, if
what is there by then gives way to that.
-/

namespace Pipework

open Step

namespace Graph

/-- As far as one parameter of a node is concerned, edges are applied in the order in which they stand in
the graph. -/
theorem filter_applicationOrder (g : Graph) {order : List Node} {id : NodeId} (key : String)
    (hnodup : (order.map (·.id)).Nodup) (hid : id ∈ order.map (·.id)) :
    (g.applicationOrder order).filter (g.passesAt (Edge.into id key)) =
      g.placesWhere (Edge.into id key) := by
  have hself : (g.incoming id).filter (g.passesAt (Edge.into id key)) =
      g.placesWhere (Edge.into id key) := by
    rw [incoming, filter_placesWhere]
    congr 1
    funext edge
    refine Bool.eq_iff_iff.mpr ⟨fun h => (Bool.and_eq_true_iff.mp h).2, fun h => ?_⟩
    rw [h, (Edge.into_iff.mp h).1, beq_self_eq_true]
    rfl
  have hother : ∀ other ≠ id, (g.incoming other).filter (g.passesAt (Edge.into id key)) = [] := by
    refine fun other hne => List.filter_eq_nil_iff.mpr fun place hplace hpass => ?_
    obtain ⟨edge, hedge, htarget⟩ := mem_incoming.mp hplace
    obtain ⟨edge', hedge', hinto⟩ := passesAt_iff.mp hpass
    obtain rfl := Option.some.inj (hedge.symm.trans hedge')
    exact hne (htarget.symm.trans (Edge.into_iff.mp hinto).1)
  have hnone : ∀ order : List Node, id ∉ order.map (·.id) →
      (g.applicationOrder order).filter (g.passesAt (Edge.into id key)) = [] := by
    intro order hnot
    rw [applicationOrder, List.filter_flatMap, List.flatMap_eq_nil_iff]
    exact fun node hn => hother node.id fun heq => hnot (heq ▸ List.mem_map_of_mem hn)
  obtain ⟨node, hn, rfl⟩ := List.mem_map.mp hid
  obtain ⟨before, behind, rfl⟩ := List.append_of_mem hn
  rw [List.map_append, List.map_cons, List.nodup_append, List.nodup_cons] at hnodup
  obtain ⟨-, ⟨hbehind, -⟩, hapart⟩ := hnodup
  have hbefore : node.id ∉ before.map (·.id) := fun hmem => hapart _ hmem _ List.mem_cons_self rfl
  have hcut : g.applicationOrder (before ++ node :: behind) =
      g.applicationOrder before ++ (g.incoming node.id ++ g.applicationOrder behind) := by
    rw [applicationOrder, List.flatMap_append, List.flatMap_cons]
    rfl
  rw [hcut, List.filter_append, List.filter_append, hnone before hbefore, hnone behind hbehind, hself,
    List.nil_append, List.append_nil]

theorem applied_of_configure {start last : Graph} {u : Unit} (h : configure start = .ok u last) :
    ∃ order, start.topologicalOrder = .ok order ∧
      (start.applicationOrder order).forM applyEdge start = .ok u last := by
  obtain ⟨_, _, hget, h⟩ := bind_eq_ok.mp h
  obtain ⟨rfl, rfl⟩ := get_eq_ok.mp hget
  obtain ⟨order, _, hat, h⟩ := bind_eq_ok.mp h
  obtain ⟨horder, rfl⟩ := ofExcept_eq_ok.mp hat
  exact ⟨order, horder, h⟩

/-- The last edge to the parameter of a node is this one, and when it has its turn the graph is this. -/
def LastTurn (repeated : Graph) (id : NodeId) (key : String) (edge : Edge) (g : Graph) : Prop :=
  ∃ order before place behind, repeated.topologicalOrder = .ok order ∧
    repeated.applicationOrder order = before ++ place :: behind ∧
    repeated.edges[place]? = some edge ∧ Feeds repeated.edges id key place ∧
    (∀ other ∈ behind, ¬ Feeds repeated.edges id key other) ∧
    before.forM applyEdge repeated = .ok () g

theorem LastTurn.unique {repeated g g' : Graph} {id : NodeId} {key : String} {edge edge' : Edge}
    (h : repeated.LastTurn id key edge g) (h' : repeated.LastTurn id key edge' g') :
    edge = edge' ∧ g = g' := by
  obtain ⟨order, before, place, behind, horder, hturn, hedge, hfeeds, hlast, hbefore⟩ := h
  obtain ⟨order', before', place', behind', horder', hturn', hedge', hfeeds', hlast', hbefore'⟩ := h'
  obtain rfl := Except.ok.inj (horder.symm.trans horder')
  obtain ⟨rfl, rfl⟩ := eq_of_append_last (hturn.symm.trans hturn') hfeeds hfeeds' hlast hlast'
  exact ⟨Option.some.inj (hedge.symm.trans hedge'),
    (EStateM.Result.ok.inj (hbefore.symm.trans hbefore')).2⟩

/-- The edge that stands last among those to a parameter is the last to have its turn. -/
theorem exists_lastTurn {repeated filled : Graph} {u : Unit} (hw : repeated.WellFormed)
    (hm : repeated.Mirrored) (hconfigure : configure repeated = .ok u filled) {id : NodeId} {key : String}
    {earlier : List Edge} {edge : Edge} (hfed : repeated.fed id key = earlier ++ [edge]) :
    ∃ g, repeated.LastTurn id key edge g := by
  obtain ⟨order, horder, hrun⟩ := applied_of_configure hconfigure
  obtain ⟨hordered, hids, -⟩ := ordered_of_topologicalOrder hw.closed horder
  have he : edge ∈ repeated.fed id key := by
    rw [hfed]
    exact List.mem_append_right _ (List.mem_singleton_self edge)
  obtain ⟨he, hinto⟩ := List.mem_filter.mp he
  obtain ⟨htarget, hfills⟩ := Edge.into_iff.mp hinto
  have hpasses : ∀ place, repeated.passesAt (Edge.into id key) place = true ↔
      Feeds repeated.edges id key place := fun place => by
    rw [passesAt_iff, Feeds]
    exact exists_congr fun other => and_congr_right fun _ => Edge.into_iff
  have hfilter := repeated.filter_applicationOrder key hordered.nodup
    ((hids id).mpr (htarget ▸ (hw.closed edge he).2))
  have hplaces := edges_placesWhere repeated (Edge.into id key)
  rw [← hfilter, ← fed, hfed, List.map_append] at hplaces
  have hsome : ∃ place ∈ repeated.applicationOrder order, Feeds repeated.edges id key place := by
    obtain ⟨place, hplace⟩ := List.mem_iff_getElem?.mp he
    have hfeeds : Feeds repeated.edges id key place := ⟨edge, hplace, htarget, hfills⟩
    exact ⟨place, (sequence_of_topologicalOrder hw horder).all place edge hplace, hfeeds⟩
  obtain ⟨before, place, behind, hturn, hfeeds, hlast⟩ := exists_append_last hsome
  -- Nothing is behind it in the graph either.
  have hnone : behind.filter (repeated.passesAt (Edge.into id key)) = [] :=
    List.filter_eq_nil_iff.mpr fun other hother hpass => hlast other hother ((hpasses other).mp hpass)
  rw [hturn, List.filter_append, List.filter_cons_of_pos ((hpasses place).mpr hfeeds), hnone,
    List.map_append] at hplaces
  have hedge : repeated.edges[place]? = some edge :=
    (List.cons.inj (List.append_inj_right' hplaces (by simp))).1
  rw [hturn] at hrun
  obtain ⟨_, g, _, -, -, -, hbefore, -⟩ := turn_of_forM hm hrun
  exact ⟨g, order, before, place, behind, horder, hturn, hedge, hfeeds, hlast, hbefore⟩

/-- When the last edge to a parameter has its turn, all has arrived at the node that it starts at. -/
theorem LastTurn.moment {repeated filled g : Graph} {u : Unit} {id : NodeId} {key : String} {edge : Edge}
    (h : repeated.LastTurn id key edge g) (hw : repeated.WellFormed) (hm : repeated.Mirrored)
    (hconfigure : configure repeated = .ok u filled) : ∃ before place behind g',
      repeated.edges[place]? = some edge ∧ edge.target = id ∧ Midway repeated before g ∧
      before.forM applyEdge repeated = .ok () g ∧ (place :: behind).forM applyEdge g = .ok u filled ∧
      Handed edge g g' ∧ behind.forM applyEdge g' = .ok u filled ∧ place ∉ before ∧
      (∀ other ∈ behind, ¬ Feeds repeated.edges id key other) ∧
      ∀ other ∈ place :: behind, ∀ key', ¬ Feeds repeated.edges edge.source key' other := by
  obtain ⟨order, before, place, behind, horder, hturn, hedge, hfeeds, hlast, hbefore⟩ := h
  obtain ⟨order', horder', hrun⟩ := applied_of_configure hconfigure
  obtain rfl := Except.ok.inj (horder.symm.trans horder')
  have hsequence := sequence_of_topologicalOrder hw horder
  have hnodup := hsequence.nodup
  rw [hturn] at hrun hnodup
  have hapart := (List.nodup_append.mp hnodup).2.2
  obtain ⟨found, g₁, g', hfound, hmid, hhanded, hbefore', hrest, hbehind⟩ := turn_of_forM hm hrun
  obtain ⟨-, rfl⟩ := EStateM.Result.ok.inj (hbefore.symm.trans hbefore')
  obtain rfl := Option.some.inj (hedge.symm.trans hfound)
  refine ⟨before, place, behind, g', hedge, ?_, hmid, hbefore, hrest, hhanded, hbehind,
    fun hmem => hapart place hmem place List.mem_cons_self rfl, hlast, ?_⟩
  · obtain ⟨other, hother, htarget, -⟩ := hfeeds
    rwa [Option.some.inj (hedge.symm.trans hother)]
  · rintro other hother key' ⟨earlier, hearlier, htarget, -⟩
    have hdone := hsequence.ready before place behind hturn edge hedge other earlier hearlier htarget
    exact hapart other hdone other hother rfl

section Ending

variable {options : CompileOptions} {prepare : GraphM Unit}
  {repeated filled expanded prepared g : Graph} {v w : Unit}
  (hconfigure : configure repeated = .ok v filled)
  (hexpand : expandWithin options prepare filled = .ok w expanded)
  (hfinalize : finalize expanded = .ok () prepared)

include hexpand hfinalize

/-- A node keeps what it has where none of the edges leads to that are still to be applied. -/
theorem kept_of_filled {waiting : List Nat} (hfilled : Filled repeated.edges waiting g filled)
    (hids : (g.nodes.map (·.id)).Nodup) {now node : Node} (hnow : now ∈ g.nodes)
    (hn : node ∈ prepared.nodes) (hid : node.id = now.id) (hlt : node.id < filled.nextId) {key : String}
    (hno : ∀ place ∈ waiting, ¬ Feeds repeated.edges node.id key place) :
    node.overrides.get? key = now.overrides.get? key := by
  obtain ⟨last, hlast, houtline, hown⟩ := exists_filled hexpand hfinalize hn hlt
  obtain ⟨-, hkept⟩ := hfilled.exists_node hids hnow hlast ((id_of_outline houtline).symm.trans hid)
  rw [hown, hkept key fun place hplace => hid ▸ hno place hplace]

include hconfigure

/-- A node at a moment, and when nodes had been repeated. -/
theorem exists_meanwhile {done : List Nat} (hw : repeated.WellFormed) (hmid : Midway repeated done g)
    {node : Node} (hn : node ∈ prepared.nodes) (hid : node.id ∈ repeated.nodes.map (·.id)) :
    ∃ now ∈ g.nodes, now.outline = node.outline ∧ ∃ first ∈ repeated.nodes, first.id = node.id ∧
      ∀ key, (∀ place ∈ done, ¬ Feeds repeated.edges node.id key place) →
        now.overrides.get? key = first.overrides.get? key := by
  obtain ⟨first, hfirst, hlook, -⟩ := exists_origin hexpand hfinalize hw.below hconfigure hn hid
  obtain ⟨now, hnow, hspared⟩ := exists_of_mem_left hmid.filled hfirst
  have hsame : first.id = node.id := (id_of_outline hlook).symm
  refine ⟨now, hnow, hspared.outline.trans hlook.symm, first, hfirst, hsame, fun key hno => ?_⟩
  refine hspared.values key ?_
  rintro ⟨place, hplace, hfeeds⟩
  exact hno place hplace (hsame ▸ hfeeds)

/-- A parameter that takes no files is left with what the last edge to it hands on, if that takes the
place of what is there by then. -/
theorem LastTurn.handed (hw : repeated.WellFormed) (hm : repeated.Mirrored) {edge : Edge}
    {link : DataLink} {target : Node} (h : repeated.LastTurn target.id link.targetProperty edge g)
    (hk : edge.kind = .data link) (hwhole : link.cardinality = .oneToOne)
    (ht : target ∈ prepared.nodes)
    (hfile : ∀ parameter ∈ target.parameter? link.targetProperty, parameter.isFile = false)
    (hyields : ∀ source, g.node? edge.source = some source → ∀ now ∈ g.nodes, now.id = target.id →
      Merge.Yields link [source.name, source.spec.id] (now.configured? link.targetProperty)) :
    ∃ current t, propertyValue edge.source link.sourceProperty g = .ok current t ∧
      target.configured? link.targetProperty = some (Merge.pick link (current.getD link.value)) := by
  obtain ⟨before, place, behind, g', hedge, hends, hmid, -, -, hhanded, hbehind, -, hlast, -⟩ :=
    h.moment hw hm hconfigure
  have hin := (hw.closed edge (List.mem_of_getElem? hedge)).2
  obtain ⟨now, hnow, houtline, -⟩ :=
    exists_meanwhile hconfigure hexpand hfinalize hw hmid ht (hends ▸ hin)
  have hid : now.id = target.id := id_of_outline houtline
  have hspec : now.spec = target.spec := spec_of_outline houtline
  obtain ⟨current, t, hread, hset⟩ := hhanded.exists_target hmid.mirrored.ids hk hwhole hnow
    (hid.trans hends.symm) (fun source hs => hyields source hs now hnow hid) (by
      rw [Node.parameter?, hspec]
      exact hfile)
  refine ⟨current, t, hread, ?_⟩
  -- No edge behind leads there.
  obtain ⟨-, hfilled, -⟩ := midway_of_forM (hmid.step hedge hhanded) hbehind
  have hnext : filled.nextId = repeated.nextId := (moves_configure.of_ok hconfigure).nextId
  rw [Node.configured?, kept_of_filled hexpand hfinalize hfilled (hhanded.inStep hmid.mirrored).1.ids
    hset ht hid.symm (hnext ▸ hw.below _ (hends ▸ hin)) hlast]
  have hvalue : (now.set link.targetProperty
      (Merge.pick link (current.getD link.value))).overrides.get? link.targetProperty =
        some (Merge.pick link (current.getD link.value)) :=
    (Settings.get?_insert _ _ _ _).trans (if_pos rfl)
  rw [hvalue, Option.some_or]

end Ending

end Graph

end Pipework
