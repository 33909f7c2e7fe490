import Pipework.Proofs.FittingEdges
import Pipework.Proofs.KeptScopes
import Pipework.Proofs.LastingScalars

/-!
# What is handed on last

A parameter that takes a single value is left with what the last edge to it hands on. If that is a
single element of a list it is a scalar, and if it is a whole value there are several only if there
were several at its source, when all had arrived there.
-/

namespace Pipework

open Step Resolve Value

namespace Merge

/-- A value that is handed on takes a place or is gathered. -/
theorem filled_or_gathered {link : DataLink} {target : String} {existing? declared? : Option Value}
    {value v : Value} {names : List String}
    (h : merge (.data link) target existing? declared? value names = .ok (some v)) :
    fill link existing? value names = .ok v ∨
      ((link.cardinality = .oneToMany ∨ link.cardinality = .manyToMany) ∧
        ∃ keep, gather link existing? declared? value names keep = .ok v) := by
  cases hc : link.cardinality with
  | oneToOne =>
    simp only [merge, hc] at h
    exact .inl (of_lift h)
  | oneToMany =>
    simp only [merge, hc] at h
    exact .inr ⟨.inl rfl, _, of_lift h⟩
  | manyToMany =>
    simp only [merge, hc] at h
    exact .inr ⟨.inr rfl, _, of_lift h⟩
  | manyToOne =>
    simp only [merge, hc] at h
    cases h

theorem isFlat_of_merge {takesMany turned : Prop} {link : DataLink} {target : String}
    {existing? declared? : Option Value} {value v : Value} {names : List String}
    (hlink : link.Fits takesMany turned) (hvalue : value.isFlat = true)
    (h : merge (.data link) target existing? declared? value names = .ok (some v)) :
    v.isFlat = true := by
  rcases filled_or_gathered h with hfill | ⟨-, keep, hgather⟩
  · refine (shapes_fill hfill).flat ?_
    cases hplace : link.splitIndex? with
    | none => rwa [pick_of_whole hplace]
    | some place =>
      have hscalar := (hlink.single (by rw [hplace]; rfl)).1
      exact isFlat_of_scalar (isList_of_pick hplace hscalar hvalue)
  · exact isFlat_of_gather hgather

end Merge

namespace Graph

section Handing

variable {many : NodeId → String → Prop} {turned : NodeId → Prop} {edge : Edge} {g g' : Graph}

/-- What a node hands on has no list in a list if the values have none. -/
theorem isFlat_handed {takesMany isTurned : Prop} {id : NodeId} {link : DataLink}
    {current : Option Value} (hg : g.scope.Flat) (hlink : link.Fits takesMany isTurned)
    (hv : propertyValue id link.sourceProperty g = .ok current g') (source target : Node) :
    (located source target link (current.getD link.value)).isFlat = true := by
  refine (shapes_located source target link _).flat ?_
  cases current with
  | none => exact hlink.flat
  | some v => exact flat_of_propertyValue hg hv v rfl

/-- Handing on a value keeps lists from lying in lists. -/
theorem Handed.flat (hm : g.Mirrored) (hg : g.scope.Flat) (hfit : edge.Fits many turned)
    (h : Handed edge g g') : g'.scope.Flat := by
  cases h with
  | order _ => exact hg
  | @value link current source target value t _ hk hv _ _ hmerge hset =>
    have hsame : SameButMemo g t := (moves_propertyValue _ _).of_ok hv
    have hlink := hfit link hk
    exact flat_of_setNodeValue (hsame.inStep hm).1 (hsame.flat hg)
      (Merge.isFlat_of_merge hlink (isFlat_handed hg hlink hv source target) hmerge) hset

/-- While values are handed on, no list comes to lie in a list. -/
theorem flat_of_applied {start : Graph} {places : List Nat} {u : Unit} (hm : start.Mirrored)
    (hflat : start.scope.Flat) (hfit : start.AllFit many turned)
    (h : places.forM applyEdge start = .ok u g) : g.scope.Flat := by
  refine (forM_keeps (P := fun t : Graph => t.edges = start.edges ∧ t.Mirrored ∧ t.scope.Flat)
    (fun place _ t v t' ht hstep => ?_) ⟨rfl, hm, hflat⟩ h).2.2
  obtain ⟨hedges, htm, htflat⟩ := ht
  obtain ⟨edge, hedge, hhanded⟩ := handed_of_applyEdge hstep
  exact ⟨hhanded.edges.trans hedges, (hhanded.inStep htm).1,
    hhanded.flat htm htflat (hfit edge (hedges ▸ List.mem_of_getElem? hedge))⟩

/-- An edge to a parameter that takes a single value leaves a single one there, if it hands on a
single element of a list or a single value. -/
theorem Handed.single (hm : g.Mirrored) (hg : g.scope.Flat) (hfit : edge.Fits many turned)
    {key : String} (hkey : edge.Fills key) (hone : ¬ many edge.target key)
    (hwhole : ∀ link, edge.kind = .data link → link.splitIndex? = none → ∀ source ∈ g.nodes,
      source.id = edge.source → ∀ current t,
        propertyValue source.id link.sourceProperty g = .ok current t →
          ∃ v, current = some v ∧ v.isSeveral = false) (h : Handed edge g g') :
    ∃ target, g.node? edge.target = some target ∧
      g'.scope.forest.Single (some target.name) key := by
  obtain ⟨link, hk, rfl⟩ := hkey
  cases h with
  | order hafter =>
    rw [hk] at hafter
    cases hafter
  | @value link' current source target value t _ hk' hv hs ht hmerge hset =>
    obtain rfl := EdgeKind.data.inj (hk.symm.trans hk')
    have hlink := hfit link hk
    have hsame : SameButMemo g t := (moves_propertyValue _ _).of_ok hv
    obtain ⟨hin, hid⟩ := id_of_node? ht
    refine ⟨target, ht, value, ?_, ?_⟩
    · have hat : target ∈ t.nodes := by
        obtain ⟨memo, -, rfl⟩ := hsame
        exact hin
      rw [← hid] at hset
      have htm := (hsame.inStep hm).1
      obtain ⟨scope, leaf, hs, hwrites, -⟩ := writes_of_setNodeValue htm hat hset
      rw [Forest.entry?_eq_held?, hwrites.held? htm.sound hs, if_pos ⟨rfl, rfl⟩]
      rfl
    · rcases Merge.filled_or_gathered hmerge with hfill | ⟨hc, -⟩
      · rw [(Merge.shapes_fill hfill).several]
        cases hplace : link.splitIndex? with
        | none =>
          obtain ⟨hsource, heq⟩ := id_of_node? hs
          obtain ⟨v, rfl, hsingle⟩ := hwhole link hk hplace source hsource heq current t (heq ▸ hv)
          rw [Merge.pick_of_whole hplace, (shapes_located source target link _).several]
          exact hsingle
        | some place =>
          have hscalar := (hlink.single (by rw [hplace]; rfl)).1
          exact isSeveral_of_scalar (Merge.isList_of_pick hplace hscalar
            (isFlat_handed hg hlink hv source target))
      · exact absurd (hlink.many hc) hone

end Handing

/-- A moment of handing on values at which all has arrived at a node. -/
def Moment (start filled : Graph) (source : NodeId) (g : Graph) : Prop :=
  ∃ (done later : List Nat) (u : Unit), Midway start done g ∧ Sticks (start.FeedsName done) start g ∧
    later.forM applyEdge g = .ok u filled ∧
      ∀ place ∈ later, ∀ key, ¬ Feeds start.edges source key place

theorem Moment.exists_node {start filled g : Graph} {source : NodeId}
    (h : Moment start filled source g) {node : Node} (hn : node ∈ g.nodes) :
    ∃ old ∈ start.nodes, old.id = node.id ∧ old.name = node.name := by
  obtain ⟨done, later, u, hmid, -⟩ := h
  obtain ⟨old, hold, houtline, -⟩ := Spares.exists_node hmid.filled hn
  exact ⟨old, hold, (id_of_outline houtline).symm, (name_of_outline houtline).symm⟩

section Ending

variable {options : CompileOptions} {inner : GraphM Unit} {start filled expanded prepared : Graph}
  {u v w : Unit} (hw : start.WellFormed) (hm : start.Mirrored)
  (hconfigure : configure start = .ok u filled)
  (hexpand : expandWithin options inner filled = .ok v expanded)
  (hfinalize : finalize expanded = .ok w prepared)

include hm hexpand hfinalize

/-- What has arrived at a node at such a moment does not change any more. -/
theorem Moment.fixed {source : NodeId} {g : Graph} (h : Moment start filled source g)
    {owner? : Option String} {key : String} (hdelivered : Delivered start source owner? key) :
    g.scope.forest.Fixed prepared.scope.forest owner? key := by
  obtain ⟨done, later, x, hmid, hsticks, hlater, hnone⟩ := h
  exact fixed_of_delivered hmid hlater hexpand hfinalize hsticks hm hnone hdelivered

include hw hconfigure

/-- What no edge leads to stays. -/
theorem fixed_of_unfed {node : Node} (hn : node ∈ start.nodes) {key : String}
    (hunfed : Unfed start.edges node.id key) :
    start.scope.forest.Fixed prepared.scope.forest (some node.name) key := by
  obtain ⟨places, -, hrun⟩ := configure_eq_ok hw hconfigure
  refine (sticks_of_moment (midway_start hm) hrun hexpand hfinalize).fixed hm fun owner howner => ?_
  obtain rfl := Option.some.inj howner
  obtain ⟨scope, hscope, -⟩ := hm.room node hn
  refine ⟨by rw [hscope]; rfl, ?_⟩
  rintro ⟨other, ho, hname, place, -, edge, hedge, htarget, hfills⟩
  obtain rfl := List.inj_on_of_nodup_map hm.names ho hn hname
  exact hunfed edge (List.mem_of_getElem? hedge) htarget hfills

/-- The last edge to a key is applied when all has arrived at its source, and what it leaves there
stays. -/
theorem exists_last_handed {many : NodeId → String → Prop} {turned : NodeId → Prop}
    (hflat : start.scope.Flat) (hfit : start.AllFit many turned) {node : Node} (hn : node ∈ start.nodes)
    {key : String} (hfed : ¬ Unfed start.edges node.id key) :
    ∃ edge ∈ start.edges, edge.target = node.id ∧ edge.Fills key ∧ ∃ g g', Handed edge g g' ∧
      Moment start filled edge.source g ∧ g.Mirrored ∧ g.scope.Flat ∧
      (∀ target, g.node? edge.target = some target → target.name = node.name) ∧
      g'.scope.forest.Fixed prepared.scope.forest (some node.name) key := by
  obtain ⟨places, hsequence, hrun⟩ := configure_eq_ok hw hconfigure
  have hsome : ∃ place ∈ places, Feeds start.edges node.id key place := by
    simp only [Unfed, not_forall, not_not] at hfed
    obtain ⟨edge, he, htarget, hfills⟩ := hfed
    obtain ⟨place, hplace⟩ := List.mem_iff_getElem?.mp he
    exact ⟨place, hsequence.all place edge hplace, edge, hplace, htarget, hfills⟩
  obtain ⟨before, place, behind, rfl, ⟨edge, hedge, htarget, hfills⟩, hlast⟩ := exists_append_last hsome
  obtain ⟨edge', g, g', hedge', hmid, hhanded, hbefore, hrest, hbehind⟩ := turn_of_forM hm hrun
  obtain rfl := Option.some.inj (hedge.symm.trans hedge')
  have hsticks : Sticks (start.FeedsName before) start g :=
    sticks_of_forM (midway_start hm) hbefore
  have hsame : ∀ other ∈ start.nodes, other.id = node.id → other = node := fun other ho hid =>
    List.inj_on_of_nodup_map hm.ids ho hn hid
  refine ⟨edge, List.mem_of_getElem? hedge, htarget, hfills, g, g', hhanded,
    ⟨before, place :: behind, u, hmid, hsticks, hrest, ?_⟩, hmid.mirrored,
    flat_of_applied hm hflat hfit hbefore, fun target ht => ?_, ?_⟩
  · rintro other hother k ⟨earlier, hearlier, hto, -⟩
    have hready := hsequence.ready before place behind rfl edge hedge other earlier hearlier hto
    exact (List.nodup_append.mp hsequence.nodup).2.2 other hready other hother rfl
  · obtain ⟨hin, hid⟩ := id_of_node? ht
    obtain ⟨old, hold, houtline, -⟩ := Spares.exists_node hmid.filled hin
    obtain rfl := hsame old hold ((id_of_outline houtline).symm.trans (hid.trans htarget))
    exact name_of_outline houtline
  · -- No edge behind leads there.
    refine (sticks_of_moment (hmid.step hedge hhanded) hbehind hexpand hfinalize).fixed
      (hhanded.inStep hmid.mirrored).1 fun owner howner => ?_
    obtain rfl := Option.some.inj howner
    obtain ⟨scope, hscope, -⟩ := hm.room node hn
    have hroom := (hsticks.scopes hm node.name (by rw [hscope]; rfl)).1
    have hlate : Sticks (start.FeedsName [place]) g g' :=
      hhanded.sticks hedge (List.mem_singleton_self _) hmid
    refine ⟨(hlate.scopes hmid.mirrored node.name hroom).1, ?_⟩
    rintro ⟨other, ho, hname, later, hlater, hfeeds⟩
    obtain rfl := List.inj_on_of_nodup_map hm.names ho hn hname
    exact hlast later hlater hfeeds

end Ending

end Graph

end Pipework
