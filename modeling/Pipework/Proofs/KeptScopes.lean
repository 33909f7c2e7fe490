import Pipework.Proofs.LastingValues

/-!
# Scopes that stay

Handing on values and putting in nodes changes no scope of the root but those of the nodes that
values are handed to. So from the moment on when all has arrived at a node its values are fixed, and
at any moment those of a scope are that nothing is handed to any more, be it the scope of a node that
was replaced.
-/

namespace Pipework

open Step Resolve

namespace Forest

theorem entry?_none (f : Forest) (key : String) : f.entry? none key = f.shared? key := rfl

/-- The value under a name and a key is what the scope there holds. -/
theorem entry?_eq_held? (f : Forest) (owner key : String) :
    f.entry? (some owner) key = (f.held? owner key).join := by
  rw [entry?_some, held?]
  cases f.leaf? owner key <;> rfl

/-- There is no scope under a name and a key just if none holds anything there. -/
theorem held?_eq_none {f : Forest} {owner key : String} :
    f.held? owner key = none ↔ f.leaf? owner key = none := by
  rw [held?, Option.map_eq_none_iff]

end Forest

namespace Graph

/-- Giving a node a value writes it to the scope of the node, and all is forgotten. -/
theorem writes_of_setNodeValue {g g' : Graph} {node : Node} (hm : g.Mirrored) (hn : node ∈ g.nodes)
    {key : String} {value : Value} {u : Unit} (h : setNodeValue node.id key value g = .ok u g') :
    ∃ scope leaf, g.scope.forest.child? Forest.root node.name = some scope ∧
      Forest.Writes scope key value leaf g.scope.forest g'.scope.forest ∧ g'.scope.memo = [] := by
  obtain ⟨scope, hs, -⟩ := hm.room node hn
  obtain ⟨id, tree, hput, rfl⟩ := (setNodeValue_eq_ok hm hn hs).mp h
  obtain ⟨leaf, hw, hmemo⟩ :=
    ScopeTree.put_eq_ok hm.sound (.inr (Forest.mem_of_child? hs).1) hput
  exact ⟨scope, leaf, hs, hw, hmemo⟩

/-- The scopes of the root stay, and where it is not allowed they hold nothing else than before. -/
structure Sticks (W : String → String → Prop) (g g' : Graph) : Prop where
  /-- Nodes and scopes stay in step. -/
  inStep : InStep g g'
  /-- A scope stays, with its keys, and its values differ only where that is allowed. -/
  scopes : g.Mirrored → ∀ owner, (g.scope.forest.child? Forest.root owner).isSome →
    (g'.scope.forest.child? Forest.root owner).isSome ∧ ∀ key,
      ((g.scope.forest.held? owner key).isSome → (g'.scope.forest.held? owner key).isSome) ∧
      (¬ W owner key → g'.scope.forest.held? owner key = g.scope.forest.held? owner key)

variable {W : String → String → Prop}

/-- Where no scope changes all values stick. -/
theorem sticks_of_forest {g g' : Graph} (hstep : InStep g g')
    (hforest : g'.scope.forest = g.scope.forest) : Sticks W g g' where
  inStep := hstep
  scopes _ owner ho := by
    rw [hforest]
    exact ⟨ho, fun key => ⟨id, fun _ => rfl⟩⟩

instance : Std.Refl (Sticks W) := ⟨fun g => sticks_of_forest (refl_of InStep g) rfl⟩

instance : IsTrans Graph (Sticks W) where
  trans g g' g'' h h' :=
    { inStep := trans_of InStep h.inStep h'.inStep
      scopes := fun hm owner ho => by
        obtain ⟨ho', hkeys⟩ := h.scopes hm owner ho
        obtain ⟨ho'', hkeys'⟩ := h'.scopes (h.inStep hm).1 owner ho'
        refine ⟨ho'', fun key => ⟨fun hheld => (hkeys' key).1 ((hkeys key).1 hheld), fun hno => ?_⟩⟩
        rw [(hkeys' key).2 hno, (hkeys key).2 hno] }

/-- Reading values leaves them all. -/
theorem SameButMemo.sticks {g g' : Graph} (h : SameButMemo g g') : Sticks W g g' := by
  have hstep := h.inStep
  obtain ⟨memo, -, rfl⟩ := h
  exact sticks_of_forest hstep rfl

/-- Taking a node out and adding edges leaves all values. -/
theorem sticks_replaceEdges (g : Graph) (id : NodeId) (edges : List Edge) :
    Sticks W g ((g.removeNode id).addEdges edges) :=
  sticks_of_forest (inStep_replaceEdges g id edges) rfl

/-- Adding a node leaves the values of all others. -/
theorem sticks_addNode {node : Node} {id : NodeId} {g g' : Graph} (h : addNode node g = .ok id g') :
    Sticks W g g' where
  inStep := inStep_addNode h
  scopes hm owner ho := by
    obtain ⟨hadds, -⟩ := addsScope_of_addNode hm.sound h
    have hne : owner ≠ node.name := by
      rintro rfl
      rw [hadds.fresh] at ho
      cases ho
    have hsame : ∀ key, g'.scope.forest.held? owner key = g.scope.forest.held? owner key :=
      fun key => (hadds.held owner key).trans (if_neg hne)
    exact ⟨by rwa [hadds.child owner hne], fun key => ⟨(hsame key ▸ ·), fun _ => hsame key⟩⟩

/-- Giving a node a value leaves all others. -/
theorem sticks_setNodeValue {g g' : Graph} {node : Node} (hn : node ∈ g.nodes) {key : String}
    (hw : W node.name key) {value : Value} {u : Unit}
    (h : setNodeValue node.id key value g = .ok u g') : Sticks W g g' where
  inStep := (inStep_setNodeValue _ _ _).of_ok h
  scopes hm owner ho := by
    obtain ⟨scope, leaf, hs, hwrites, -⟩ := writes_of_setNodeValue hm hn h
    refine ⟨by rwa [hwrites.child_root hm.sound hs], fun other => ?_⟩
    rw [hwrites.held? hm.sound hs]
    split
    next hboth => exact ⟨fun _ => rfl, fun hno => absurd (hboth.1 ▸ hboth.2 ▸ hw) hno⟩
    next => exact ⟨id, fun _ => rfl⟩

/-- Replacing nodes by those of their pipelines changes no scope that is there. -/
theorem sticks_expandWithin {options : CompileOptions} {prepare : GraphM Unit} {u : Unit}
    {g g' : Graph} (h : expandWithin options prepare g = .ok u g') : Sticks W g g' :=
  relates_expandWithin (fun _ _ h => h.sticks) sticks_replaceEdges (fun _ _ _ _ _ => sticks_addNode) h

/-- Where nothing else may be held than before, values are fixed. -/
theorem Sticks.fixed {g g' : Graph} (h : Sticks W g g') (hm : g.Mirrored) {owner? : Option String}
    {key : String} (howner : ∀ owner ∈ owner?,
      (g.scope.forest.child? Forest.root owner).isSome ∧ ¬ W owner key) :
    g.scope.forest.Fixed g'.scope.forest owner? key := by
  cases owner? with
  | none =>
    refine ⟨?_, by simp⟩
    rw [Forest.entry?_none, Forest.entry?_none, (h.inStep hm).2.2]
  | some owner =>
    obtain ⟨hroom, hno⟩ := howner owner rfl
    obtain ⟨-, hkeys⟩ := h.scopes hm owner hroom
    refine ⟨?_, fun name hname other hnone => ?_⟩
    · rw [Forest.entry?_eq_held?, Forest.entry?_eq_held?, (hkeys key).2 hno]
    · obtain rfl := Option.some.inj hname
      rw [← Forest.held?_eq_none] at hnone ⊢
      refine Option.not_isSome_iff_eq_none.mp fun hheld => ?_
      have hlater := (hkeys other).1 hheld
      rw [hnone] at hlater
      cases hlater

/-- Some of these edges lead to the key of the node of this name. -/
def FeedsName (start : Graph) (places : List Nat) (owner key : String) : Prop :=
  ∃ node ∈ start.nodes, node.name = owner ∧ ∃ place ∈ places, Feeds start.edges node.id key place

/-- The turn of an edge leaves all values but the one that is handed on. -/
theorem Handed.sticks {start g g' : Graph} {done places : List Nat} {place : Nat} {edge : Edge}
    (he : start.edges[place]? = some edge) (hp : place ∈ places) (hd : Midway start done g)
    (h : Handed edge g g') : Sticks (start.FeedsName places) g g' := by
  cases h with
  | order _ => exact refl_of (Sticks _) g
  | @value link _ _ target _ t _ hk hv _ ht _ hset =>
    have hsame := (moves_propertyValue edge.source link.sourceProperty).of_ok hv
    obtain ⟨hin, hid⟩ := id_of_node? ht
    obtain ⟨old, hold, houtline, -⟩ := Spares.exists_node hd.filled hin
    have hat : target ∈ t.nodes := by
      obtain ⟨memo, -, rfl⟩ := hsame
      exact hin
    rw [← hid] at hset
    refine trans_of (Sticks _) hsame.sticks (sticks_setNodeValue hat ⟨old, hold, ?_, place, hp, edge,
      he, ?_, link, hk, rfl⟩ hset)
    · exact (name_of_outline houtline).symm
    · rw [← hid]
      exact id_of_outline houtline

/-- Applying edges changes no scope but those that they lead to. -/
theorem sticks_of_forM {start g g' : Graph} {done places : List Nat} {u : Unit}
    (hd : Midway start done g) (h : places.forM applyEdge g = .ok u g') :
    Sticks (start.FeedsName places) g g' := by
  suffices hall : ∀ rest done g, Midway start done g → rest ⊆ places →
      rest.forM applyEdge g = .ok u g' → Sticks (start.FeedsName places) g g' from
    hall places done g hd (List.Subset.refl _) h
  intro rest
  induction rest with
  | nil =>
    intro done g _ _ h
    obtain ⟨-, rfl⟩ := pure_eq_ok.mp h
    exact refl_of (Sticks _) g
  | cons place rest ih =>
    intro done g hd hsub h
    obtain ⟨_, t, hstep, h⟩ := bind_eq_ok.mp h
    obtain ⟨edge, hedge, hhanded⟩ := handed_of_applyEdge hstep
    rw [hd.edges] at hedge
    exact trans_of (Sticks _) (hhanded.sticks hedge (hsub (List.mem_cons_self ..)) hd)
      (ih _ _ (hd.step hedge hhanded) (fun _ hp => hsub (List.mem_cons_of_mem _ hp)) h)

/-- The values that do not change any more once all has arrived at a node: those of that node, those
of scopes that were there after nodes were repeated and that no edge leads to, and what all nodes
share. -/
def Delivered (repeated : Graph) (source : NodeId) : Option String → String → Prop
  | some owner, key => (repeated.scope.forest.child? Forest.root owner).isSome ∧
      ∀ node ∈ repeated.nodes, node.name = owner →
        node.id = source ∨ Unfed repeated.edges node.id key
  | none, _ => True

section Moment

variable {options : CompileOptions} {inner : GraphM Unit} {start g filled expanded prepared : Graph}
  {done later : List Nat} {u v w : Unit} (hd : Midway start done g)
  (hlater : later.forM applyEdge g = .ok u filled)
  (hexpand : expandWithin options inner filled = .ok v expanded)
  (hfinalize : finalize expanded = .ok w prepared)

include hd hlater hexpand hfinalize

/-- Between a moment of handing on values and the end, scopes stay but where edges still lead. -/
theorem sticks_of_moment : Sticks (start.FeedsName later) g prepared := by
  have hforest := (pending_of_finalize hfinalize).1
  refine trans_of (Sticks _) (trans_of (Sticks _) (sticks_of_forM hd hlater)
    (sticks_expandWithin hexpand)) (sticks_of_forest ?_ hforest)
  exact fun hm => ⟨(settled_of_finalize hm hfinalize).1, fun owner key v hv => ⟨v, hforest ▸ hv⟩,
    fun name => by rw [hforest]⟩

/-- From the moment on when all has arrived at a node, what has arrived is fixed. -/
theorem fixed_of_delivered (hstart : Sticks (start.FeedsName done) start g) (hm : start.Mirrored)
    {source : NodeId} (harrived : ∀ place ∈ later, ∀ key, ¬ Feeds start.edges source key place)
    {owner? : Option String} {key : String} (h : Delivered start source owner? key) :
    g.scope.forest.Fixed prepared.scope.forest owner? key := by
  refine (sticks_of_moment hd hlater hexpand hfinalize).fixed hd.mirrored fun owner howner => ?_
  obtain rfl := Option.mem_def.mp howner
  refine ⟨(hstart.scopes hm owner h.1).1, ?_⟩
  rintro ⟨node, hn, hname, place, hplace, hfeeds⟩
  rcases h.2 node hn hname with rfl | hunfed
  · exact harrived place hplace key hfeeds
  · obtain ⟨edge, hedge, htarget, hfills⟩ := hfeeds
    exact hunfed edge (List.mem_of_getElem? hedge) htarget hfills

end Moment

end Graph

end Pipework
