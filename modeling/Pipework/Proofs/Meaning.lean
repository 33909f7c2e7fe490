import Pipework.Proofs.Reading

/-!
# What is remembered is meant

As long as no scope is added, references lead where they led. What is remembered of values is then
what these mean: a write makes all be forgotten, and a resolution remembers nothing else. So from
when a graph is built until it is prepared, what is read of a value is what it means at the time.
-/

namespace Pipework

open Step Resolve

namespace Forest

/-- The forests have the same scopes, whatever values these hold. -/
structure SameScopes (f f' : Forest) : Prop where
  /-- There are as many scopes. -/
  size : f'.size = f.size
  /-- They have the same names. -/
  name? : ∀ id, f'.name? id = f.name? id
  /-- They lie in the same scopes. -/
  parent? : ∀ id, f'.parent? id = f.parent? id
  /-- The same scopes lie in them. -/
  children : ∀ id, f'.children id = f.children id

section SameScopes

variable {f f' : Forest} (h : f.SameScopes f')

include h

/-- The same scopes are found under a name in a scope. -/
theorem SameScopes.child? (id : ScopeId) (name : String) : f'.child? id name = f.child? id name := by
  rw [Forest.child?, Forest.child?, h.children]
  simp only [h.name?]

/-- The same scopes are found under a name and a key. -/
theorem SameScopes.leaf? (owner key : String) : f'.leaf? owner key = f.leaf? owner key := by
  rw [Forest.leaf?, Forest.leaf?, h.child?]
  simp only [h.child?]

/-- Going outwards one comes through the same scopes. -/
theorem SameScopes.chain (id : ScopeId) : f'.chain id = f.chain id := by
  have hsteps : ∀ steps id, f'.chainWithin steps id = f.chainWithin steps id := by
    intro steps
    induction steps with
    | zero => exact fun _ => rfl
    | succ steps ih =>
      intro id
      rw [chainWithin, chainWithin, h.parent?]
      simp only [ih]
  exact hsteps id id

/-- The same scopes are found level by level. -/
theorem SameScopes.findWithin (name : String) (levels : Nat) (scopes : List ScopeId) :
    f'.findWithin name levels scopes = f.findWithin name levels scopes := by
  have hchildren : f'.children = f.children := funext h.children
  induction levels generalizing scopes with
  | zero => rfl
  | succ levels ih =>
    rw [Forest.findWithin, Forest.findWithin, ih, hchildren]
    simp only [h.name?]

/-- A name in a reference leads to the same scope. -/
theorem SameScopes.anchor? (start : ScopeId) (name : String) :
    f'.anchor? start name = f.anchor? start name := by
  have hat : f'.findAt? name = f.findAt? name := by
    funext id
    rw [findAt?, findAt?, h.parent?, h.name?, h.child?]
  have hbelow : ∀ id, f'.findBelow? id name = f.findBelow? id name := by
    intro id
    rw [findBelow?, findBelow?, h.size, h.children, h.findWithin]
  rw [Forest.anchor?, Forest.anchor?, h.child?, h.chain, h.chain, h.parent?, hat]
  simp only [hbelow]

end SameScopes

/-- Setting a value leaves the scopes. -/
theorem sameScopes_setEntry (f : Forest) (target : ScopeId) (entry : Entry) :
    f.SameScopes (f.setEntry target entry) where
  size := List.length_modify _ _ _
  name? := name?_setEntry f target entry
  parent? := parent?_setEntry f target entry
  children := children_setEntry f target entry

/-- The forests have the same scopes, and the same of them hold values, though not the same ones. -/
structure Alike (f f' : Forest) : Prop where
  /-- There are as many scopes. -/
  size : f'.size = f.size
  /-- They have the same names. -/
  name? : ∀ id, f'.name? id = f.name? id
  /-- They lie in the same scopes. -/
  parent? : ∀ id, f'.parent? id = f.parent? id
  /-- The same scopes lie in them. -/
  children : ∀ id, f'.children id = f.children id
  /-- The same of them hold values. -/
  holds : ∀ id, (f'.raw? id).isSome = (f.raw? id).isSome

instance : Std.Refl Alike :=
  ⟨fun _ => ⟨rfl, fun _ => rfl, fun _ => rfl, fun _ => rfl, fun _ => rfl⟩⟩

instance : IsTrans Forest Alike where
  trans _ _ _ h h' :=
    ⟨h'.size.trans h.size, fun id => (h'.name? id).trans (h.name? id),
      fun id => (h'.parent? id).trans (h.parent? id),
      fun id => (h'.children id).trans (h.children id),
      fun id => (h'.holds id).trans (h.holds id)⟩

section Alike

variable {f f' : Forest} (h : f.Alike f')

include h

/-- Forests that are alike have the same scopes. -/
theorem Alike.sameScopes : f.SameScopes f' := ⟨h.size, h.name?, h.parent?, h.children⟩

/-- In forests that are alike, the same scope is found under a name and a key. -/
theorem Alike.leaf? (owner key : String) : f'.leaf? owner key = f.leaf? owner key :=
  h.sameScopes.leaf? owner key

/-- In forests that are alike, the ways down are the same. -/
theorem Alike.descend? (id : ScopeId) (path : List String) :
    f'.descend? id path = f.descend? id path := by
  induction path generalizing id with
  | nil => rfl
  | cons segment rest ih =>
    rw [Forest.descend?, Forest.descend?, h.sameScopes.child?, h.holds]
    simp only [ih]

/-- References lead where they led. -/
theorem Alike.lookup? (start : ScopeId) (path : List String) :
    f'.lookup? start path = f.lookup? start path := by
  cases path with
  | nil => rfl
  | cons first rest =>
    rw [Forest.lookup?, Forest.lookup?, h.sameScopes.anchor?]
    simp only [h.descend?]

end Alike

/-- Giving a scope that holds a value another one leaves the forest alike. -/
theorem alike_setEntry {f : Forest} {leaf : ScopeId} (hleaf : (f.raw? leaf).isSome) (entry : Entry) :
    f.Alike (f.setEntry leaf entry) where
  size := List.length_modify _ _ _
  name? := name?_setEntry f leaf entry
  parent? := parent?_setEntry f leaf entry
  children := children_setEntry f leaf entry
  holds id := by
    rw [raw?_setEntry]
    split
    next hat => rw [hat.1, hleaf, Option.isSome_some]
    next => rfl

/-- The value of a scope that holds one is replaced. -/
theorem raw?_setEntry_of_isSome {f : Forest} {leaf : ScopeId} (hleaf : (f.raw? leaf).isSome)
    (entry : Entry) (id : ScopeId) :
    (f.setEntry leaf entry).raw? id = if id = leaf then some entry.raw else f.raw? id := by
  rw [raw?_setEntry]
  by_cases hid : id = leaf
  · rw [if_pos ⟨hid, hid ▸ lt_size_of_raw? hleaf⟩, if_pos hid]
  · rw [if_neg fun hboth => hid hboth.1, if_neg hid]

/-- What is written behind the two segments that lead to a value does not matter for where they
lead. -/
theorem lookup?_behind {f : Forest} (hf : f.Sound) {start leaf : ScopeId} {owner key : String}
    {fields : List String} (h : f.lookup? start (owner :: key :: fields) = some (leaf, 2))
    (hleaf : (f.raw? leaf).isSome) (others : List String) :
    f.lookup? start (owner :: key :: others) = some (leaf, 2) := by
  obtain ⟨anchor, hanchor, h⟩ := Option.bind_eq_some_iff.mp h
  obtain ⟨found, hfound, h⟩ := Option.bind_eq_some_iff.mp h
  obtain ⟨rfl, hcount⟩ := Prod.mk.inj (Option.some.inj h)
  have hone : found.2 = 1 := Nat.succ.inj hcount
  have hnext : f.child? anchor key = some found.1 := by
    rw [descend?] at hfound
    cases hchild : f.child? anchor key with
    | none =>
      simp only [hchild] at hfound
      split at hfound
      next =>
        rw [← Option.some.inj hfound] at hone
        cases hone
      next => cases hfound
    | some next =>
      simp only [hchild] at hfound
      obtain ⟨last, hlast, rfl⟩ := Option.map_eq_some_iff.mp hfound
      have hzero : last.2 = 0 := Nat.succ.inj hone
      -- Had the fields led further, more than two segments would have been used.
      cases fields with
      | nil => rw [← Option.some.inj hlast]
      | cons segment rest =>
        rw [descend?] at hlast
        cases hdeeper : f.child? next segment with
        | some deeper =>
          simp only [hdeeper] at hlast
          obtain ⟨end?, -, rfl⟩ := Option.map_eq_some_iff.mp hlast
          cases hzero
        | none =>
          simp only [hdeeper] at hlast
          split at hlast
          next => rw [← Option.some.inj hlast]
          next => cases hlast
  rw [lookup?, hanchor]
  simp [descend?, hnext, descend?_of_raw? hf hleaf]

end Forest

namespace Graph

/-- What is remembered of values is what they mean. -/
def Truthful (graph : Graph) : Prop := Resolve.Truthful graph.scope.forest graph.scope.memo

/-- Where nothing is remembered, all that is remembered is meant. -/
theorem truthful_of_memo {g : Graph} (h : g.scope.memo = []) : g.Truthful := by
  intro id v hv
  rw [h] at hv
  cases hv

/-- What is learned without changing scopes is meant. -/
theorem Truthful.of_learns {g g' : Graph} (h : g.Truthful)
    (hforest : g'.scope.forest = g.scope.forest)
    (hlearns : Learns g.scope.forest [] g.scope.memo g'.scope.memo) : g'.Truthful := by
  rw [Truthful, hforest]
  exact hlearns.truthful h

/-- What is remembered is still meant when values were read. -/
theorem Truthful.of_sameButMemo {g g' : Graph} (h : g.Truthful) (hsame : SameButMemo g g') :
    g'.Truthful := by
  obtain ⟨memo, hlearns, rfl⟩ := hsame
  exact h.of_learns rfl hlearns

/-- What is remembered is still meant when it was found out what a node is repeated for. -/
theorem Truthful.of_plans {g g' : Graph} (h : g.Truthful) (hplans : Plans g g') : g'.Truthful := by
  obtain ⟨memo, edges, hlearns, -, rfl⟩ := hplans
  exact h.of_learns rfl hlearns

/-- What is remembered is still meant when edges were added. -/
theorem Truthful.of_addsEdges {g g' : Graph} (h : g.Truthful) (hadds : AddsEdges g g') :
    g'.Truthful := h.of_learns hadds.forest hadds.learns

/-- What is remembered of a value is what it means. -/
theorem Truthful.means {g : Graph} (h : g.Truthful) {owner key : String} {v : Value}
    (hv : Remembers g.scope owner key v) {leaf : ScopeId}
    (hleaf : g.scope.forest.leaf? owner key = some leaf) : Means g.scope.forest leaf v := by
  obtain ⟨other, hother, -, hlookup⟩ := hv
  obtain rfl := Option.some.inj (hleaf.symm.trans hother)
  exact h leaf v hlookup

/-- After a value was put in, nothing is remembered. -/
theorem memo_of_put {scope id : ScopeId} {key : String} {value : Value} {tree tree' : ScopeTree}
    (h : ScopeTree.put scope key value tree = .ok id tree') : tree'.memo = [] := by
  have hstored : ∀ {leaf : ScopeId} {t t' : ScopeTree}, (do
      ScopeTree.setValue leaf value
      return leaf : ScopeM ScopeId) t = .ok id t' → t'.memo = [] := by
    intro leaf t t' h
    obtain ⟨_, _, hstore, h⟩ := bind_eq_ok.mp h
    obtain ⟨-, rfl⟩ := pure_eq_ok.mp h
    obtain ⟨-, kept, rfl⟩ := ScopeTree.store_eq_ok hstore
    rfl
  obtain ⟨_, _, hget, h⟩ := bind_eq_ok.mp h
  obtain ⟨rfl, rfl⟩ := get_eq_ok.mp hget
  cases hchild : tree.forest.child? scope key with
  | some known =>
    simp only [hchild] at h
    obtain ⟨leaf, _, -, h⟩ := bind_eq_ok.mp h
    exact hstored h
  | none =>
    simp only [hchild] at h
    obtain ⟨leaf, _, -, h⟩ := bind_eq_ok.mp h
    exact hstored h

/-- A write makes all be forgotten. -/
theorem memo_of_onScope_put {scope : ScopeId} {key : String} {value : Value} {u : Unit}
    {g g' : Graph} (h : (do
      let _ ← onScope (ScopeTree.put scope key value) : GraphM Unit) g = .ok u g') :
    g'.scope.memo = [] := by
  obtain ⟨id, _, hat, hpure⟩ := bind_eq_ok.mp h
  obtain ⟨-, rfl⟩ := pure_eq_ok.mp hpure
  obtain ⟨tree, hput, rfl⟩ := onScope_eq_ok.mp hat
  exact memo_of_put hput

/-- Adding a node brings nothing to remember. -/
theorem memo_of_addNode {node : Node} {id : NodeId} {g g' : Graph} (hg : g.scope.memo = [])
    (h : addNode node g = .ok id g') : g'.scope.memo = [] := by
  obtain ⟨scope, g₁, hscope, h⟩ := bind_eq_ok.mp h
  obtain ⟨_, g₂, hputs, h⟩ := bind_eq_ok.mp h
  obtain ⟨_, _, hget, h⟩ := bind_eq_ok.mp h
  obtain ⟨rfl, rfl⟩ := get_eq_ok.mp hget
  obtain ⟨_, _, hmodify, h⟩ := bind_eq_ok.mp h
  obtain rfl := modify_eq_ok.mp hmodify
  obtain ⟨-, rfl⟩ := pure_eq_ok.mp h
  obtain ⟨tree, hcreate, rfl⟩ := onScope_eq_ok.mp hscope
  obtain ⟨-, -, -, -, rfl⟩ := ScopeTree.createChild_eq_ok hcreate
  have hafter : g₂.scope.memo = [] := by
    refine forM_keeps (P := fun t : Graph => t.scope.memo = [])
      (fun _ _ _ _ _ _ hstep => memo_of_onScope_put hstep) ?_ hputs
    exact hg
  exact hafter

/-- Putting in what all jobs may refer to brings nothing to remember. -/
theorem memo_of_addGlobals {pipeline : Pipeline} {u : Unit} {g g' : Graph}
    (hg : g.scope.memo = []) (h : addGlobals pipeline g = .ok u g') : g'.scope.memo = [] := by
  obtain ⟨_, t, hfirst, hsecond⟩ := bind_eq_ok.mp h
  have ht : t.scope.memo = [] := forM_keeps (P := fun t : Graph => t.scope.memo = [])
    (fun _ _ _ _ _ _ hstep => memo_of_onScope_put hstep) hg hfirst
  refine forM_keeps (P := fun t : Graph => t.scope.memo = []) ?_ ht hsecond
  rintro parameter - t v t' ht hstep
  cases hset : pipeline.configuration.get? parameter.name with
  | some value =>
    simp only [hset] at hstep
    obtain ⟨-, rfl⟩ := pure_eq_ok.mp hstep
    exact ht
  | none =>
    cases hdefault : parameter.default? with
    | none =>
      simp only [hset, hdefault] at hstep
      obtain ⟨-, rfl⟩ := pure_eq_ok.mp hstep
      exact ht
    | some value =>
      simp only [hset, hdefault] at hstep
      exact memo_of_onScope_put hstep

/-- What is remembered in a graph as it is built is what values mean there. -/
theorem truthful_build {pipeline : Pipeline} {graph : Graph} (h : build pipeline = .ok graph) :
    graph.Truthful := by
  obtain ⟨g₁, ids, g₂, g₃, -, hglobals, hnodes, hafter, hdeps⟩ := build_eq_ok h
  have hfirst : g₁.scope.memo = [] := memo_of_addGlobals rfl hglobals
  have hsecond : g₂.scope.memo = [] := mapM_keeps (P := fun t : Graph => t.scope.memo = [])
    (fun _ _ _ _ _ ht hstep => memo_of_addNode ht hstep) hfirst hnodes
  have hadds : AddsEdges g₂ g₃ := (Moves.forM fun entry _ => moves_afterEdges _ _).of_ok hafter
  have hmore : AddsEdges g₃ graph := (Moves.forM fun id _ => moves_findDependencies id).of_ok hdeps
  exact ((truthful_of_memo hsecond).of_addsEdges hadds).of_addsEdges hmore

/-- Giving a node a value under a key that it has puts the value there, and all is forgotten. -/
theorem forest_of_setNodeValue {g g' : Graph} {node : Node} (hm : g.Mirrored) (hn : node ∈ g.nodes)
    {key : String} {leaf : ScopeId} (hleaf : g.scope.forest.leaf? node.name key = some leaf)
    {value : Value} {u : Unit} (h : setNodeValue node.id key value g = .ok u g') :
    g'.scope.memo = [] ∧ ∃ kept, g'.scope.forest = g.scope.forest.setEntry leaf ⟨value, kept⟩ := by
  obtain ⟨scope, hs, hchild⟩ := Option.bind_eq_some_iff.mp hleaf
  obtain ⟨id, tree, hput, rfl⟩ := (setNodeValue_eq_ok hm hn hs).mp h
  refine ⟨memo_of_put hput, ?_⟩
  obtain ⟨_, _, hget, hput⟩ := bind_eq_ok.mp hput
  obtain ⟨rfl, rfl⟩ := get_eq_ok.mp hget
  simp only [hchild] at hput
  obtain ⟨other, _, hother, hput⟩ := bind_eq_ok.mp hput
  obtain ⟨rfl, rfl⟩ := pure_eq_ok.mp hother
  obtain ⟨_, _, hstore, hput⟩ := bind_eq_ok.mp hput
  obtain ⟨-, rfl⟩ := pure_eq_ok.mp hput
  obtain ⟨-, kept, rfl⟩ := ScopeTree.store_eq_ok hstore
  exact ⟨kept, rfl⟩

/-- Resolving all values remembers what they mean. -/
theorem truthful_of_finalize {u : Unit} {g g' : Graph} (hg : g.Truthful)
    (h : finalize g = .ok u g') : g'.Truthful := by
  obtain ⟨_, _, hget, h⟩ := bind_eq_ok.mp h
  obtain ⟨rfl, rfl⟩ := get_eq_ok.mp hget
  refine forM_keeps (P := Truthful) (fun node _ t v t' ht hstep => ?_) hg h
  obtain ⟨resolved, middle, hresolve, hstep⟩ := bind_eq_ok.mp hstep
  obtain rfl := modify_eq_ok.mp hstep
  have hmiddle : middle.Truthful := ht.of_sameButMemo ((moves_resolveKeys _ _ _).of_ok hresolve)
  exact hmiddle

end Graph

end Pipework
