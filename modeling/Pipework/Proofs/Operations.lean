import Pipework.Proofs.Failure
import Pipework.Proofs.GrowingForest
import Pipework.Proofs.ReadMeanings

/-!
# Trees that come of operations

Whatever is done with a scope tree, and whether it fails or not, scopes stay older than those in
them. What is remembered of a scope came out with some answers to the references in its value, and
those that lead to values still lead to what was remembered before: a scope that is created only
makes references lead to no value. So what is remembered is what the value means, if it means
anything at all.
-/

namespace Pipework

open Step Resolve

/-- Something that can be asked of a scope tree. -/
inductive Query where
  /-- What a text written in a scope stands for. -/
  | evaluate (id : ScopeId) (text : String)
  /-- What a value written in a scope stands for. -/
  | resolve (id : ScopeId) (value : Value)
  /-- What the value of a scope stands for. -/
  | resolveAt (id : ScopeId)

/-- Finds it out. -/
def Query.run : Query → ScopeM Value
  | .evaluate id text => ScopeTree.evaluate id text
  | .resolve id value => ScopeTree.resolve id value
  | .resolveAt id => ScopeTree.resolveAt id

/-- The resolution that finds it out. -/
def Query.action : Query → Forest → ResolveM Value
  | .evaluate id text => fun f => Resolve.evaluate (fromScope f id) text
  | .resolve id value => fun f => Resolve.value (fromScope f id) value
  | .resolveAt id => fun f => scopeValue f id (f.displayName id)

/-- Whatever has been found out, the same is found out again. -/
theorem Query.agrees_action (f : Forest) (m : Memo) (query : Query) :
    Agrees (Recollects f m) (query.action f) := by
  cases query with
  | evaluate id text => exact agrees_evaluate fun path _ => agrees_fromScope f m id path
  | resolve id raw => exact agrees_value raw fun path _ => agrees_fromScope f m id path
  | resolveAt id => exact agrees_scopeValue f m id _

/-- What is found out in a tree is what resolving comes to. -/
theorem ScopeTree.outcome_resolving {α : Type} (action : Forest → ResolveM α) (tree : ScopeTree) :
    outcome (resolving action tree) = outcome (action tree.forest tree.memo) := by
  rw [resolving]
  cases action tree.forest tree.memo <;> rfl

/-- A query of a tree is run by resolving. -/
theorem Query.run_eq (query : Query) : query.run = ScopeTree.resolving query.action := by
  cases query <;> rfl

/-- Something that can be done with a scope tree. -/
inductive Operation where
  /-- Adds a scope to another one. -/
  | createChild (parent : ScopeId) (name : String)
  /-- Takes a scope out of another one. -/
  | removeChild (parent : ScopeId) (name : String)
  /-- Gives a child a value, and creates it if need be. -/
  | put (parent : ScopeId) (name : String) (value : Value)
  /-- Gives a scope a value. -/
  | setValue (id : ScopeId) (value : Value)
  /-- Gives a scope the value of a property. -/
  | bind (id : ScopeId) (binding : Binding)
  /-- Writes a value to where a reference leads. -/
  | write (id : ScopeId) (text : String) (value : Value)
  /-- Finds something out. -/
  | read (query : Query)
  /-- Forgets what values resolved to. -/
  | invalidate

/-- Does it, whatever comes of it. -/
def Operation.run : Operation → ScopeM Unit
  | .createChild parent name => do let _ ← ScopeTree.createChild parent name
  | .removeChild parent name => do let _ ← ScopeTree.removeChild parent name
  | .put parent name value => do let _ ← ScopeTree.put parent name value
  | .setValue id value => ScopeTree.setValue id value
  | .bind id binding => ScopeTree.bind id binding
  | .write id text value => ScopeTree.write id text value
  | .read query => do let _ ← query.run
  | .invalidate => ScopeTree.invalidate

/-- The tree after all this was done, whatever came of it. -/
def Operation.runAll (operations : List Operation) (tree : ScopeTree) : ScopeTree :=
  operations.foldl (fun tree operation => left (operation.run tree)) tree

namespace ScopeTree

/-- The tree comes from one with nothing in it by operations, which may fail. The outside objects
may be changed in between. -/
inductive Reachable : ScopeTree → Prop
  | start (sources : List (String × Source)) : Reachable ⟨.initial, [], sources⟩
  | step {tree : ScopeTree} (h : Reachable tree) (operation : Operation) :
    Reachable (left (operation.run tree))
  | outside {tree : ScopeTree} (h : Reachable tree) (sources : List (String × Source)) :
    Reachable { tree with sources }

/-- A tree that comes of operations and then of some more comes of operations. -/
theorem Reachable.runAll {tree : ScopeTree} (h : Reachable tree) (operations : List Operation) :
    Reachable (Operation.runAll operations tree) := by
  induction operations generalizing tree with
  | nil => exact h
  | cons operation operations ih => exact ih (h.step operation)

/-- Scopes are older than those in them, and what is remembered came from what was remembered
before. -/
structure Sane (tree : ScopeTree) : Prop where
  /-- Scopes are older than those in them. -/
  layered : tree.forest.Layered
  /-- What is remembered came from what was remembered before. -/
  backed : Backed tree.forest tree.memo

end ScopeTree

namespace Resolve

/-- Following a reference from a scope adds to what is remembered and nothing else. -/
theorem moves_fromScope (f : Forest) (start : ScopeId) (path : List String) :
    Moves (Learns f []) (fromScope f start path) :=
  moves_follow (fun other reference => moves_scopeValue f other reference) path

/-- What a query asks for adds to what is remembered and nothing else. -/
theorem moves_action (query : Query) (f : Forest) : Moves (Learns f []) (query.action f) := by
  cases query with
  | evaluate id text => exact moves_evaluate fun path _ => moves_fromScope f id path
  | resolve id value => exact moves_value value fun path _ => moves_fromScope f id path
  | resolveAt id => exact moves_scopeValue f id (f.displayName id)

/-- A reference that leads to the same scope is answered from memory in the same way. -/
theorem fromMemory_congr {f f' : Forest} {start : ScopeId} {path : List String}
    (h : f'.lookup? start path = f.lookup? start path) (m : Memo) :
    fromMemory f' m start path = fromMemory f m start path := by
  rw [fromMemory, fromMemory, h]

/-- A new scope makes no reference lead to another value. -/
theorem Backed.addChild {f : Forest} {m : Memo} (h : Backed f m) (hf : f.Layered)
    {parent : ScopeId} (hp : parent < f.size) (name : String) :
    Backed (f.addChild parent name) m := by
  induction m with
  | nil => trivial
  | cons entry earlier ih =>
    obtain ⟨id, v⟩ := entry
    obtain ⟨hearlier, raw, answer, hraw, hv, hsame⟩ := h
    have hid : id < f.size := Forest.lt_size_of_raw? (Option.isSome_of_eq_some hraw)
    have hstart : (f.parent? id).getD id < f.size := by
      cases habove : f.parent? id with
      | none => exact hid
      | some above => exact (hf.older id above habove).trans hid
    refine ⟨ih hearlier, raw, answer, by rwa [Forest.raw?_addChild hp], hv, ?_⟩
    intro path hpath other consumed hlookup hother
    rw [Forest.parent?_addChild hp, if_neg (Nat.ne_of_lt hid)] at hlookup ⊢
    rw [Forest.raw?_addChild hp] at hother
    have hbefore := Forest.lookup?_of_addChild hf hp name hstart hlookup hother
    rw [fromMemory_congr (hlookup.trans hbefore.symm)]
    exact hsame path hpath other consumed hbefore hother

/-- What came from what was remembered before is what the value means. -/
theorem Backed.sincere {f : Forest} {m : Memo} (h : Backed f m) : Sincere f m := by
  induction m with
  | nil => exact fun _ _ _ hnone => nomatch hnone
  | cons entry earlier ih =>
    obtain ⟨id, v⟩ := entry
    obtain ⟨hearlier, raw, answer, hraw, hv, hsame⟩ := h
    refine (ih hearlier).cons fun w hw => ?_
    obtain @⟨_, held, _, known, hheld, hknown, hw⟩ := hw
    obtain rfl := Option.some.inj (hraw.symm.trans hheld)
    -- The answers are those that the meaning of the value was found out with.
    have hanswers : ∀ path ∈ raw.references, ∀ x,
        fromMemory f known ((f.parent? id).getD id) path = .ok x → answer path = .ok x := by
      intro path hpath x hx
      obtain ⟨other, consumed, u, hlookup, hu, hderive⟩ := fromMemory_eq_ok.mp hx
      have hmeans := hknown other u hu
      have hother : (f.raw? other).isSome := by
        cases hmeans with
        | intro hraw _ _ => exact Option.isSome_of_eq_some hraw
      have hmemory := hsame path hpath other consumed hlookup hother
      obtain ⟨y, hy⟩ := exists_answer hv hpath
      obtain ⟨u', hu', hderive'⟩ := exists_lookup_of_fromMemory hlookup (hmemory ▸ hy)
      obtain rfl := ih hearlier other u' u hu' hmeans
      rw [hy, ← hderive', hderive]
    exact Except.ok.inj (hv.symm.trans (valueWith_mono hanswers hw))

end Resolve

namespace ScopeTree

/-- A step that keeps the tree sane. -/
def KeepsSane (tree tree' : ScopeTree) : Prop := tree.Sane → tree'.Sane

instance : Std.Refl KeepsSane := ⟨fun _ h => h⟩

instance : IsTrans ScopeTree KeepsSane := ⟨fun _ _ _ h h' hsane => h' (h hsane)⟩

/-- Reading values keeps a tree sane. -/
theorem SameButMemo.keepsSane {tree tree' : ScopeTree} (h : SameButMemo tree tree') :
    KeepsSane tree tree' := by
  obtain ⟨memo, hlearns, rfl⟩ := h
  exact fun hsane => ⟨hsane.layered, hlearns.backed hsane.backed⟩

/-- Looking up a scope that is not there changes nothing. -/
theorem scopeAt_eq_error {id : ScopeId} {e : ScopeError} {tree tree' : ScopeTree}
    (h : scopeAt id tree = .error e tree') : tree' = tree := by
  rcases bind_eq_error.mp h with h | ⟨_, _, hget, h⟩
  · cases h
  · obtain ⟨rfl, rfl⟩ := get_eq_ok.mp hget
    cases hscope : tree.forest.get? id with
    | none =>
      simp only [hscope] at h
      cases h
      rfl
    | some scope =>
      simp only [hscope] at h
      cases h

/-- A step that starts from a scope fails as it is if there is no such scope, or later. -/
theorem eq_of_scopeAt_bind {α : Type} {id : ScopeId} {f : Scope → ScopeTree → ScopeM α} {e : ScopeError}
    {tree tree' : ScopeTree} (h : (do let scope ← scopeAt id; f scope (← get)) tree = .error e tree') :
    tree' = tree ∨ ∃ scope, f scope tree tree = .error e tree' := by
  rcases bind_eq_error.mp h with h | ⟨scope, _, hat, h⟩
  · exact .inl (scopeAt_eq_error h)
  obtain ⟨-, rfl⟩ := scopeAt_eq_ok.mp hat
  rcases bind_eq_error.mp h with h | ⟨_, _, hget, h⟩
  · cases h
  obtain ⟨rfl, rfl⟩ := get_eq_ok.mp hget
  exact .inr ⟨scope, h⟩

/-- If no scope is created, nothing happens. -/
theorem createChild_eq_error {parent : ScopeId} {name : String} {e : ScopeError}
    {tree tree' : ScopeTree} (h : createChild parent name tree = .error e tree') : tree' = tree := by
  rcases eq_of_scopeAt_bind h with heq | ⟨scope, h⟩
  · exact heq
  dsimp only at h
  split at h
  · exact (EStateM.Result.error.inj h).2.symm
  · split at h
    · exact (EStateM.Result.error.inj h).2.symm
    · cases h

/-- If no value is stored, nothing happens. -/
theorem store_eq_error {id : ScopeId} {value : Value} {binding? : Option Binding} {e : ScopeError}
    {tree tree' : ScopeTree} (h : store id value binding? tree = .error e tree') : tree' = tree := by
  rcases eq_of_scopeAt_bind h with heq | ⟨scope, h⟩
  · exact heq
  dsimp only at h
  split at h
  · exact (EStateM.Result.error.inj h).2.symm
  · cases h

/-- A scope that is created can be given a value. -/
theorem exists_store_of_createChild {parent id : ScopeId} {name : String} {tree tree' : ScopeTree}
    (h : createChild parent name tree = .ok id tree') (value : Value) :
    ∃ tree'', setValue id value tree' = .ok () tree'' := by
  obtain ⟨hp, -, -, rfl, rfl⟩ := createChild_eq_ok h
  refine exists_store ?_ (Forest.children_addChild_size hp name) value none
  rw [Forest.size_addChild]
  exact Nat.lt_succ_self _

/-- If no value is put somewhere, nothing happens. -/
theorem put_eq_error {parent : ScopeId} {name : String} {value : Value} {e : ScopeError}
    {tree tree' : ScopeTree} (h : put parent name value tree = .error e tree') : tree' = tree := by
  rcases bind_eq_error.mp h with h | ⟨_, _, hget, h⟩
  · cases h
  obtain ⟨rfl, rfl⟩ := get_eq_ok.mp hget
  cases hchild : tree.forest.child? parent name with
  | some id =>
    simp only [hchild] at h
    rcases bind_eq_error.mp h with h | ⟨_, _, hid, h⟩
    · cases h
    obtain ⟨rfl, rfl⟩ := pure_eq_ok.mp hid
    rcases bind_eq_error.mp h with h | ⟨_, _, -, h⟩
    · exact store_eq_error h
    · cases h
  | none =>
    simp only [hchild] at h
    rcases bind_eq_error.mp h with h | ⟨id, _, hcreated, h⟩
    · exact createChild_eq_error h
    obtain ⟨tree'', hstore⟩ := exists_store_of_createChild hcreated value
    rcases bind_eq_error.mp h with h | ⟨_, _, -, h⟩
    · cases hstore.symm.trans h
    · cases h

/-- Taking out a child never fails, and does nothing if there is none. -/
theorem removeChild_eq (parent : ScopeId) (name : String) (tree : ScopeTree) :
    removeChild parent name tree = match tree.forest.child? parent name with
      | some id => .ok true { tree with forest := tree.forest.detach parent id, memo := [] }
      | none => .ok false tree := by
  cases hchild : tree.forest.child? parent name with
  | some id =>
    refine bind_eq_ok.mpr ⟨tree, tree, get_eq_ok.mpr ⟨rfl, rfl⟩, ?_⟩
    simp only [hchild]
    rfl
  | none =>
    refine bind_eq_ok.mpr ⟨tree, tree, get_eq_ok.mpr ⟨rfl, rfl⟩, ?_⟩
    simp only [hchild]
    rfl

/-- A child is taken out, and then all is forgotten, or nothing happens. -/
theorem left_removeChild (parent : ScopeId) (name : String) (tree : ScopeTree) :
    left (removeChild parent name tree) = tree ∨ ∃ id, tree.forest.child? parent name = some id ∧
      left (removeChild parent name tree) =
        { tree with forest := tree.forest.detach parent id, memo := [] } := by
  rw [removeChild_eq]
  cases hchild : tree.forest.child? parent name with
  | some id => exact .inr ⟨id, rfl, rfl⟩
  | none => exact .inl rfl

/-- Finding something out adds to what is remembered and does nothing else. -/
theorem moves_query (query : Query) : Moves SameButMemo query.run := by
  rw [query.run_eq]
  exact moves_resolving (moves_action query)

/-- The relation holds between a tree and what each of the changes makes of it that operations are
made of. -/
structure Covers (R : ScopeTree → ScopeTree → Prop) : Prop where
  /-- More is remembered. -/
  learn : ∀ tree tree', SameButMemo tree tree' → R tree tree'
  /-- All is forgotten. -/
  forget : ∀ tree, R tree tree.forget
  /-- A property of an outside object is written. -/
  writeSource : ∀ tree binding value, R tree (tree.writeSource binding value)
  /-- A scope is added to one that has no value and no scope of its name. -/
  addChild : ∀ (tree : ScopeTree) (parent : ScopeId) (name : String), parent < tree.forest.size →
    tree.forest.raw? parent = none → tree.forest.child? parent name = none →
      R tree { tree with forest := tree.forest.addChild parent name }
  /-- A scope without children gets a value, and then all is forgotten. -/
  setEntry : ∀ (tree : ScopeTree) (id : ScopeId) (entry : Entry), tree.forest.children id = [] →
    R tree { tree with forest := tree.forest.setEntry id entry, memo := [] }
  /-- A scope is taken out of the one around it, and then all is forgotten. -/
  detach : ∀ (tree : ScopeTree) (parent id : ScopeId) (name : String),
    tree.forest.child? parent name = some id →
      R tree { tree with forest := tree.forest.detach parent id, memo := [] }

/-- A value is put into a scope by storing it, once there is one for it. -/
theorem moves_put_of {R : ScopeTree → ScopeTree → Prop} [Std.Refl R] [IsTrans ScopeTree R]
    {parent : ScopeId} {name : String} (hcreate : Moves R (createChild parent name))
    (hstore : ∀ id value, Moves R (setValue id value)) (value : Value) :
    Moves R (put parent name value) := by
  have hset : ∀ id, Moves R (do setValue id value; return id : ScopeM ScopeId) :=
    fun id => (hstore id value).bind fun _ => .pure id
  refine Moves.get.bind fun tree => ?_
  dsimp only
  split
  · exact (Moves.pure _).bind hset
  · exact hcreate.bind hset

section Covering

variable {R : ScopeTree → ScopeTree → Prop} [Std.Refl R] (hR : Covers R)

include hR

/-- Adding a scope is covered. -/
theorem Covers.moves_createChild (parent : ScopeId) (name : String) :
    Moves R (createChild parent name) := by
  intro tree
  cases h : createChild parent name tree with
  | ok id tree' =>
    obtain ⟨hp, hempty, hfresh, -, rfl⟩ := createChild_eq_ok h
    exact hR.addChild tree parent name hp hempty hfresh
  | error e tree' =>
    obtain rfl := createChild_eq_error h
    exact refl_of R tree'

/-- Storing a value is covered. -/
theorem Covers.moves_store (id : ScopeId) (value : Value) (binding? : Option Binding) :
    Moves R (store id value binding?) := by
  intro tree
  cases h : store id value binding? tree with
  | ok u tree' =>
    obtain ⟨hbare, kept, rfl⟩ := store_eq_ok h
    exact hR.setEntry tree id _ hbare
  | error e tree' =>
    obtain rfl := store_eq_error h
    exact refl_of R tree'

/-- Taking a scope out is covered. -/
theorem Covers.moves_removeChild (parent : ScopeId) (name : String) :
    Moves R (removeChild parent name) := by
  intro tree
  rcases left_removeChild parent name tree with h | ⟨id, hchild, h⟩
  · rw [h]
    exact refl_of R tree
  · rw [h]
    exact hR.detach tree parent id name hchild

variable [IsTrans ScopeTree R]

/-- Putting a value under a name is covered. -/
theorem Covers.moves_put (parent : ScopeId) (name : String) (value : Value) :
    Moves R (put parent name value) :=
  moves_put_of (hR.moves_createChild parent name) (fun id value => hR.moves_store id value none) value

/-- Binding a scope to a property is covered. -/
theorem Covers.moves_bind (id : ScopeId) (binding : Binding) : Moves R (bind id binding) := by
  refine Moves.get.bind fun tree => ?_
  split
  · exact hR.moves_store _ _ _
  · exact .throw _

/-- Writing to where a reference leads is covered. -/
theorem Covers.moves_write (id : ScopeId) (text : String) (value : Value) :
    Moves R (write id text value) := by
  rw [write]
  split
  · exact .throw _
  next path =>
    refine Moves.get.bind fun tree => ?_
    dsimp only
    split
    · exact .throw _
    · split
      · exact .throw _
      · split
        · exact .throw _
        · refine (hR.moves_store _ _ _).bind fun _ => ?_
          split
          · exact .modify fun tree => hR.writeSource tree _ _
          · exact .pure _

/-- Whatever is done with a tree, and whatever comes of it, it ends in a related one. -/
theorem Covers.moves_run (operation : Operation) : Moves R operation.run := by
  cases operation with
  | createChild parent name => exact (hR.moves_createChild parent name).bind fun _ => .pure _
  | removeChild parent name => exact (hR.moves_removeChild parent name).bind fun _ => .pure _
  | put parent name value => exact (hR.moves_put parent name value).bind fun _ => .pure _
  | setValue id value => exact hR.moves_store id value none
  | bind id binding => exact hR.moves_bind id binding
  | write id text value => exact hR.moves_write id text value
  | read query => exact ((moves_query query).mono hR.learn).bind fun _ => .pure _
  | invalidate => exact .modify hR.forget

end Covering

/-- Every change that operations are made of keeps a tree sane. -/
theorem covers_keepsSane : Covers KeepsSane where
  learn _ _ h := h.keepsSane
  forget _ hsane := ⟨hsane.layered, trivial⟩
  writeSource _ _ _ hsane := ⟨hsane.layered, hsane.backed⟩
  addChild _ _ name hp _ _ hsane :=
    ⟨hsane.layered.addChild hp name, hsane.backed.addChild hsane.layered hp name⟩
  setEntry _ id entry _ hsane := ⟨hsane.layered.setEntry id entry, trivial⟩
  detach _ parent id _ _ hsane := ⟨hsane.layered.detach parent id, trivial⟩

/-- Every tree that comes of operations is sane. -/
theorem Reachable.sane {tree : ScopeTree} (h : Reachable tree) : tree.Sane := by
  induction h with
  | start sources =>
    refine ⟨⟨fun id parent hid => ?_, fun parent child hc => ?_⟩, trivial⟩
    · cases id with
      | zero => cases hid
      | succ id => cases hid
    · cases parent with
      | zero => cases hc
      | succ parent => cases hc
  | step _ operation ih => exact covers_keepsSane.moves_run operation _ ih
  | outside _ sources ih => exact ⟨ih.layered, ih.backed⟩

end ScopeTree

end Pipework
