import Pipework.Proofs.Dependence
import Pipework.Proofs.LastingValues
import Pipework.Proofs.Meaning

/-!
# Values that are kept

Handing on values replaces references by what they stand for, so that a value goes on meaning what it
meant when the graph was built. That is so for a value that nothing is handed to, for one text that
references are replaced in one by one, and, up to order and repetition, for a list that gathers what
it refers to. It takes that the references say by name what they lead to, that nothing which is
handed on can be taken for a reference, and that the values referred to are kept in turn.
-/

namespace Pipework

open Step Resolve

/-- The scope that a scope lies in, from where the references in its value are followed. -/
def Forest.seat (f : Forest) (id : ScopeId) : ScopeId := (f.parent? id).getD id

/-- A value under a name and a key sits in the scope of that name. -/
theorem Forest.seat_of_leaf? {f : Forest} (hf : f.Sound) {owner key : String} {leaf : ScopeId}
    (h : f.leaf? owner key = some leaf) : f.child? root owner = some (f.seat leaf) := by
  obtain ⟨scope, hs, hchild⟩ := Option.bind_eq_some_iff.mp h
  rw [seat, hf.parent scope leaf (Forest.mem_of_child? hchild).1, Option.getD_some, hs]

/-- A scope lies under one key only. -/
theorem Forest.key_unique {f : Forest} {owner key key' : String} {leaf : ScopeId}
    (h : f.leaf? owner key = some leaf) (h' : f.leaf? owner key' = some leaf) : key = key' := by
  obtain ⟨scope, hs, hchild⟩ := Option.bind_eq_some_iff.mp h
  obtain ⟨scope', hs', hchild'⟩ := Option.bind_eq_some_iff.mp h'
  obtain rfl := Option.some.inj (hs.symm.trans hs')
  have hfirst := (Forest.mem_of_child? hchild).2
  have hsecond := (Forest.mem_of_child? hchild').2
  exact Option.some.inj (hfirst.symm.trans hsecond)

namespace Graph

/-- The scope holds a parameter that takes a single value. -/
def HoldsSingle (g : Graph) (id : ScopeId) : Prop :=
  ∃ node ∈ g.nodes, ∃ p ∈ node.spec.parameters, p.isList = false ∧
    g.scope.forest.leaf? node.name p.name = some id

instance (g : Graph) (id : ScopeId) : Decidable (g.HoldsSingle id) :=
  inferInstanceAs (Decidable (∃ node ∈ g.nodes, _))

/-- A reference that is written at a place in the scope of a node leads to an output of another. -/
def Asks (g : Graph) (node : Node) (start : ScopeId) (path : List String) (owner : OutputOwner) :
    Prop :=
  (g.scope.forest.lookup? start path).bind (g.outputOwner? ·.1) = some owner ∧
    owner.node.id ≠ node.id

/-- The reference names the output that it leads to, with the node that has it, and goes on with
segments that ask for parts. -/
def Names (g : Graph) (start : ScopeId) (path : List String) (owner : OutputOwner) : Prop :=
  g.scope.forest.lookup? start path = some (owner.scope, 2) ∧
    ∃ fields, path = owner.node.name :: owner.parameter.name :: fields

/-- The element of a list is a reference that names an output of another node. -/
def Calls (g : Graph) (node : Node) (start : ScopeId) (x : Value) (path : List String)
    (owner : OutputOwner) : Prop :=
  ∃ text, x = .str text ∧ Template.singleReference? text = some path ∧ g.Asks node start path owner ∧
    g.Names start path owner

/-- The element of a list refers to no output of another node. -/
def Rests (g : Graph) (node : Node) (start : ScopeId) (x : Value) : Prop :=
  ∀ path ∈ x.references, ∀ owner, ¬ g.Asks node start path owner

/-- The value of a scope as it is written, and what it comes to from a memory of others. -/
structure Comes (g : Graph) (id : ScopeId) (raw v : Value) (m : Memo) : Prop where
  /-- The scope holds the value as it is written. -/
  holds : g.scope.forest.raw? id = some raw
  /-- This is what it comes to. -/
  value : valueWith (fromMemory g.scope.forest m (g.scope.forest.seat id)) raw = .ok v

/-- A value that no edge leads to. -/
structure Stands (g : Graph) (id : ScopeId) (raw v : Value) (m : Memo) : Prop
    extends g.Comes id raw v m where
  /-- Nothing is handed to it. -/
  unfed : ∀ node ∈ g.nodes, ∀ p ∈ node.spec.parameters,
    g.scope.forest.leaf? node.name p.name = some id → Unfed g.edges node.id p.name
  /-- It is no list where a single value is taken. -/
  single : g.HoldsSingle id → v.isList = false

/-- A text that single values are handed to. -/
structure Receives (g : Graph) (node : Node) (p : Parameter) (id : ScopeId) (text : String)
    (v : Value) (m : Memo) : Prop extends g.Comes id (.str text) v m where
  /-- It is the value of a parameter of the node. -/
  isNode : node ∈ g.nodes
  /-- It is the value of this one. -/
  isParameter : p ∈ node.spec.parameters
  /-- The scope is that of the parameter. -/
  leaf : g.scope.forest.leaf? node.name p.name = some id
  /-- The parameter takes a single value. -/
  takesOne : p.isList = false
  /-- A single value is what it comes to. -/
  single : v.isList = false
  /-- Nothing in that can be taken for a reference. -/
  clear : v.mayRefer = false
  /-- It refers to no list. -/
  singles : ∀ other u, m.lookup other = some u → u.isList = false
  /-- What it refers to of other nodes it refers to by name, and these are single values. -/
  named : ∀ path ∈ Template.references text, ∀ owner,
    g.Asks node (g.scope.forest.seat id) path owner →
      owner.parameter.isList = false ∧ g.Names (g.scope.forest.seat id) path owner
  /-- It is one reference, or it is text however its references are replaced. -/
  whole : (Template.singleReference? text).isSome ∨
    (∃ c, Template.Piece.char c ∈ Template.pieces 0 text.toList) ∨
    (∀ other u, m.lookup other = some u → (u.text?).isSome) ∨
    ∀ path ∈ Template.references text, ∀ u,
      fromMemory g.scope.forest m (g.scope.forest.seat id) path = .ok u → u.render ≠ ""

/-- A value that goes on meaning just what it comes to in the graph as it is built, as those do that it
refers to. -/
inductive Exact (g : Graph) : ScopeId → Value → Prop
  | stands {id : ScopeId} {raw v : Value} {m : Memo}
      (hm : ∀ other u, m.lookup other = some u → Exact g other u) (h : g.Stands id raw v m) :
      Exact g id v
  | receives {node : Node} {p : Parameter} {id : ScopeId} {text : String} {v : Value} {m : Memo}
      (hm : ∀ other u, m.lookup other = some u → Exact g other u)
      (h : g.Receives node p id text v m) : Exact g id v

/-- A scalar in a list refers to values that stay just what they are, or it is one reference to another
parameter of the node. -/
def Faithful (g : Graph) (node : Node) (start : ScopeId) (m : Memo) (x : Value) : Prop :=
  (∀ path ∈ x.references, ∀ leaf consumed, g.scope.forest.lookup? start path = some (leaf, consumed) →
    ∀ u, m.lookup leaf = some u → g.Exact leaf u) ∨
  ∃ text path leaf consumed, x = .str text ∧ Template.singleReference? text = some path ∧
    g.scope.forest.lookup? start path = some (leaf, consumed) ∧ g.HoldsParameter node leaf

/-- A list that values are handed to. -/
structure Gathers (g : Graph) (node : Node) (p : Parameter) (id : ScopeId) (raw v : Value)
    (m : Memo) : Prop extends g.Comes id raw v m where
  /-- It is the value of a parameter of the node. -/
  isNode : node ∈ g.nodes
  /-- It is the value of this one. -/
  isParameter : p ∈ node.spec.parameters
  /-- The scope is that of the parameter. -/
  leaf : g.scope.forest.leaf? node.name p.name = some id
  /-- The parameter takes a list. -/
  takesMany : p.isList = true
  /-- Each element is a reference by name to an output of another node, or refers to none. -/
  elements : ∀ x ∈ raw.toList, (∃ path owner, g.Calls node (g.scope.forest.seat id) x path owner) ∨
    g.Rests node (g.scope.forest.seat id) x
  /-- What rests comes to the same later. -/
  faithful : ∀ x ∈ raw.toList, g.Rests node (g.scope.forest.seat id) x → ∀ l ∈ x.leaves,
    g.Faithful node (g.scope.forest.seat id) m l
  /-- Nothing in what is gathered can be taken for a reference. -/
  clear : ∀ x ∈ raw.toList, ∀ path owner, g.Calls node (g.scope.forest.seat id) x path owner →
    ∀ w, fromMemory g.scope.forest m (g.scope.forest.seat id) path = .ok w → w.mayRefer = false
  /-- Where a single value is gathered, nothing in what rests can be taken for a reference. -/
  free : ∀ x ∈ raw.toList, ∀ path owner, g.Calls node (g.scope.forest.seat id) x path owner →
    owner.parameter.isList = false → ∀ y ∈ raw.toList, g.Rests node (g.scope.forest.seat id) y →
      y.mayRefer = false
  /-- Only one of the two zeros is in it. -/
  zeros : ∀ a ∈ v.leaves, ∀ b ∈ v.leaves, Value.sameScalar a b = true → a = b

/-- A value that is kept, at least up to order and repetition, and what it comes to in the graph as it
is built. -/
inductive Kept (g : Graph) : ScopeId → Value → Prop
  | exact {id : ScopeId} {v : Value} (h : g.Exact id v) : Kept g id v
  | gathers {node : Node} {p : Parameter} {id : ScopeId} {raw v : Value} {m : Memo}
      (hm : ∀ other u, m.lookup other = some u → Kept g other u)
      (h : g.Gathers node p id raw v m) : Kept g id v

/-- The names of parameters tell those of a node apart. -/
def Distinct (g : Graph) : Prop := ∀ node ∈ g.nodes, (node.spec.parameters.map (·.name)).Nodup

instance (g : Graph) : Decidable g.Distinct := inferInstanceAs (Decidable (∀ node ∈ g.nodes, _))

variable {g : Graph} {node : Node} {p : Parameter} {id : ScopeId} {raw v : Value} {m : Memo}

/-- What is exact is the value of a scope. -/
theorem Exact.isSome_raw? (h : g.Exact id v) : (g.scope.forest.raw? id).isSome := by
  cases h with
  | stands _ h => exact Option.isSome_of_eq_some h.holds
  | receives _ h => exact Option.isSome_of_eq_some h.holds

/-- A kept value is held. -/
theorem Kept.isSome_raw? (h : g.Kept id v) : (g.scope.forest.raw? id).isSome := by
  cases h with
  | exact h => exact h.isSome_raw?
  | gathers _ h => exact Option.isSome_of_eq_some h.holds

/-- A value means what it comes to with the meanings of others. -/
theorem Comes.means (h : g.Comes id raw v m)
    (hm : ∀ other u, m.lookup other = some u → Means g.scope.forest other u) :
    Means g.scope.forest id v := .intro h.holds hm h.value

/-- What is exact means what it comes to. -/
theorem Exact.means (h : g.Exact id v) : Means g.scope.forest id v := by
  induction h with
  | stands _ h ih => exact h.means ih
  | receives _ h ih => exact h.means ih

/-- A kept value means what it comes to. -/
theorem Kept.means (h : g.Kept id v) : Means g.scope.forest id v := by
  induction h with
  | exact h => exact h.means
  | gathers _ h ih => exact h.means ih

/-- A scope holds a parameter of one node only, and one parameter of it. -/
theorem parameter_unique (hm : g.Mirrored) (hnames : g.Distinct) {node' : Node} {p' : Parameter}
    (hn : node ∈ g.nodes) (hp : p ∈ node.spec.parameters) (hn' : node' ∈ g.nodes)
    (hp' : p' ∈ node'.spec.parameters) (hleaf : g.scope.forest.leaf? node.name p.name = some id)
    (hleaf' : g.scope.forest.leaf? node'.name p'.name = some id) : node' = node ∧ p' = p := by
  obtain rfl := HoldsParameter.unique hm hn' hn ⟨p', hp', hleaf'⟩ ⟨p, hp, hleaf⟩
  exact ⟨rfl, List.inj_on_of_nodup_map (hnames node' hn) hp' hp (Forest.key_unique hleaf' hleaf)⟩

/-- A kept value where a single one is taken is no list. -/
theorem Kept.single (hm : g.Mirrored) (hnames : g.Distinct) (h : g.Kept id v)
    (hsingle : g.HoldsSingle id) : v.isList = false := by
  cases h with
  | exact h =>
    cases h with
    | stands _ h => exact h.single hsingle
    | receives _ h => exact h.single
  | gathers _ h =>
    obtain ⟨other, ho, q, hq, hone, hleaf⟩ := hsingle
    obtain ⟨rfl, rfl⟩ := parameter_unique hm hnames h.isNode h.isParameter ho hq h.leaf hleaf
    rw [h.takesMany] at hone
    cases hone

/-- A reference is answered alike from two memories that say the same of the scope that it leads to. -/
theorem fromMemory_unique {f f' : Forest} {start : ScopeId} {m m' : Memo} {path : List String}
    {a b : Value} (halike : f.Alike f') (ha : fromMemory f m start path = .ok a)
    (hb : fromMemory f' m' start path = .ok b)
    (hsame : ∀ leaf consumed, f.lookup? start path = some (leaf, consumed) → ∀ v w,
      m.lookup leaf = some v → m'.lookup leaf = some w → w = v) : a = b := by
  obtain ⟨leaf, consumed, v, hlookup, hv, hderive⟩ := fromMemory_eq_ok.mp ha
  obtain ⟨w, hw, hderive'⟩ := exists_lookup_of_fromMemory ((halike.lookup? start path).trans hlookup) hb
  obtain rfl := hsame leaf consumed hlookup v w hv hw
  exact Except.ok.inj (hderive.symm.trans hderive')

/-- A value means what it comes to from a memory, if what its references lead to means what is there. -/
theorem means_unique {f f' : Forest} (halike : f.Alike f') {id : ScopeId} {now v : Value} {m : Memo}
    (hraw : f'.raw? id = some now) (hv : valueWith (fromMemory f m (f.seat id)) now = .ok v)
    (hsame : ∀ other a, m.lookup other = some a → ∀ b, Means f' other b → b = a) {u : Value}
    (hu : Means f' id u) : u = v := by
  cases hu with
  | @intro _ raw _ m' hraw' hm' hvalue =>
    obtain rfl := Option.some.inj (hraw.symm.trans hraw')
    have hseat : (f'.parent? id).getD id = f.seat id := by rw [halike.parent?, Forest.seat]
    rw [hseat] at hvalue
    refine (valueWith_unique (fun path _ a b ha hb => ?_) hv hvalue).symm
    exact fromMemory_unique halike ha hb fun leaf _ _ w w' hw hw' => hsame leaf w hw w' (hm' leaf w' hw')

/-- As long as no kept value has been changed, each means what it comes to. -/
theorem Kept.unique {g' : Graph} (halike : g.scope.forest.Alike g'.scope.forest)
    (hraw : ∀ id v, g.Kept id v → g'.scope.forest.raw? id = g.scope.forest.raw? id)
    (h : g.Kept id v) {u : Value} (hu : Means g'.scope.forest id u) : u = v := by
  have hstep : ∀ {id raw v m}, g.Kept id v → g.Comes id raw v m →
      (∀ other w, m.lookup other = some w → ∀ u, Means g'.scope.forest other u → u = w) →
      ∀ u, Means g'.scope.forest id u → u = v := fun hk hcomes ih u hu =>
    means_unique halike ((hraw _ _ hk).trans hcomes.holds) hcomes.value ih hu
  have hexact : ∀ {id v}, g.Exact id v → ∀ u, Means g'.scope.forest id u → u = v := by
    intro id v h
    induction h with
    | stands hm h ih => exact hstep (.exact (.stands hm h)) h.toComes ih
    | receives hm h ih => exact hstep (.exact (.receives hm h)) h.toComes ih
  induction h generalizing u with
  | exact h => exact hexact h u hu
  | gathers hm h ih =>
    exact hstep (.gathers hm h) h.toComes (fun other w hw u hu => ih other w hw hu) u hu

end Graph

end Pipework
