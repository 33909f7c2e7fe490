import Mathlib.Data.List.Find
import Mathlib.Order.Basic
import Pipework.Scope.Lookup
import Pipework.Scope.Tree

/-!
# Forests that are changed scope by scope

What can be seen of a forest after a scope was added or given a value, in terms of what could
be seen before. In a sound forest, a scope in another one has that one around it, and a scope
with a value holds no others. Values are looked at by the name of a scope in the root and a
key in it.
-/

namespace Pipework

namespace Forest

/-- Scopes know what is around them, those with values hold no others, and no scope lies deeper
than in a scope of the root. -/
structure Sound (f : Forest) : Prop where
  /-- A scope in another one has that one around it. -/
  parent : ∀ parent, ∀ child ∈ f.children parent, f.parent? child = some parent
  /-- A scope with a value holds no others. -/
  leaf : ∀ id, (f.raw? id).isSome → f.children id = []
  /-- A scope is younger than the one around it. -/
  older : ∀ id parent, f.parent? id = some parent → parent < id
  /-- What lies in a scope of the root holds no others. -/
  flat : ∀ scope ∈ f.children root, ∀ leaf ∈ f.children scope, f.children leaf = []

/-- Scopes are older than those in them. -/
structure Layered (f : Forest) : Prop where
  /-- A scope is younger than the one around it. -/
  older : ∀ id parent, f.parent? id = some parent → parent < id
  /-- The scopes in a scope are there, and younger. -/
  younger : ∀ parent, ∀ child ∈ f.children parent, parent < child ∧ child < f.size

/-- The scope of a key in a scope of the root. -/
def leaf? (f : Forest) (owner key : String) : Option ScopeId :=
  (f.child? root owner).bind (f.child? · key)

/-- What the scope of a key in a scope of the root holds as its value, if there is that scope. -/
def held? (f : Forest) (owner key : String) : Option (Option Value) :=
  (f.leaf? owner key).map f.raw?

/-- The value of this name in the root. -/
def shared? (f : Forest) (name : String) : Option Value := (f.child? root name).bind f.raw?

/-- What is found under a name in a scope is in the scope, and has the name. -/
theorem mem_of_child? {f : Forest} {parent child : ScopeId} {name : String}
    (h : f.child? parent name = some child) :
    child ∈ f.children parent ∧ f.name? child = some name :=
  ⟨List.mem_of_find?_eq_some h, by simpa using List.find?_some h⟩

/-- The scopes that there are have the handles below the number of scopes. -/
theorem lt_size {f : Forest} {id : ScopeId} : id < f.size ↔ (f.get? id).isSome := by
  simp [size, get?]

/-- A scope with a value is there. -/
theorem lt_size_of_raw? {f : Forest} {id : ScopeId} (h : (f.raw? id).isSome) : id < f.size := by
  rw [lt_size]
  rw [raw?, content?] at h
  cases hscope : f.get? id with
  | none => simp [hscope] at h
  | some scope => rfl

/-- Behind the last scope there is none. -/
theorem get?_size (f : Forest) : f.get? f.size = none := List.getElem?_eq_none le_rfl

/-- What is in a scope is there. -/
theorem Sound.lt_size {f : Forest} (h : f.Sound) {parent child : ScopeId}
    (hc : child ∈ f.children parent) : child < f.size := by
  have hparent := h.parent parent child hc
  rw [Forest.lt_size]
  rw [parent?] at hparent
  obtain ⟨scope, hscope, -⟩ := Option.bind_eq_some_iff.mp hparent
  rw [hscope, Option.isSome_some]

/-- A scope that has another one in it is there. -/
theorem Sound.parent_lt_size {f : Forest} {parent child : ScopeId}
    (hc : child ∈ f.children parent) : parent < f.size := by
  rw [Forest.lt_size]
  rw [children] at hc
  cases hscope : f.get? parent with
  | none => simp [hscope] at hc
  | some scope => rfl

/-- In a sound forest scopes are older than those in them. -/
theorem Sound.layered {f : Forest} (h : f.Sound) : f.Layered :=
  ⟨h.older, fun parent child hc => ⟨h.older child parent (h.parent parent child hc), h.lt_size hc⟩⟩

/-- There is nothing around the root. -/
theorem Sound.top {f : Forest} (h : f.Sound) : f.parent? root = none :=
  Option.eq_none_iff_forall_ne_some.mpr fun parent hp => Nat.not_lt_zero _ (h.older root parent hp)

section AddChild

variable {f : Forest} {parent : ScopeId} (hp : parent < f.size) (name : String)

include hp

/-- The forest with a scope added: the new scope, its parent with one more child, and all others as they
were. -/
theorem get?_addChild (id : ScopeId) : (f.addChild parent name).get? id =
    if id = f.size then some ⟨name, some parent, [], none⟩
    else if id = parent then
      (f.get? id).map fun scope => { scope with children := scope.children ++ [f.size] }
    else f.get? id := by
  change ((f.scopes ++ [_]).modify parent _)[id]? = _
  rw [List.getElem?_modify]
  by_cases hnew : id = f.size
  · have hne : parent ≠ f.scopes.length := Nat.ne_of_lt hp
    subst hnew
    simp [size, hne]
  · rw [if_neg hnew]
    have hold : (f.scopes ++ [(⟨name, some parent, [], none⟩ : Scope)])[id]? = f.get? id := by
      rcases Nat.lt_or_gt_of_ne hnew with hlt | hgt
      · exact List.getElem?_append_left hlt
      · have hlen : f.scopes.length < id := hgt
        have hmore : (f.scopes ++ [(⟨name, some parent, [], none⟩ : Scope)]).length ≤ id := by
          rw [List.length_append]
          exact hlen
        rw [get?, List.getElem?_eq_none hmore, List.getElem?_eq_none (Nat.le_of_lt hlen)]
    rw [hold]
    by_cases hid : id = parent
    · simp [hid, size]
    · simp [hid, Ne.symm hid]

/-- The new scope stands behind those that were in its parent. -/
theorem children_addChild (id : ScopeId) : (f.addChild parent name).children id =
    if id = parent then f.children id ++ [f.size] else f.children id := by
  rw [children, children, get?_addChild hp]
  by_cases hnew : id = f.size
  · have hne : f.size ≠ parent := Nat.ne_of_gt hp
    rw [if_pos hnew, hnew, if_neg hne, get?_size]
    rfl
  · rw [if_neg hnew]
    by_cases hid : id = parent
    · obtain ⟨scope, hscope⟩ := Option.isSome_iff_exists.mp (Forest.lt_size.mp (hid ▸ hp))
      rw [if_pos hid, if_pos hid, hscope]
      rfl
    · rw [if_neg hid, if_neg hid]

/-- The new scope has the name it was added under. -/
theorem name?_addChild (id : ScopeId) : (f.addChild parent name).name? id =
    if id = f.size then some name else f.name? id := by
  rw [name?, name?, get?_addChild hp]
  split
  · rfl
  · split
    · cases f.get? id <;> rfl
    · rfl

/-- The new scope has its parent around it. -/
theorem parent?_addChild (id : ScopeId) : (f.addChild parent name).parent? id =
    if id = f.size then some parent else f.parent? id := by
  rw [parent?, parent?, get?_addChild hp]
  split
  · rfl
  · split
    · cases f.get? id <;> rfl
    · rfl

/-- The new scope holds nothing, and what other scopes hold stays. -/
theorem content?_addChild (id : ScopeId) :
    (f.addChild parent name).content? id = f.content? id := by
  rw [content?, content?, get?_addChild hp]
  split
  next hnew =>
    rw [hnew, get?_size]
    rfl
  · split
    · cases f.get? id <;> rfl
    · rfl

/-- Adding a scope brings in no value and changes none. -/
theorem raw?_addChild (id : ScopeId) : (f.addChild parent name).raw? id = f.raw? id := by
  rw [raw?, raw?, content?_addChild hp]

/-- A new scope is found only where it was added, and only if no other was found before. -/
theorem child?_addChild (hf : f.Layered) (id : ScopeId) (other : String) :
    (f.addChild parent name).child? id other =
      (f.child? id other).or (if id = parent ∧ other = name then some f.size else none) := by
  have hold : (f.children id).find? (fun c => (f.addChild parent name).name? c == some other) =
      f.child? id other := by
    refine List.find?_congr fun c hc => ?_
    rw [name?_addChild hp, if_neg (Nat.ne_of_lt (hf.younger id c hc).2)]
  rw [child?, children_addChild hp]
  by_cases hid : id = parent
  · have hnew : [f.size].find? (fun c => (f.addChild parent name).name? c == some other) =
        if other = name then some f.size else none := by
      rw [List.find?_singleton, name?_addChild hp, if_pos rfl]
      by_cases hname : other = name
      · rw [if_pos hname, hname]
        simp
      · rw [if_neg hname]
        simp [Ne.symm hname]
    rw [if_pos hid, List.find?_append, hold, hnew]
    simp [hid]
  · rw [if_neg hid, hold]
    simp [hid]

/-- A forest stays sound when a scope is added to the root, or to a scope of the root that has no value. -/
theorem Sound.addChild (hf : f.Sound) (hplace : parent = root ∨ parent ∈ f.children root)
    (hempty : f.raw? parent = none) : (f.addChild parent name).Sound where
  parent p c hc := by
    rw [parent?_addChild hp]
    rw [children_addChild hp] at hc
    by_cases hnew : c = f.size
    · rw [if_pos hnew]
      by_cases hpp : p = parent
      · rw [hpp]
      · rw [if_neg hpp] at hc
        exact absurd hnew (Nat.ne_of_lt (hf.lt_size hc))
    · rw [if_neg hnew]
      refine hf.parent p c ?_
      split at hc
      · simpa [hnew] using hc
      · exact hc
  leaf id hid := by
    rw [raw?_addChild hp] at hid
    rw [children_addChild hp, if_neg fun h => ?_]
    · exact hf.leaf id hid
    · rw [h, hempty] at hid
      simp at hid
  older id other hid := by
    rw [parent?_addChild hp] at hid
    split at hid
    next hnew => rwa [hnew, ← Option.some.inj hid]
    · exact hf.older id other hid
  flat scope hscope leaf hleaf := by
    rw [children_addChild hp] at hscope hleaf ⊢
    have hnone : f.children f.size = [] := by rw [children, get?_size]; rfl
    have hnew : leaf = f.size → leaf ≠ parent := fun h => h ▸ Nat.ne_of_gt hp
    by_cases hfresh : leaf = f.size
    · rw [if_neg (hnew hfresh), hfresh, hnone]
    -- A scope that was there before lies where it lay, which is too deep to add a scope to.
    have hold : leaf ∈ f.children scope := by
      split at hleaf
      · simpa [hfresh] using hleaf
      · exact hleaf
    have hin : scope ∈ f.children root := by
      split at hscope
      next hroot =>
        rcases List.mem_append.mp hscope with h | h
        · exact h
        · rw [List.mem_singleton.mp h, hnone] at hold
          exact absurd hold List.not_mem_nil
      next hroot => exact hscope
    rw [if_neg fun heq => ?_]
    · exact hf.flat scope hin leaf hold
    · have habove := hf.parent scope leaf hold
      rcases hplace with hroot | hchild
      · rw [heq, hroot, hf.top] at habove
        cases habove
      · rw [heq, hf.parent root parent hchild] at habove
        have hself := hf.parent root scope hin
        rw [← Option.some.inj habove, hf.top] at hself
        cases hself

end AddChild

section SetEntry

variable (f : Forest) (target : ScopeId) (entry : Entry)

/-- The forest with a value set: one scope holds it, and all others are as they were. -/
theorem get?_setEntry (id : ScopeId) : (f.setEntry target entry).get? id =
    if id = target then (f.get? id).map fun scope => { scope with content? := some entry }
    else f.get? id := by
  change (f.scopes.modify target _)[id]? = _
  rw [List.getElem?_modify]
  by_cases h : id = target
  · simp [h, get?]
  · simp [h, Ne.symm h, get?]

/-- Setting a value leaves what is in which scope. -/
theorem children_setEntry (id : ScopeId) :
    (f.setEntry target entry).children id = f.children id := by
  rw [children, children, get?_setEntry]
  split
  · cases f.get? id <;> rfl
  · rfl

/-- Setting a value leaves how scopes are called. -/
theorem name?_setEntry (id : ScopeId) : (f.setEntry target entry).name? id = f.name? id := by
  rw [name?, name?, get?_setEntry]
  split
  · cases f.get? id <;> rfl
  · rfl

/-- Setting a value leaves what scopes have around them. -/
theorem parent?_setEntry (id : ScopeId) :
    (f.setEntry target entry).parent? id = f.parent? id := by
  rw [parent?, parent?, get?_setEntry]
  split
  · cases f.get? id <;> rfl
  · rfl

/-- Setting a value leaves what is found under a name. -/
theorem child?_setEntry (id : ScopeId) (name : String) :
    (f.setEntry target entry).child? id name = f.child? id name := by
  rw [child?, child?, children_setEntry]
  simp only [name?_setEntry]

theorem content?_setEntry (id : ScopeId) : (f.setEntry target entry).content? id =
    if id = target ∧ id < f.size then some entry else f.content? id := by
  rw [content?, content?, get?_setEntry]
  by_cases h : id = target
  · rw [if_pos h]
    cases hscope : f.get? id with
    | none => rw [if_neg fun hand => by simpa [hscope] using Forest.lt_size.mp hand.2]; rfl
    | some scope => rw [if_pos ⟨h, Forest.lt_size.mpr (by rw [hscope]; rfl)⟩]; rfl
  · rw [if_neg h, if_neg fun hand => h hand.1]

/-- The scope has the value afterwards, if there is such a scope, and others have theirs. -/
theorem raw?_setEntry (id : ScopeId) : (f.setEntry target entry).raw? id =
    if id = target ∧ id < f.size then some entry.raw else f.raw? id := by
  rw [raw?, content?_setEntry]
  split <;> rfl

/-- A forest stays sound when a scope that holds no others is given a value. -/
theorem Sound.setEntry {f : Forest} (hf : f.Sound) {target : ScopeId}
    (hempty : f.children target = []) (entry : Entry) : (f.setEntry target entry).Sound where
  parent p c hc := by
    rw [parent?_setEntry]
    rw [children_setEntry] at hc
    exact hf.parent p c hc
  leaf id hid := by
    rw [children_setEntry]
    rw [raw?_setEntry] at hid
    split at hid
    next h => exact h.1 ▸ hempty
    · exact hf.leaf id hid
  older id other hid := by
    rw [parent?_setEntry] at hid
    exact hf.older id other hid
  flat scope hscope leaf hleaf := by
    rw [children_setEntry] at hscope hleaf ⊢
    exact hf.flat scope hscope leaf hleaf

end SetEntry

/-- The forest with a value put under a key in a scope. -/
def written (f : Forest) (scope : ScopeId) (key : String) (entry : Entry) : Forest :=
  match f.child? scope key with
  | some leaf => f.setEntry leaf entry
  | none => (f.addChild scope key).setEntry f.size entry

/-- One forest comes from the other by a value put under a key in a scope. -/
structure Writes (scope : ScopeId) (key : String) (value : Value) (leaf : ScopeId)
    (f f' : Forest) : Prop where
  /-- The forest stays sound. -/
  sound : f'.Sound
  /-- The value lies in the scope. -/
  parent : f'.parent? leaf = some scope
  /-- It is found under the key, and everything else is found as before. -/
  child : ∀ id name, f'.child? id name =
    if id = scope ∧ name = key then some leaf else f.child? id name
  /-- Nothing else has another value. -/
  raw : ∀ id, f'.raw? id = if id = leaf then some value else f.raw? id

/-- A value that is written under a key has the effect of a write. -/
theorem writes_written {f : Forest} {scope : ScopeId} (hf : f.Sound) (key : String)
    (hs : scope < f.size) (hplace : scope = root ∨ scope ∈ f.children root)
    (hempty : f.raw? scope = none)
    (hfree : ∀ leaf, f.child? scope key = some leaf → f.children leaf = []) (entry : Entry) :
    ∃ leaf, Writes scope key entry.raw leaf f (f.written scope key entry) := by
  rw [written]
  cases hchild : f.child? scope key with
  | some leaf =>
    have hmem := (mem_of_child? hchild).1
    refine ⟨leaf, hf.setEntry (hfree leaf hchild) entry, ?_, fun id name => ?_, fun id => ?_⟩
    · rw [parent?_setEntry]
      exact hf.parent scope leaf hmem
    · rw [child?_setEntry]
      split
      next h => rw [h.1, h.2, hchild]
      · rfl
    · rw [raw?_setEntry]
      have hlt : leaf < f.size := hf.lt_size hmem
      by_cases h : id = leaf
      · rw [if_pos h, if_pos ⟨h, h ▸ hlt⟩]
      · rw [if_neg h, if_neg fun hand => h hand.1]
  | none =>
    have hadd : (f.addChild scope key).Sound := hf.addChild hs key hplace hempty
    have hne : f.size ≠ scope := Nat.ne_of_gt hs
    have hbare : (f.addChild scope key).children f.size = [] := by
      rw [children_addChild hs, if_neg hne, children, get?_size]
      rfl
    have hchildren : f.size ∈ (f.addChild scope key).children scope := by
      rw [children_addChild hs, if_pos rfl]
      exact List.mem_append_right _ (List.mem_singleton_self _)
    refine ⟨f.size, hadd.setEntry hbare entry, ?_, fun id name => ?_, fun id => ?_⟩
    · rw [parent?_setEntry]
      exact hadd.parent scope f.size hchildren
    · rw [child?_setEntry, child?_addChild hs key hf.layered]
      split
      next h => rw [h.1, h.2, hchild, Option.none_or]
      · rw [Option.or_none]
    · rw [raw?_setEntry, raw?_addChild hs]
      have hlt : f.size < (f.addChild scope key).size := hadd.lt_size hchildren
      by_cases h : id = f.size
      · rw [if_pos h, if_pos ⟨h, h ▸ hlt⟩]
      · rw [if_neg h, if_neg fun hand => h hand.1]

/-- There is a scope of this name in the root, and it has no value. -/
def Open (f : Forest) (owner : String) : Prop :=
  ∃ scope, f.child? root owner = some scope ∧ f.raw? scope = none

/-- The root is in no scope. -/
theorem Sound.ne_root {f : Forest} (hf : f.Sound) {parent child : ScopeId}
    (h : child ∈ f.children parent) : child ≠ root := by
  intro heq
  have habove := hf.parent parent child h
  rw [heq, hf.top] at habove
  cases habove

/-- A reference that leads to a key: of the scope it stands in, of the root, or, named together with
it, of a scope of the root, be it the same. It comes with the number of segments that lead there. -/
inductive Beside (f : Forest) (start : ScopeId) : List String → ScopeId → Nat → Prop
  | own {key : String} {fields : List String} {leaf : ScopeId}
      (hleaf : f.child? start key = some leaf) : Beside f start (key :: fields) leaf 1
  | shared {key : String} {fields : List String} {leaf : ScopeId}
      (hown : f.child? start key = none) (hname : f.name? start ≠ some key)
      (hparent : f.parent? start = some root) (hleaf : f.child? root key = some leaf) :
      Beside f start (key :: fields) leaf 1
  | named {owner key : String} {fields : List String} {scope leaf : ScopeId}
      (hown : f.child? start owner = none) (hname : f.name? start = some owner → scope = start)
      (hparent : f.parent? start = some root) (hscope : f.child? root owner = some scope)
      (hleaf : f.child? scope key = some leaf) : Beside f start (owner :: key :: fields) leaf 2

/-- Behind a scope with a value, segments lead no further. -/
theorem descend?_of_raw? {f : Forest} (hf : f.Sound) {id : ScopeId} (h : (f.raw? id).isSome)
    (fields : List String) : f.descend? id fields = some (id, 0) := by
  cases fields with
  | nil => rfl
  | cons field fields =>
    have hnone : f.child? id field = none := by rw [child?, hf.leaf id h, List.find?_nil]
    rw [descend?, hnone]
    exact if_pos h

/-- From a scope in the root one goes outwards to the root and no further. -/
theorem chain_of_parent? {f : Forest} (hf : f.Sound) {id : ScopeId}
    (h : f.parent? id = some root) : f.chain id = [id, root] := by
  have hroot : ∀ steps, f.chainWithin steps root = [root] := by
    intro steps
    cases steps with
    | zero => rfl
    | succ steps => rw [chainWithin, hf.top]
  cases id with
  | zero =>
    have habsurd : none = some root := hf.top.symm.trans h
    cases habsurd
  | succ n =>
    rw [chain, chainWithin, h]
    exact congrArg _ (hroot n)

/-- A reference to a key with a value leads there and no further. -/
theorem Beside.lookup? {f : Forest} (hf : f.Sound) {start id : ScopeId} {path : List String}
    {consumed : Nat} (h : f.Beside start path id consumed) (hid : (f.raw? id).isSome) :
    f.lookup? start path = some (id, consumed) := by
  cases h with
  | own hleaf =>
    have hanchor : ∀ name, f.child? start name = some id → f.anchor? start name = some id := by
      intro name hname
      rw [anchor?, hname, Option.some_or, Option.some_or]
    simp [Forest.lookup?, hanchor _ hleaf, descend?_of_raw? hf hid]
  | @shared key fields _ hown hname hparent hleaf =>
    have hat : f.findAt? key start = none := by
      rw [findAt?, hown, if_neg]
      simp [hname]
    have htop : f.findAt? key root = some id := by
      rw [findAt?, hf.top, hleaf]
      rfl
    have hanchor : f.anchor? start key = some id := by
      rw [anchor?, hown, Option.none_or, chain_of_parent? hf hparent, List.findSome?_cons, hat]
      simp [htop]
    simp [Forest.lookup?, hanchor, descend?_of_raw? hf hid]
  | @named owner key fields scope _ hown hname hparent hscope hleaf =>
    have htop : f.findAt? owner root = some scope := by
      rw [findAt?, hf.top, hscope]
      rfl
    have hanchor : f.anchor? start owner = some scope := by
      rw [anchor?, hown, Option.none_or, chain_of_parent? hf hparent, List.findSome?_cons]
      by_cases hself : f.name? start = some owner
      · have hat : f.findAt? owner start = some start := by
          rw [findAt?, if_pos]
          simp [hparent, hself]
        rw [hat, hname hself]
        rfl
      · have hat : f.findAt? owner start = none := by
          rw [findAt?, hown, if_neg]
          simp [hself]
        simp [hat, htop]
    have hdown : f.descend? scope (key :: fields) = some (id, 1) := by
      rw [descend?, hleaf]
      simp [descend?_of_raw? hf hid]
    simp [Forest.lookup?, hanchor, hdown]

section Keys

variable {f f' : Forest} {scope leaf : ScopeId} {owner key : String} {value : Value}
  (h : Writes scope key value leaf f f') (hf : f.Sound)
  (hs : f.child? root owner = some scope)

include h hf hs

/-- A write to a scope leaves what the root holds under which name. -/
theorem Writes.child_root (name : String) : f'.child? root name = f.child? root name := by
  have hne := hf.ne_root (mem_of_child? hs).1
  rw [h.child, if_neg fun hand => hne hand.1.symm]

/-- A write to a scope leaves the values that the root holds. -/
theorem Writes.raw_root {name : String} {id : ScopeId} (hid : f.child? root name = some id) :
    f'.raw? id = f.raw? id := by
  rw [h.raw, if_neg fun heq => ?_]
  rw [← h.child_root hf hs] at hid
  have hparent := h.sound.parent root id (mem_of_child? hid).1
  rw [heq, h.parent] at hparent
  exact hf.ne_root (mem_of_child? hs).1 (Option.some.inj hparent)

/-- A write to a scope leaves what all jobs share. -/
theorem Writes.shared? (name : String) : f'.shared? name = f.shared? name := by
  rw [Forest.shared?, Forest.shared?, h.child_root hf hs]
  cases hchild : f.child? root name with
  | none => rfl
  | some id => exact h.raw_root hf hs hchild

/-- A scope of the root that has no value still has none. -/
theorem Writes.open {name : String} (ho : f.Open name) : f'.Open name := by
  obtain ⟨id, hid, hraw⟩ := ho
  exact ⟨id, by rw [h.child_root hf hs, hid], by rw [h.raw_root hf hs hid, hraw]⟩

/-- Only what is held under the key is another. -/
theorem Writes.held? (name other : String) : f'.held? name other =
    if name = owner ∧ other = key then some (some value) else f.held? name other := by
  rw [Forest.held?, leaf?, h.child_root hf hs, Forest.held?, leaf?]
  by_cases hname : name = owner
  · rw [hname, hs, Option.bind_some, Option.bind_some, h.child]
    by_cases hkey : other = key
    · rw [if_pos ⟨rfl, hkey⟩, if_pos ⟨rfl, hkey⟩, Option.map_some, h.raw, if_pos rfl]
    · rw [if_neg fun hand => hkey hand.2, if_neg fun hand => hkey hand.2]
      cases hchild : f.child? scope other with
      | none => rfl
      | some id =>
        have hid : f'.child? scope other = some id := by
          rw [h.child, if_neg fun hand => hkey hand.2, hchild]
        have hleaf : f'.child? scope key = some leaf := by rw [h.child, if_pos ⟨rfl, rfl⟩]
        have hne : id ≠ leaf := by
          rintro rfl
          have hnames := (mem_of_child? hid).2.symm.trans (mem_of_child? hleaf).2
          exact hkey (Option.some.inj hnames)
        rw [Option.map_some, Option.map_some, h.raw, if_neg hne]
  · rw [if_neg fun hand => hname hand.1]
    cases hroot : f.child? root name with
    | none => rfl
    | some first =>
      have hne : first ≠ scope := by
        rintro rfl
        have hnames := (mem_of_child? hroot).2.symm.trans (mem_of_child? hs).2
        exact hname (Option.some.inj hnames)
      rw [Option.bind_some, Option.bind_some, h.child, if_neg fun hand => hne hand.1]
      cases hchild : f.child? first other with
      | none => rfl
      | some id =>
        have hid : f'.child? first other = some id := by
          rw [h.child, if_neg fun hand => hne hand.1, hchild]
        have hparent := h.sound.parent first id (mem_of_child? hid).1
        have hneLeaf : id ≠ leaf := by
          rintro rfl
          exact hne (Option.some.inj (hparent.symm.trans h.parent))
        rw [Option.map_some, Option.map_some, h.raw, if_neg hneLeaf]

end Keys

section NewScope

variable {f : Forest} (hf : f.Sound) (hp : root < f.size) {name : String}
  (hfresh : f.child? root name = none)

include hf hp hfresh

/-- A new scope in the root is found under its name, and all others as before. -/
theorem child?_root_addChild (other : String) : (f.addChild root name).child? root other =
    if other = name then some f.size else f.child? root other := by
  rw [child?_addChild hp name hf.layered]
  by_cases h : other = name
  · rw [if_pos ⟨rfl, h⟩, if_pos h, h, hfresh, Option.none_or]
  · rw [if_neg fun hand => h hand.2, if_neg h, Option.or_none]

/-- A new scope in the root holds nothing, and all others what they held. -/
theorem held?_addChild (owner key : String) :
    (f.addChild root name).held? owner key = f.held? owner key := by
  rw [held?, leaf?, child?_root_addChild hf hp hfresh, held?, leaf?]
  by_cases h : owner = name
  · have hbare : f.child? f.size key = none := by rw [child?, children, get?_size]; rfl
    have hne : f.size ≠ root := Nat.ne_of_gt hp
    rw [if_pos h, h, hfresh, Option.bind_some, child?_addChild hp name hf.layered, hbare,
      if_neg fun hand => hne hand.1]
    rfl
  · rw [if_neg h]
    cases hroot : f.child? root owner with
    | none => rfl
    | some scope =>
      have hne := hf.ne_root (mem_of_child? hroot).1
      rw [Option.bind_some, Option.bind_some, child?_addChild hp name hf.layered,
        if_neg fun hand => hne hand.1, Option.or_none]
      cases hchild : f.child? scope key with
      | none => rfl
      | some id => rw [Option.map_some, Option.map_some, raw?_addChild hp]

/-- A scope that is added to the root shares no value. -/
theorem shared?_addChild (other : String) :
    (f.addChild root name).shared? other = f.shared? other := by
  rw [shared?, shared?, child?_root_addChild hf hp hfresh]
  by_cases h : other = name
  · rw [if_pos h, h, hfresh, Option.bind_some, raw?_addChild hp, raw?, content?, get?_size]
    rfl
  · rw [if_neg h]
    cases hchild : f.child? root other with
    | none => rfl
    | some id => exact raw?_addChild hp name id

/-- A scope that is added to the root is open for values in it. -/
theorem open_addChild : (f.addChild root name).Open name := by
  refine ⟨f.size, by rw [child?_root_addChild hf hp hfresh, if_pos rfl], ?_⟩
  rw [raw?_addChild hp, raw?, content?, get?_size]
  rfl

theorem Open.addChild {owner : String} (h : f.Open owner) : (f.addChild root name).Open owner := by
  obtain ⟨scope, hs, hraw⟩ := h
  refine ⟨scope, ?_, by rw [raw?_addChild hp, hraw]⟩
  rw [child?_root_addChild hf hp hfresh, if_neg fun heq => ?_, hs]
  rw [heq, hfresh] at hs
  cases hs

/-- A new scope in the root has no value to be led to, so references lead to no more values. -/
theorem Beside.of_addChild {start id : ScopeId} {path : List String} {consumed : Nat}
    (h : (f.addChild root name).Beside start path id consumed) (hstart : start < f.size)
    (hid : (f.raw? id).isSome) : f.Beside start path id consumed := by
  have hold : id ≠ f.size := by
    rintro rfl
    rw [raw?, content?, get?_size] at hid
    cases hid
  have hne : start ≠ f.size := Nat.ne_of_lt hstart
  cases h with
  | own hleaf =>
    rw [child?_addChild hp name hf.layered] at hleaf
    rcases Option.or_eq_some_iff.mp hleaf with hleaf | ⟨-, hnew⟩
    · exact .own hleaf
    · split at hnew
      · exact absurd (Option.some.inj hnew).symm hold
      · cases hnew
  | @shared key fields _ hown hname hparent hleaf =>
    rw [child?_addChild hp name hf.layered] at hown
    rw [name?_addChild hp, if_neg hne] at hname
    rw [parent?_addChild hp, if_neg hne] at hparent
    rw [child?_root_addChild hf hp hfresh] at hleaf
    split at hleaf
    · exact absurd (Option.some.inj hleaf).symm hold
    · exact .shared (Option.or_eq_none_iff.mp hown).1 hname hparent hleaf
  | @named owner key fields scope _ hown hname hparent hscope hleaf =>
    rw [child?_addChild hp name hf.layered] at hown hleaf
    rw [name?_addChild hp, if_neg hne] at hname
    rw [parent?_addChild hp, if_neg hne] at hparent
    have hleaf : f.child? scope key = some id := by
      rcases Option.or_eq_some_iff.mp hleaf with hleaf | ⟨-, hnew⟩
      · exact hleaf
      · split at hnew
        · exact absurd (Option.some.inj hnew).symm hold
        · cases hnew
    have hscope : f.child? root owner = some scope := by
      rw [child?_root_addChild hf hp hfresh] at hscope
      split at hscope
      · rw [← Option.some.inj hscope, child?, children, get?_size] at hleaf
        cases hleaf
      · exact hscope
    exact .named (Option.or_eq_none_iff.mp hown).1 hname hparent hscope hleaf

end NewScope

end Forest

end Pipework
