import Pipework.Proofs.Calls
import Pipework.Proofs.LastHanded

/-!
# Trees that only grow

While values are handed on, nodes are put in and all is resolved, no scope of a graph goes away and no
value is lost: scopes are added, and values take the place of others. So a reference that leads to a
value afterwards led there before, if there was one before. If nothing that a value reads in the end
is another than before, the value comes to what it came to, whatever else is remembered, and even
where a scope has come to stand in the way of other references.
-/

namespace Pipework

open Step Resolve

namespace Forest

/-- One forest comes from another by adding scopes and setting values. -/
inductive Grows (f : Forest) : Forest → Prop
  | refl : Grows f f
  | addChild {f' : Forest} (h : Grows f f') {parent : ScopeId} (hp : parent < f'.size)
      (name : String) : Grows f (f'.addChild parent name)
  | setEntry {f' : Forest} (h : Grows f f') (id : ScopeId) (entry : Entry) :
      Grows f (f'.setEntry id entry)

theorem Grows.trans {f f' f'' : Forest} (h : f.Grows f') (h' : f'.Grows f'') : f.Grows f'' := by
  induction h' with
  | refl => exact h
  | addChild _ hp name ih => exact ih.addChild hp name
  | setEntry _ id entry ih => exact ih.setEntry id entry

/-- Setting a value takes none away. -/
theorem isSome_raw?_setEntry {f : Forest} {id : ScopeId} (h : (f.raw? id).isSome) (target : ScopeId)
    (entry : Entry) : ((f.setEntry target entry).raw? id).isSome := by
  rw [raw?_setEntry]
  split
  · rfl
  · exact h

/-- A way down to a scope that has a value was there before a value was set. -/
theorem descend?_of_setEntry {f : Forest} {target id : ScopeId} {entry : Entry} {path : List String}
    {found : ScopeId × Nat} (h : (f.setEntry target entry).descend? id path = some found)
    (hfound : (f.raw? found.1).isSome) : f.descend? id path = some found := by
  induction path generalizing id found with
  | nil => exact h
  | cons segment rest ih =>
    rw [descend?, child?_setEntry] at h
    rw [descend?]
    cases hchild : f.child? id segment with
    | some next =>
      simp only [hchild] at h ⊢
      obtain ⟨further, hfurther, rfl⟩ := Option.map_eq_some_iff.mp h
      rw [ih hfurther hfound, Option.map_some]
    | none =>
      simp only [hchild] at h ⊢
      split at h
      next =>
        obtain rfl := Option.some.inj h
        exact if_pos hfound
      next => cases h

/-- A reference leads to a scope that held a value before only if it led there before. -/
theorem lookup?_of_setEntry {f : Forest} {target start id : ScopeId} {entry : Entry}
    {path : List String} {consumed : Nat}
    (h : (f.setEntry target entry).lookup? start path = some (id, consumed))
    (hid : (f.raw? id).isSome) : f.lookup? start path = some (id, consumed) := by
  cases path with
  | nil => cases h
  | cons first rest =>
    obtain ⟨anchor, hanchor, h⟩ := Option.bind_eq_some_iff.mp h
    obtain ⟨found, hfound, h⟩ := Option.bind_eq_some_iff.mp h
    obtain ⟨rfl, rfl⟩ := Prod.mk.inj (Option.some.inj h)
    rw [(sameScopes_setEntry f target entry).anchor?] at hanchor
    refine Option.bind_eq_some_iff.mpr ⟨anchor, hanchor, ?_⟩
    exact Option.bind_eq_some_iff.mpr ⟨found, descend?_of_setEntry hfound hid, rfl⟩

section Grows

variable {f f' : Forest} (h : f.Grows f')

include h

/-- A forest that grows gets no fewer scopes. -/
theorem Grows.size_le : f.size ≤ f'.size := by
  induction h with
  | refl => exact le_rfl
  | addChild _ hp name ih =>
    rw [size_addChild]
    exact ih.trans (Nat.le_succ _)
  | setEntry _ id entry ih => exact ih.trans_eq (sameScopes_setEntry _ id entry).size.symm

/-- In a forest that grows scopes stay where they are. -/
theorem Grows.parent? {id : ScopeId} (hid : id < f.size) : f'.parent? id = f.parent? id := by
  induction h with
  | refl => rfl
  | @addChild f' h _ hp name ih =>
    rw [parent?_addChild hp, if_neg (hid.trans_le h.size_le).ne, ih]
  | setEntry _ target entry ih => rw [parent?_setEntry, ih]

/-- In a forest that grows scopes keep their names. -/
theorem Grows.name? {id : ScopeId} (hid : id < f.size) : f'.name? id = f.name? id := by
  induction h with
  | refl => rfl
  | addChild h hp name ih => rw [name?_addChild hp, if_neg (hid.trans_le h.size_le).ne, ih]
  | setEntry _ target entry ih => rw [name?_setEntry, ih]

/-- No value is lost. -/
theorem Grows.isSome_raw? {id : ScopeId} (hid : (f.raw? id).isSome) : (f'.raw? id).isSome := by
  induction h with
  | refl => exact hid
  | addChild _ hp name ih => rwa [raw?_addChild hp]
  | setEntry _ target entry ih => exact isSome_raw?_setEntry ih target entry

variable (hf : f.Layered)

include hf

/-- In a forest that grows scopes stay older than those in them. -/
theorem Grows.layered : f'.Layered := by
  induction h with
  | refl => exact hf
  | addChild _ hp name ih => exact ih.addChild hp name
  | setEntry _ target entry ih => exact ih.setEntry target entry

/-- Scopes go on being found. -/
theorem Grows.child? {id child : ScopeId} {name : String} (hchild : f.child? id name = some child) :
    f'.child? id name = some child := by
  induction h with
  | refl => exact hchild
  | addChild h hp other ih => rw [child?_addChild hp other (h.layered hf), ih, Option.some_or]
  | setEntry _ target entry ih => rwa [child?_setEntry]

/-- What is found was found before, if it is no new scope. -/
theorem Grows.child?_of_lt {id child : ScopeId} {name : String}
    (hchild : f'.child? id name = some child) (hlt : child < f.size) :
    f.child? id name = some child := by
  induction h with
  | refl => exact hchild
  | addChild h hp other ih =>
    rw [child?_addChild hp other (h.layered hf), Option.or_eq_some_iff] at hchild
    rcases hchild with hchild | ⟨-, hnew⟩
    · exact ih hchild
    · obtain ⟨-, hnew⟩ := Option.ite_none_right_eq_some.mp hnew
      exact absurd hlt (Nat.not_lt.mpr (Option.some.inj hnew ▸ h.size_le))
  | setEntry _ target entry ih =>
    rw [child?_setEntry] at hchild
    exact ih hchild

/-- In a forest that grows the same scopes are found under names and keys. -/
theorem Grows.place? {owner? : Option String} {key : String} {id : ScopeId}
    (hplace : f.place? owner? key = some id) : f'.place? owner? key = some id := by
  obtain ⟨room, hroom, hchild⟩ := Option.bind_eq_some_iff.mp hplace
  refine Option.bind_eq_some_iff.mpr ⟨room, ?_, h.child? hf hchild⟩
  cases owner? with
  | none => exact hroom
  | some owner => exact h.child? hf hroom

/-- A reference that leads to a value led there before, if there was one before. -/
theorem Grows.lookup? {start id : ScopeId} (hstart : start < f.size) {path : List String}
    {consumed : Nat} (hid : (f.raw? id).isSome)
    (hlookup : f'.lookup? start path = some (id, consumed)) :
    f.lookup? start path = some (id, consumed) := by
  induction h with
  | refl => exact hlookup
  | addChild h hp name ih =>
    exact ih (lookup?_of_addChild (h.layered hf) hp name (hstart.trans_le h.size_le) hlookup
      (h.isSome_raw? hid))
  | setEntry h target entry ih => exact ih (lookup?_of_setEntry hlookup (h.isSome_raw? hid))

end Grows

/-- The value of a scope and all that it reads, directly or from reference to reference, are values
of such scopes. -/
inductive Reads (f : Forest) (P : ScopeId → Prop) : ScopeId → Prop
  | intro {id : ScopeId} {raw : Value} (hp : P id) (hraw : f.raw? id = some raw)
      (hleads : ∀ path ∈ raw.references, (f.lookup? ((f.parent? id).getD id) path).isSome)
      (hreads : ∀ path ∈ raw.references, ∀ other consumed,
        f.lookup? ((f.parent? id).getD id) path = some (other, consumed) → Reads f P other) :
      Reads f P id

/-- What is read is a value, and has the property. -/
theorem Reads.raw? {f : Forest} {P : ScopeId → Prop} {id : ScopeId} (h : f.Reads P id) :
    P id ∧ (f.raw? id).isSome := by
  cases h with
  | intro hp hraw => exact ⟨hp, Option.isSome_of_eq_some hraw⟩

/-- A value without references reads nothing but itself. -/
theorem Reads.of_plain {f : Forest} {P : ScopeId → Prop} {id : ScopeId} {raw : Value} (hp : P id)
    (hraw : f.raw? id = some raw) (hplain : raw.references = []) : f.Reads P id := by
  refine .intro hp hraw (fun path hpath => ?_) fun path hpath => ?_ <;>
  · rw [hplain] at hpath
    exact absurd hpath List.not_mem_nil

/-- What reads only values with one property reads only values with any that follows. -/
theorem Reads.mono {f : Forest} {P Q : ScopeId → Prop} {id : ScopeId} (h : f.Reads P id)
    (himp : ∀ id, P id → (f.raw? id).isSome → Q id) : f.Reads Q id := by
  induction h with
  | @intro id raw hp hraw hleads _ ih =>
    exact .intro (himp id hp (Option.isSome_of_eq_some hraw)) hraw hleads ih

end Forest

namespace Resolve

/-- What is remembered of a value came out when its references were answered by what was remembered
before, if they all lead to values. -/
theorem Backed.exists_earlier {f : Forest} {m : Memo} (h : Backed f m) {id : ScopeId} {raw v : Value}
    (hv : m.lookup id = some v) (hraw : f.raw? id = some raw)
    (hleads : ∀ path ∈ raw.references, ∃ other consumed,
      f.lookup? ((f.parent? id).getD id) path = some (other, consumed) ∧ (f.raw? other).isSome) :
    ∃ earlier, Backed f earlier ∧
      valueWith (fromMemory f earlier ((f.parent? id).getD id)) raw = .ok v := by
  induction m with
  | nil => cases hv
  | cons entry earlier ih =>
    obtain ⟨other, w⟩ := entry
    obtain ⟨hearlier, raw', answer, hraw', hw, hsame⟩ := h
    rw [List.lookup_cons] at hv
    split at hv
    next heq =>
      obtain rfl := eq_of_beq heq
      obtain rfl := Option.some.inj hv
      obtain rfl := Option.some.inj (hraw.symm.trans hraw')
      refine ⟨earlier, hearlier, valueWith_mono (fun path hp x hx => ?_) hw⟩
      obtain ⟨target, consumed, hlookup, hvalued⟩ := hleads path hp
      rwa [← hsame path hp target consumed hlookup hvalued]
    next => exact ih hearlier hv

/-- What is remembered of a value at two moments is the same if the tree only grew between them and
nothing that the value reads at the later one was another before. The induction follows what is read. -/
theorem lookup_unique {f f' : Forest} (hf : f.Layered) (hgrows : f.Grows f') {id : ScopeId}
    (h : f'.Reads (fun id => f.raw? id = f'.raw? id) id) {m m' : Memo} (hm : Backed f m)
    (hm' : Backed f' m') {v w : Value} (hv : m.lookup id = some v) (hw : m'.lookup id = some w) :
    v = w := by
  induction h generalizing m m' v w with
  | @intro id raw hsame hraw hleads hreads ih =>
    have hbefore : f.raw? id = some raw := hsame.trans hraw
    have hid : id < f.size := Forest.lt_size_of_raw? (Option.isSome_of_eq_some hbefore)
    have hparent := hgrows.parent? hid
    have hstart : (f.parent? id).getD id < f.size := by
      cases habove : f.parent? id with
      | none => exact hid
      | some above => exact (hf.older id above habove).trans hid
    have hfound : ∀ path ∈ raw.references, ∃ other consumed,
        f'.lookup? ((f'.parent? id).getD id) path = some (other, consumed) ∧
          f.lookup? ((f.parent? id).getD id) path = some (other, consumed) ∧
          (f'.raw? other).isSome ∧ (f.raw? other).isSome := by
      intro path hpath
      obtain ⟨⟨other, consumed⟩, hlookup⟩ := Option.isSome_iff_exists.mp (hleads path hpath)
      obtain ⟨hsame', hvalued⟩ := (hreads path hpath other consumed hlookup).raw?
      have hvalued₀ : (f.raw? other).isSome := by rwa [hsame']
      exact ⟨other, consumed, hlookup, hgrows.lookup? hf hstart hvalued₀ (hparent ▸ hlookup), hvalued,
        hvalued₀⟩
    obtain ⟨m₁, hm₁, hvalue⟩ := hm.exists_earlier hv hbefore fun path hpath => by
      obtain ⟨other, consumed, -, hlookup, -, hvalued⟩ := hfound path hpath
      exact ⟨other, consumed, hlookup, hvalued⟩
    obtain ⟨m₁', hm₁', hvalue'⟩ := hm'.exists_earlier hw hraw fun path hpath => by
      obtain ⟨other, consumed, hlookup, -, hvalued, -⟩ := hfound path hpath
      exact ⟨other, consumed, hlookup, hvalued⟩
    refine valueWith_unique (fun path hpath a b ha hb => ?_) hvalue hvalue'
    obtain ⟨other, consumed, hlookup, hlookup₀, -, -⟩ := hfound path hpath
    obtain ⟨x, hx, ha⟩ := exists_lookup_of_fromMemory hlookup₀ ha
    obtain ⟨y, hy, hb⟩ := exists_lookup_of_fromMemory hlookup hb
    obtain rfl := ih path hpath other consumed hlookup hm₁ hm₁' hx hy
    exact Except.ok.inj (ha.symm.trans hb)

end Resolve

namespace ScopeTree

/-- If the tree is sane it stays so, and its scopes only grow. -/
def Evolves (tree tree' : ScopeTree) : Prop :=
  tree.Sane → tree'.Sane ∧ tree.forest.Grows tree'.forest

instance : Std.Refl Evolves := ⟨fun _ h => ⟨h, .refl⟩⟩

instance : IsTrans ScopeTree Evolves where
  trans _ _ _ h h' hsane := by
    obtain ⟨hmiddle, hgrows⟩ := h hsane
    obtain ⟨hlast, hgrows'⟩ := h' hmiddle
    exact ⟨hlast, hgrows.trans hgrows'⟩

/-- Adding a scope has a tree grow. -/
theorem evolves_createChild (parent : ScopeId) (name : String) :
    Moves Evolves (createChild parent name) := by
  intro tree hsane
  refine ⟨covers_keepsSane.moves_createChild parent name tree hsane, ?_⟩
  cases h : createChild parent name tree with
  | ok id tree' =>
    obtain ⟨hp, -, -, -, rfl⟩ := createChild_eq_ok h
    exact Forest.Grows.refl.addChild hp name
  | error e tree' =>
    obtain rfl := createChild_eq_error h
    exact .refl

/-- Storing a value has a tree grow. -/
theorem evolves_store (id : ScopeId) (value : Value) (binding? : Option Binding) :
    Moves Evolves (store id value binding?) := by
  intro tree hsane
  refine ⟨covers_keepsSane.moves_store id value binding? tree hsane, ?_⟩
  cases h : store id value binding? tree with
  | ok u tree' =>
    obtain ⟨-, kept, rfl⟩ := store_eq_ok h
    exact Forest.Grows.refl.setEntry id _
  | error e tree' =>
    obtain rfl := store_eq_error h
    exact .refl

/-- All that is done to the tree of a graph has the tree grow. -/
theorem underlies_evolves : Underlies Evolves where
  learn tree tree' hforest hlearns hsane := by
    refine ⟨⟨hforest ▸ hsane.layered, ?_⟩, hforest ▸ .refl⟩
    rw [hforest]
    exact hlearns.backed hsane.backed
  createChild := evolves_createChild
  put scope key := moves_put_of (evolves_createChild scope key) fun id value =>
    evolves_store id value none

/-- The tree that there is at first is sane. -/
theorem sane_initial : initial.Sane := (Reachable.start []).sane

end ScopeTree

namespace Graph

/-- The scope tree of a graph that was built is sane. -/
theorem sane_build {pipeline : Pipeline} {built : Graph} (h : build pipeline = .ok built) :
    built.scope.Sane :=
  (onScopes_build ScopeTree.underlies_evolves h ScopeTree.sane_initial).1

end Graph

end Pipework
