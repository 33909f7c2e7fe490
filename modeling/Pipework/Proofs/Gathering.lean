import Pipework.Proofs.Insertion
import Pipework.Proofs.KeptMeaning
import Pipework.Proofs.Leaves

/-!
# Gathering a list output by output

A list that gathers is put together anew with every output that is handed to it. In between it holds
some of its elements as they are written, and the scalars of what others refer to. Once all outputs
that it refers to were handed to it, it holds what rests, and the scalars of all that it gathers: no
scalar is lost on the way and none is made up.
-/

namespace Pipework

open Step Resolve

namespace Value

/-- A scalar is in a value if it is in one of the elements of the value taken as a list. -/
theorem mem_leaves {v y : Value} : y ∈ v.leaves ↔ ∃ x ∈ v.toList, y ∈ x.leaves := by
  rw [← allLeaves_toList, mem_allLeaves]

/-- Scalars that stand for the same are the same one, if they are no floats. -/
theorem eq_of_sameScalar {z y : Value} (h : sameScalar z y = true) :
    z = y ∨ z.mayRefer = false ∧ y.mayRefer = false := by
  rcases sameScalar_cases h with heq | ⟨a, b, rfl, rfl, -⟩
  · exact .inl heq
  · exact .inr ⟨rfl, rfl⟩

end Value

namespace Merge

/-- A placeholder is one reference to the output and nothing else. -/
theorem placeholder?_eq_some {property : String} {names : List String} {x : Value}
    {path fields : List String} : placeholder? property names x = some (path, fields) ↔
      ∃ text, x = .str text ∧ Template.singleReference? text = some path ∧
        fieldsOf? property names path = some fields := by
  constructor
  · intro h
    obtain ⟨text, htext, h⟩ := Option.bind_eq_some_iff.mp h
    obtain ⟨other, hsingle, h⟩ := Option.bind_eq_some_iff.mp h
    obtain ⟨found, hfields, h⟩ := Option.bind_eq_some_iff.mp h
    obtain ⟨rfl, rfl⟩ := Prod.mk.inj (Option.some.inj h)
    refine ⟨text, ?_, hsingle, hfields⟩
    cases x with
    | str s => rw [Option.some.inj htext]
    | bool _ | int _ | float _ | list _ => cases htext
  · rintro ⟨text, rfl, hsingle, hfields⟩
    simp [placeholder?, Value.text?, hsingle, hfields]

/-- A reference names an output of a node if it begins with the names of the two. -/
theorem fieldsOf?_eq_some {property name : String} {path fields : List String} :
    fieldsOf? property [name, name] path = some fields ↔ path = name :: property :: fields := by
  constructor
  · intro h
    rw [fieldsOf?.eq_def] at h
    split at h
    · split at h
      next hboth =>
        obtain rfl := Option.some.inj h
        obtain ⟨rfl, hname⟩ := hboth
        obtain rfl : _ = name := by simpa using hname
        rfl
      next => cases h
    next => cases h
  · rintro rfl
    simp [fieldsOf?]

/-- A placeholder has one reference, the one to the output. -/
theorem references_of_placeholder? {property : String} {names : List String} {x : Value}
    {path fields : List String} (h : placeholder? property names x = some (path, fields)) :
    x.references = [path] := by
  obtain ⟨text, rfl, hsingle, -⟩ := placeholder?_eq_some.mp h
  exact Template.references_of_singleReference? hsingle

end Merge

namespace Graph

/-- A scalar has arrived: it is in an element that rests, or in what a reference stands for to an output
that was handed on. -/
inductive Arrived (g : Graph) (node : Node) (id : ScopeId) (raw : Value) (m : Memo)
    (got : NodeId → String → Prop) (y : Value) : Prop
  | rests {x : Value} (hx : x ∈ raw.toList) (hrests : g.Rests node (g.scope.forest.seat id) x)
      (hy : y ∈ x.leaves)
  | handed {x w : Value} {path : List String} {owner : OutputOwner} (hx : x ∈ raw.toList)
      (hcalls : g.Calls node (g.scope.forest.seat id) x path owner)
      (hgot : got owner.node.id owner.parameter.name)
      (hw : fromMemory g.scope.forest m (g.scope.forest.seat id) path = .ok w) (hy : y ∈ w.leaves)

/-- What a list holds while some of the outputs that it refers to were handed to it. -/
structure Gathering (g : Graph) (node : Node) (id : ScopeId) (raw : Value) (m : Memo)
    (got : NodeId → String → Prop) (now : Value) : Prop where
  /-- It holds elements as they are written, and what has arrived. -/
  known : ∀ x ∈ now.toList, x ∈ raw.toList ∨ g.Arrived node id raw m got x
  /-- It holds all that has arrived. -/
  all : ∀ y, g.Arrived node id raw m got y → y ∈ now.leaves
  /-- It refers to none of the outputs any more that were handed on. -/
  waiting : ∀ x ∈ now.toList, ∀ path owner, g.Calls node (g.scope.forest.seat id) x path owner →
    ¬ got owner.node.id owner.parameter.name

/-- One more output is handed on. -/
def Further (got : NodeId → String → Prop) (owner : OutputOwner) : NodeId → String → Prop :=
  fun id key => got id key ∨ id = owner.node.id ∧ key = owner.parameter.name

section Arrived

variable {g : Graph} {node : Node} {id : ScopeId} {raw : Value} {m : Memo}
  {got : NodeId → String → Prop} {y : Value} (h : g.Arrived node id raw m got y)

include h

/-- What has arrived is a scalar. -/
theorem Arrived.isList : y.isList = false := by
  cases h with
  | rests _ _ hy => exact Value.isList_of_mem_leaves hy
  | handed _ _ _ _ hy => exact Value.isList_of_mem_leaves hy

/-- What has arrived is the scalar in it. -/
theorem Arrived.self_mem_leaves : y ∈ y.leaves := by
  rw [Value.leaves_of_not_isList h.isList]
  exact List.mem_singleton_self y

/-- What has arrived is still there when more is handed on. -/
theorem Arrived.further (owner : OutputOwner) :
    g.Arrived node id raw m (Further got owner) y := by
  cases h with
  | rests hx hrests hy => exact .rests hx hrests hy
  | handed hx hcalls hgot hw hy => exact .handed hx hcalls (.inl hgot) hw hy

end Arrived

/-- An element that calls for an output refers to nothing else. -/
theorem Calls.references {g : Graph} {node : Node} {start : ScopeId} {x : Value} {path : List String}
    {owner : OutputOwner} (h : g.Calls node start x path owner) : x.references = [path] := by
  obtain ⟨text, rfl, hsingle, -⟩ := h
  exact Template.references_of_singleReference? hsingle

/-- An element that calls for an output asks for it. -/
theorem Calls.asks {g : Graph} {node : Node} {start : ScopeId} {x : Value} {path : List String}
    {owner : OutputOwner} (h : g.Calls node start x path owner) : g.Asks node start path owner := by
  obtain ⟨text, rfl, -, hasks, -⟩ := h
  exact hasks

/-- An element that calls for an output does not rest. -/
theorem Calls.not_rests {g : Graph} {node : Node} {start : ScopeId} {x : Value} {path : List String}
    {owner : OutputOwner} (h : g.Calls node start x path owner) : ¬ g.Rests node start x := by
  intro hrests
  have hin : path ∈ x.references := by simp [h.references]
  exact hrests path hin owner h.asks

/-- An element that calls for an output is a scalar. -/
theorem Calls.leaves {g : Graph} {node : Node} {start : ScopeId} {x : Value} {path : List String}
    {owner : OutputOwner} (h : g.Calls node start x path owner) : x.leaves = [x] := by
  obtain ⟨text, rfl, -⟩ := h
  rfl

section Owner

variable {g : Graph} (hm : g.Mirrored) {node : Node} {start : ScopeId} {x : Value}
  {path : List String} {owner : OutputOwner} (h : g.Calls node start x path owner)
  (hheld : (g.scope.forest.raw? owner.scope).isSome)

include hm h hheld

/-- Whatever parts are asked for, a reference that is written in the same way leads to the output. -/
theorem Calls.of_segments {text : String} {fields : List String} (hsingle : Template.singleReference? text =
      some (owner.node.name :: owner.parameter.name :: fields)) :
    g.Calls node start (.str text) (owner.node.name :: owner.parameter.name :: fields) owner := by
  obtain ⟨-, -, -, ⟨howner, hne⟩, hlookup, others, rfl⟩ := h
  have hsame := Forest.lookup?_behind hm.sound hlookup hheld fields
  rw [hlookup] at howner
  exact ⟨text, rfl, hsingle, ⟨by rw [hsame]; exact howner, hne⟩, hsame, fields, rfl⟩

/-- Which output it is shows in its name. -/
theorem Calls.owner_eq {x' : Value} {path' : List String} {owner' : OutputOwner}
    (h' : g.Calls node start x' path' owner') (hid : owner'.node.id = owner.node.id)
    (hname : owner'.parameter.name = owner.parameter.name) : owner' = owner := by
  obtain ⟨text, rfl, hsingle, ⟨howner', hne⟩, -, fields, rfl⟩ := h'
  obtain ⟨-, -, -, ⟨howner, -⟩, -⟩ := id h
  obtain ⟨_, -, hat⟩ := Option.bind_eq_some_iff.mp howner
  obtain ⟨_, -, hat'⟩ := Option.bind_eq_some_iff.mp howner'
  have hnode := List.inj_on_of_nodup_map hm.ids (outputOwner?_spec hat').1 (outputOwner?_spec hat).1 hid
  rw [hnode, hname] at hsingle howner'
  obtain ⟨-, -, -, ⟨hsame, -⟩, -⟩ := h.of_segments hm hheld hsingle
  exact Option.some.inj (howner'.symm.trans hsame)

end Owner

/-- At first nothing was handed on. -/
theorem gathering_nothing (g : Graph) (node : Node) (id : ScopeId) (raw : Value) (m : Memo) :
    g.Gathering node id raw m (fun _ _ => False) raw where
  known x hx := .inl hx
  all y hy := by
    cases hy with
    | rests hx _ hy => exact Value.mem_leaves.mpr ⟨_, hx, hy⟩
    | handed _ _ hgot _ _ => cases hgot
  waiting _ _ _ _ _ hgot := hgot

section Gathers

variable {g : Graph} (hm : g.Mirrored) {node : Node} {p : Parameter} {id : ScopeId} {raw v : Value}
  {m : Memo} (h : g.Gathers node p id raw v m)

include h

/-- What an element that is a reference stands for is in the list. -/
theorem Gathers.exists_answer {x : Value} (hx : x ∈ raw.toList) {path : List String}
    {owner : OutputOwner} (hcalls : g.Calls node (g.scope.forest.seat id) x path owner) :
    ∃ u w, m.lookup owner.scope = some u ∧
      fromMemory g.scope.forest m (g.scope.forest.seat id) path = .ok w ∧
      FileField.derive u (path.drop 2) (joinPath path) = .ok w ∧ ∀ y ∈ w.leaves, y ∈ v.leaves := by
  have hleaf : x ∈ raw.leaves := Value.mem_leaves.mpr ⟨x, hx, by simp [hcalls.leaves]⟩
  obtain ⟨w, hw⟩ := exists_valueWith_of_mem_leaves h.value hleaf
  have hall : ∀ y ∈ w.leaves, y ∈ v.leaves := fun y hy =>
    (mem_leaves_of_valueWith h.value).mpr ⟨x, hleaf, w, hw, hy⟩
  obtain ⟨text, rfl, hsingle, -, hlookup, -⟩ := hcalls
  rw [valueWith_of_singleReference? hsingle] at hw
  obtain ⟨u, hu, hderive⟩ := exists_lookup_of_fromMemory hlookup hw
  exact ⟨u, w, hu, hw, hderive, hall⟩

variable {got : NodeId → String → Prop} {y : Value}

/-- What has arrived refers to no output that is handed on. -/
theorem Arrived.not_asks (hy : g.Arrived node id raw m got y) :
    ∀ path ∈ y.references, ∀ owner, ¬ g.Asks node (g.scope.forest.seat id) path owner := by
  intro path hp owner
  cases hy with
  | rests hx hrests hy => exact hrests path (Value.mem_references.mpr ⟨y, hy, hp⟩) owner
  | handed hx hcalls hgot hw hy =>
    have hclear := Value.mayRefer_of_mem_leaves (h.clear _ hx _ _ hcalls _ hw) hy
    rw [Value.references_of_not_mayRefer hclear] at hp
    cases hp

/-- What has arrived calls for nothing. -/
theorem Arrived.not_calls (hy : g.Arrived node id raw m got y) {path : List String}
    {owner : OutputOwner} : ¬ g.Calls node (g.scope.forest.seat id) y path owner := by
  intro hcalls
  exact hy.not_asks h path (by simp [hcalls.references]) owner hcalls.asks

/-- What has arrived and cannot be taken for a reference is in what the list comes to. -/
theorem Arrived.mem_leaves (hy : g.Arrived node id raw m got y) (hclear : y.mayRefer = false) :
    y ∈ v.leaves := by
  have hself := hy.self_mem_leaves
  cases hy with
  | @rests x hx hrests hy =>
    have hleaf : y ∈ raw.leaves := Value.mem_leaves.mpr ⟨x, hx, hy⟩
    exact (mem_leaves_of_valueWith h.value).mpr
      ⟨y, hleaf, y, valueWith_of_not_mayRefer hclear, hself⟩
  | handed hx hcalls hgot hw hy =>
    obtain ⟨u, w', -, hw', -, hall⟩ := h.exists_answer hx hcalls
    obtain rfl := Except.ok.inj (hw.symm.trans hw')
    exact hall y hy

/-- A scalar in an element is that element, which waits for an output, or it has arrived. -/
theorem Gathering.known_of_leaf {now : Value} (hg : g.Gathering node id raw m got now) {x : Value}
    (hx : x ∈ now.toList) (hy : y ∈ x.leaves) :
    (y = x ∧ x ∈ raw.toList ∧ ∃ path owner, g.Calls node (g.scope.forest.seat id) x path owner) ∨
      g.Arrived node id raw m got y := by
  rcases hg.known x hx with hraw | harrived
  · rcases h.elements x hraw with ⟨path, owner, hcalls⟩ | hrests
    · rw [hcalls.leaves] at hy
      exact .inl ⟨List.mem_singleton.mp hy, hraw, path, owner, hcalls⟩
    · exact .inr (.rests hraw hrests hy)
  · rw [Value.leaves_of_not_isList harrived.isList] at hy
    exact .inr (List.mem_singleton.mp hy ▸ harrived)

/-- Once all outputs were handed to it, the list comes to the scalars that it came to when the graph was
built. -/
theorem Gathering.leaves {now : Value} (hg : g.Gathering node id raw m got now)
    (hall : ∀ x ∈ raw.toList, ∀ path owner, g.Calls node (g.scope.forest.seat id) x path owner →
      got owner.node.id owner.parameter.name)
    {answer : List String → Except ScopeError Value} {u : Value} (hu : valueWith answer now = .ok u)
    (hrest : ∀ x ∈ raw.toList, g.Rests node (g.scope.forest.seat id) x → ∀ l ∈ x.leaves, ∀ a b,
      valueWith (fromMemory g.scope.forest m (g.scope.forest.seat id)) l = .ok a →
        valueWith answer l = .ok b → ∀ y, y ∈ b.leaves ↔ y ∈ a.leaves) (y : Value) :
    y ∈ u.leaves ↔ y ∈ v.leaves := by
  have harrived : ∀ l ∈ now.leaves, g.Arrived node id raw m got l := by
    intro l hl
    obtain ⟨x, hx, hl⟩ := Value.mem_leaves.mp hl
    rcases hg.known_of_leaf h hx hl with ⟨rfl, hraw, path, owner, hcalls⟩ | harrived
    · exact absurd (hall l hraw path owner hcalls) (hg.waiting l hx path owner hcalls)
    · exact harrived
  rw [mem_leaves_of_valueWith hu]
  constructor
  · rintro ⟨l, hl, part, hpart, hy⟩
    cases harrived l hl with
    | @rests x hx hrests hlx =>
      have hleaf : l ∈ raw.leaves := Value.mem_leaves.mpr ⟨x, hx, hlx⟩
      obtain ⟨old, hold⟩ := exists_valueWith_of_mem_leaves h.value hleaf
      have hold' := (hrest x hx hrests l hlx old part hold hpart y).mp hy
      exact (mem_leaves_of_valueWith h.value).mpr ⟨l, hleaf, old, hold, hold'⟩
    | handed hx hcalls hgot hw hlw =>
      have hclear := Value.mayRefer_of_mem_leaves (h.clear _ hx _ _ hcalls _ hw) hlw
      rw [valueWith_of_not_mayRefer hclear] at hpart
      obtain rfl := Except.ok.inj hpart
      rw [Value.leaves_of_not_isList (Value.isList_of_mem_leaves hlw)] at hy
      obtain rfl := List.mem_singleton.mp hy
      exact (harrived y hl).mem_leaves h hclear
  · intro hy
    obtain ⟨l, hl, part, hpart, hy⟩ := (mem_leaves_of_valueWith h.value).mp hy
    obtain ⟨x, hx, hlx⟩ := Value.mem_leaves.mp hl
    rcases h.elements x hx with ⟨path, owner, hcalls⟩ | hrests
    · obtain ⟨-, w, -, hw, -, -⟩ := h.exists_answer hx hcalls
      rw [hcalls.leaves] at hlx
      obtain rfl := List.mem_singleton.mp hlx
      have hsingle := hcalls
      obtain ⟨text, rfl, hsingle, -⟩ := hsingle
      rw [valueWith_of_singleReference? hsingle, hw] at hpart
      obtain rfl := Except.ok.inj hpart
      have hcame : g.Arrived node id raw m got y :=
        .handed hx hcalls (hall _ hx path owner hcalls) hw hy
      have hclear := Value.mayRefer_of_mem_leaves (h.clear _ hx _ _ hcalls _ hw) hy
      exact ⟨y, hg.all y hcame, y, valueWith_of_not_mayRefer hclear, hcame.self_mem_leaves⟩
    · have hin := hg.all l (.rests hx hrests hlx)
      obtain ⟨new, hnew⟩ := exists_valueWith_of_mem_leaves hu hin
      exact ⟨l, hin, new, hnew, (hrest x hx hrests l hlx part new hpart hnew y).mpr hy⟩

end Gathers

section Step

variable {g : Graph} (hm : g.Mirrored) {node : Node} {p : Parameter} {id : ScopeId} {raw v : Value}
  {m : Memo} {x : Value} {path : List String} {owner : OutputOwner}
  (hx : x ∈ raw.toList) (hcalls : g.Calls node (g.scope.forest.seat id) x path owner)
  (hheld : (g.scope.forest.raw? owner.scope).isSome)

include hm hcalls hheld

/-- The placeholders for an output in the definition are the elements that are references to it. -/
theorem Gathers.calls_iff {y : Value} {path' fields : List String} :
    Merge.placeholder? owner.parameter.name [owner.node.name, owner.node.name] y =
        some (path', fields) ↔
      g.Calls node (g.scope.forest.seat id) y path' owner ∧ path'.drop 2 = fields := by
  rw [Merge.placeholder?_eq_some]
  constructor
  · rintro ⟨text, rfl, hsingle, hfields⟩
    obtain rfl := Merge.fieldsOf?_eq_some.mp hfields
    exact ⟨hcalls.of_segments hm hheld hsingle, rfl⟩
  · rintro ⟨⟨text, rfl, hsingle, -, -, others, rfl⟩, rfl⟩
    exact ⟨text, rfl, hsingle, Merge.fieldsOf?_eq_some.mpr rfl⟩

include hx

/-- What is handed on are the scalars of what the references to the output stand for. -/
theorem Gathers.mem_incoming (h : g.Gathers node p id raw v m) {u : Value} {added : List Value}
    (hu : ∀ w, m.lookup owner.scope = some w → ∀ y, y ∈ u.leaves ↔ y ∈ w.leaves)
    (hadded : Merge.incoming (some raw) u owner.parameter.name [owner.node.name, owner.node.name] =
      .ok added) (y : Value) : y ∈ Value.allLeaves added ↔ ∃ x ∈ raw.toList, ∃ path w,
        g.Calls node (g.scope.forest.seat id) x path owner ∧
          fromMemory g.scope.forest m (g.scope.forest.seat id) path = .ok w ∧ y ∈ w.leaves := by
  have hiff := @Gathers.calls_iff _ hm _ _ _ _ _ hcalls hheld
  -- A part of what is handed on has the scalars of that part of what was meant.
  have hpart : ∀ {x path}, x ∈ raw.toList → g.Calls node (g.scope.forest.seat id) x path owner →
      ∀ {part}, FileField.derive u (path.drop 2) (joinPath path) = .ok part → ∃ w,
        fromMemory g.scope.forest m (g.scope.forest.seat id) path = .ok w ∧
          ∀ y, y ∈ part.leaves ↔ y ∈ w.leaves := by
    intro x path hx hcalls part hpart
    obtain ⟨w₀, w, hlookup, hw, hderive, -⟩ := h.exists_answer hx hcalls
    exact ⟨w, hw, FileField.leaves_derive_congr (hu w₀ hlookup) hpart hderive⟩
  have hplace : (path, path.drop 2) ∈ raw.toList.filterMap (Merge.placeholder? owner.parameter.name
      [owner.node.name, owner.node.name]) :=
    List.mem_filterMap.mpr ⟨x, hx, hiff.mpr ⟨hcalls, rfl⟩⟩
  rw [Merge.incoming] at hadded
  split at hadded
  next hnone =>
    rw [Option.map_some, Option.getD_some] at hnone
    rw [hnone] at hplace
    cases hplace
  next =>
    have hall := forall₂_of_mapM_ok hadded
    rw [Value.mem_allLeaves]
    constructor
    · rintro ⟨part, hin, hy⟩
      obtain ⟨⟨path', fields⟩, hin, hderive⟩ := exists_of_mem_right hall hin
      obtain ⟨x', hx', hat⟩ := List.mem_filterMap.mp hin
      obtain ⟨hcalls', rfl⟩ := hiff.mp hat
      obtain ⟨w, hw, hleaves⟩ := hpart hx' hcalls' hderive
      exact ⟨x', hx', path', w, hcalls', hw, (hleaves y).mp hy⟩
    · rintro ⟨x', hx', path', w, hcalls', hw, hy⟩
      have hin : (path', path'.drop 2) ∈ raw.toList.filterMap (Merge.placeholder? owner.parameter.name
          [owner.node.name, owner.node.name]) :=
        List.mem_filterMap.mpr ⟨x', hx', hiff.mpr ⟨hcalls', rfl⟩⟩
      obtain ⟨part, hin, hderive⟩ := exists_of_mem_left hall hin
      obtain ⟨w', hw', hleaves⟩ := hpart hx' hcalls' hderive
      obtain rfl := Except.ok.inj (hw.symm.trans hw')
      exact ⟨part, hin, (hleaves y).mpr hy⟩

section Further

variable (h : g.Gathers node p id raw v m) {got : NodeId → String → Prop} {now : Value}
  (hg : g.Gathering node id raw m got now) {u : Value}
  (hu : ∀ w, m.lookup owner.scope = some w → ∀ y, y ∈ u.leaves ↔ y ∈ w.leaves)
  {kept added : List Value} (hadded : Merge.incoming (some raw) u owner.parameter.name
    [owner.node.name, owner.node.name] = .ok added)

include h hg hu

section Kept

include hadded

/-- What is kept and added is known. -/
theorem Gathering.known_further (hkept : kept ⊆ now.toList) {y : Value}
    (hy : y ∈ Value.allLeaves (kept ++ added)) :
    (y ∈ kept ∧ y ∈ raw.toList ∧
      ∃ path owner, g.Calls node (g.scope.forest.seat id) y path owner) ∨
        g.Arrived node id raw m (Further got owner) y := by
  rw [Value.allLeaves_append, List.mem_append] at hy
  rcases hy with hy | hy
  · obtain ⟨old, hold, hy⟩ := Value.mem_allLeaves.mp hy
    rcases hg.known_of_leaf h (hkept hold) hy with ⟨rfl, hwaits⟩ | harrived
    · exact .inl ⟨hold, hwaits⟩
    · exact .inr (harrived.further owner)
  · obtain ⟨x', hx', path', w, hcalls', hw, hy⟩ :=
      (Gathers.mem_incoming hm hx hcalls hheld h hu hadded y).mp hy
    exact .inr (.handed hx' hcalls' (.inr ⟨rfl, rfl⟩) hw hy)

/-- All that has arrived is kept or added. -/
theorem Gathering.all_further (hkeep : ∀ x ∈ now.toList,
      (x ∈ raw.toList ∧ g.Rests node (g.scope.forest.seat id) x) ∨ g.Arrived node id raw m got x →
        x ∈ kept) {y : Value} (hy : g.Arrived node id raw m (Further got owner) y) :
    y ∈ Value.allLeaves (kept ++ added) := by
  have hbefore : g.Arrived node id raw m got y → y ∈ Value.allLeaves (kept ++ added) := by
    intro harrived
    obtain ⟨old, hold, hleaf⟩ := Value.mem_leaves.mp (hg.all y harrived)
    refine Value.mem_allLeaves.mpr ⟨old, List.mem_append_left _ (hkeep old hold ?_), hleaf⟩
    rcases hg.known old hold with hraw | hcame
    · rcases h.elements old hraw with ⟨path', owner', hcalls'⟩ | hrests
      · rw [hcalls'.leaves] at hleaf
        exact .inr (List.mem_singleton.mp hleaf ▸ harrived)
      · exact .inl ⟨hraw, hrests⟩
    · exact .inr hcame
  cases hy with
  | rests hx hrests hy => exact hbefore (.rests hx hrests hy)
  | @handed x' w path' owner' hx' hcalls' hgot hw hy =>
    rcases hgot with hgot | ⟨hid, hname⟩
    · exact hbefore (.handed hx' hcalls' hgot hw hy)
    · obtain rfl := hcalls.owner_eq hm hheld hcalls' hid hname
      rw [Value.allLeaves_append, List.mem_append]
      refine .inr ((Gathers.mem_incoming hm hx hcalls hheld h hu hadded y).mpr ?_)
      exact ⟨x', hx', path', w, hcalls', hw, hy⟩

/-- With one more output handed to it, a list holds what has arrived and refers to what has not. -/
theorem Gathering.step (hkept : ∀ x ∈ kept, x ∈ now.toList ∧
      ∀ path, ¬ g.Calls node (g.scope.forest.seat id) x path owner)
    (hkeep : ∀ x ∈ now.toList,
      (x ∈ raw.toList ∧ g.Rests node (g.scope.forest.seat id) x) ∨ g.Arrived node id raw m got x →
        x ∈ kept) :
    g.Gathering node id raw m (Further got owner)
      (.list (Value.flattenUnique (kept ++ added))) := by
  have hknown : ∀ {y}, y ∈ Value.allLeaves (kept ++ added) → _ :=
    hg.known_further hm hx hcalls hheld h hu hadded fun x hx => (hkept x hx).1
  refine ⟨fun y hy => ?_, fun y hy => ?_, fun y hy path' owner' hcalls' => ?_⟩
  · exact (hknown (Value.mem_of_mem_flattenUnique hy)).imp_left fun hwaits => hwaits.2.1
  · have hin := hg.all_further hm hx hcalls hheld h hu hadded hkeep hy
    refine Value.mem_leaves.mpr ⟨y, Value.mem_flattenUnique hin fun z hz hsame => ?_, hy.self_mem_leaves⟩
    rcases Value.eq_of_sameScalar hsame with heq | ⟨hclear, hclear'⟩
    · exact heq
    · rcases hknown hz with ⟨-, -, path', owner', hcalls'⟩ | hcame
      · have hnone := Value.references_of_not_mayRefer hclear
        rw [hcalls'.references] at hnone
        cases hnone
      · exact h.zeros z (hcame.mem_leaves h hclear) y (hy.mem_leaves h hclear') hsame
  · rcases hknown (Value.mem_of_mem_flattenUnique hy) with ⟨hold, -⟩ | hcame
    · rintro (hgot | ⟨hid, hname⟩)
      · exact hg.waiting y (hkept y hold).1 path' owner' hcalls' hgot
      · obtain rfl := hcalls.owner_eq hm hheld hcalls' hid hname
        exact (hkept y hold).2 path' hcalls'
    · exact absurd hcalls' (hcame.not_calls h)

end Kept

/-- Handing on an output to a list is such a step, whether the output is a list or not. -/
theorem Gathering.merge {link : DataLink} (hproperty : link.sourceProperty = owner.parameter.name)
    (hcard : link.cardinality = .between owner.parameter.isList true) {target : String} {value : Value}
    (hmerge : Merge.merge (.data link) target (some now) (some raw) u
      [owner.node.name, owner.node.name] = .ok (some value)) :
    g.Gathering node id raw m (Further got owner) value := by
  have hiff := @Gathers.calls_iff _ hm _ _ _ _ _ hcalls hheld
  -- Whichever elements a kind of edge keeps, they are none that the output takes the place of.
  have hgather : ∀ keep : Value → Bool,
      (∀ x ∈ now.toList, keep x = true →
        Merge.placeholder? owner.parameter.name [owner.node.name, owner.node.name] x = none) →
      (∀ x ∈ now.toList,
        (x ∈ raw.toList ∧ g.Rests node (g.scope.forest.seat id) x) ∨ g.Arrived node id raw m got x →
          keep x = true) →
      Merge.gather link (some now) (some raw) u [owner.node.name, owner.node.name] keep =
        .ok value → g.Gathering node id raw m (Further got owner) value := by
    intro keep hnone hkeep hvalue
    obtain ⟨added, hadded, hvalue⟩ := except_bind_eq_ok.mp hvalue
    obtain rfl := Except.ok.inj hvalue
    rw [hproperty] at hadded
    refine hg.step hm hx hcalls hheld h hu hadded (fun x hx => ?_) fun x hx hcame => ?_
    · obtain ⟨hx, hk⟩ := List.mem_filter.mp hx
      refine ⟨hx, fun path hcalls' => ?_⟩
      have hplace := hiff.mpr ⟨hcalls', rfl⟩
      rw [hnone x hx hk] at hplace
      cases hplace
    · exact List.mem_filter.mpr ⟨hx, hkeep x hx hcame⟩
  cases hlist : owner.parameter.isList with
  | false =>
    rw [Merge.merge, hcard, hlist] at hmerge
    refine hgather _ (fun x _ hkeep => ?_) (fun x _ hcame => ?_) (Merge.of_lift hmerge)
    · refine Option.eq_none_iff_forall_ne_some.mpr fun place hplace => ?_
      have hpath := Merge.references_of_placeholder? hplace
      rw [Value.references_of_not_mayRefer (by simpa using hkeep)] at hpath
      cases hpath
    · suffices hclear : x.mayRefer = false by simp [hclear]
      rcases hcame with ⟨hraw, hrests⟩ | hcame
      · exact h.free _ hx _ _ hcalls hlist x hraw hrests
      · cases hcame with
        | rests hraw hrests hleaf =>
          exact Value.mayRefer_of_mem_leaves (h.free _ hx _ _ hcalls hlist _ hraw hrests) hleaf
        | handed hraw hcalls' _ hw hleaf =>
          exact Value.mayRefer_of_mem_leaves (h.clear _ hraw _ _ hcalls' _ hw) hleaf
  | true =>
    rw [Merge.merge, hcard, hlist] at hmerge
    refine hgather _ (fun x _ hkeep => ?_) (fun x _ hcame => ?_) (Merge.of_lift hmerge)
    · rw [← hproperty]
      exact Option.isNone_iff_eq_none.mp hkeep
    · refine Option.isNone_iff_eq_none.mpr (Option.eq_none_iff_forall_ne_some.mpr fun place hplace => ?_)
      rw [hproperty] at hplace
      obtain ⟨hcalls', -⟩ := hiff.mp hplace
      rcases hcame with ⟨-, hrests⟩ | hcame
      · exact hcalls'.not_rests hrests
      · exact hcame.not_calls h hcalls'

end Further

end Step

end Graph

end Pipework
