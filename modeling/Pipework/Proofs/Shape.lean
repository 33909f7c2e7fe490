import Pipework.Proofs.Operations

/-!
# The shape of scope trees

Scopes hang together as a tree in which values are at the ends. A scope is among those in another
one if and only if it has that one around it, those in one scope have different names, and the
older of two scopes is never in the younger one. Each change that operations are made of keeps
this, also in scopes that were taken out of the tree. So it holds whatever was done and whether it
failed or not, and whoever goes up from a scope comes to one with nothing around it.
-/

namespace Pipework

open Step

namespace Forest

/-- Scopes hang together as a tree with values at its ends. -/
structure Shapely (f : Forest) : Prop where
  /-- There is a root. -/
  rooted : root < f.size
  /-- A scope with a value holds no others. -/
  leaf : ∀ id, (f.content? id).isSome → f.children id = []
  /-- The scopes in a scope have different names. -/
  names : ∀ id, ((f.children id).map f.name?).Nodup
  /-- A scope is in those that it has around it, and in no others. -/
  linked : ∀ child parent, child ∈ f.children parent ↔ f.parent? child = some parent
  /-- A scope is younger than the one around it. -/
  older : ∀ child parent, f.parent? child = some parent → parent < child

theorem lt_size_of_parent? {f : Forest} {child parent : ScopeId}
    (h : f.parent? child = some parent) : child < f.size := by
  obtain ⟨scope, hscope, -⟩ := Option.bind_eq_some_iff.mp h
  rw [lt_size, hscope]
  rfl

/-- A scope that is not found has another name than those that are there. -/
theorem ne_of_child?_eq_none {f : Forest} {parent child : ScopeId} {name : String}
    (h : f.child? parent name = none) (hc : child ∈ f.children parent) :
    f.name? child ≠ some name := by
  have hno := List.find?_eq_none.mp h child hc
  simpa using hno

section Shape

variable {f : Forest} (h : f.Shapely)

include h

theorem Shapely.lt_size {parent child : ScopeId} (hc : child ∈ f.children parent) :
    child < f.size := lt_size_of_parent? ((h.linked child parent).mp hc)

/-- A scope in another one has a name. -/
theorem Shapely.exists_name {parent child : ScopeId} (hc : child ∈ f.children parent) :
    ∃ name, f.name? child = some name := by
  obtain ⟨scope, hscope⟩ := Option.isSome_iff_exists.mp (Forest.lt_size.mp (h.lt_size hc))
  exact ⟨scope.name, by rw [name?, hscope]; rfl⟩

/-- There is nothing around the root. -/
theorem Shapely.top : f.parent? root = none :=
  Option.eq_none_iff_forall_ne_some.mpr fun parent hp => Nat.not_lt_zero _ (h.older root parent hp)

/-- The scopes in a scope are listed once. -/
theorem Shapely.once (id : ScopeId) : (f.children id).Nodup := (h.names id).of_map _

/-- The way up from a scope ends at one with nothing around it. -/
theorem Shapely.exists_end (id : ScopeId) :
    ∃ last, (f.chain id).getLast? = some last ∧ f.parent? last = none := by
  have hsteps : ∀ steps id, id ≤ steps →
      ∃ last, (f.chainWithin steps id).getLast? = some last ∧ f.parent? last = none := by
    intro steps
    induction steps with
    | zero =>
      intro id hid
      obtain rfl : id = root := Nat.le_zero.mp hid
      exact ⟨root, rfl, h.top⟩
    | succ steps ih =>
      intro id hid
      rw [chainWithin]
      cases habove : f.parent? id with
      | none => exact ⟨id, rfl, habove⟩
      | some above =>
        have hlt : above < id := h.older id above habove
        obtain ⟨last, hlast, hnone⟩ := ih above (Nat.le_of_lt_succ (hlt.trans_le hid))
        refine ⟨last, ?_, hnone⟩
        simp only [List.getLast?_cons, hlast, Option.getD_some]
  exact hsteps id id le_rfl

/-- A scope may be added to one that has no value and no scope of its name. -/
theorem Shapely.addChild {parent : ScopeId} {name : String} (hp : parent < f.size)
    (hempty : f.raw? parent = none) (hfresh : f.child? parent name = none) :
    (f.addChild parent name).Shapely where
  rooted := by
    rw [size_addChild]
    exact h.rooted.trans (Nat.lt_succ_self _)
  leaf id hid := by
    rw [content?_addChild hp] at hid
    rw [children_addChild hp, if_neg fun heq => ?_]
    · exact h.leaf id hid
    · rw [heq, ← Option.isSome_map, ← raw?, hempty] at hid
      cases hid
  names id := by
    have hold : (f.children id).map (f.addChild parent name).name? = (f.children id).map f.name? :=
      List.map_congr_left fun child hc => by
        rw [name?_addChild hp, if_neg (Nat.ne_of_lt (h.lt_size hc))]
    rw [children_addChild hp]
    split
    next hid =>
      rw [List.map_append, hold, List.map_singleton, name?_addChild hp, if_pos rfl]
      refine (h.names id).append (List.nodup_singleton _) fun other hother hnew => ?_
      obtain ⟨child, hc, rfl⟩ := List.mem_map.mp hother
      exact ne_of_child?_eq_none hfresh (hid ▸ hc) (List.mem_singleton.mp hnew)
    next =>
      rw [hold]
      exact h.names id
  linked child other := by
    -- The new scope was in no other one before, as there was no such scope.
    have hnew : ∀ place, f.size ∉ f.children place := fun place hmem =>
      Nat.lt_irrefl _ (h.lt_size hmem)
    rw [children_addChild hp, parent?_addChild hp]
    by_cases hchild : child = f.size
    · subst hchild
      rw [if_pos rfl, Option.some_inj]
      split
      next heq => exact ⟨fun _ => heq.symm, fun _ => by simp⟩
      next hne => exact ⟨fun hmem => absurd hmem (hnew other), fun heq => absurd heq.symm hne⟩
    · rw [if_neg hchild, ← h.linked child other]
      split
      · simp [hchild]
      · rfl
  older child other hc := by
    rw [parent?_addChild hp] at hc
    split at hc
    next hnew => rwa [hnew, ← Option.some.inj hc]
    next => exact h.older child other hc

/-- A scope without others in it may get a value. -/
theorem Shapely.setEntry {target : ScopeId} (hbare : f.children target = []) (entry : Entry) :
    (f.setEntry target entry).Shapely where
  rooted := by
    have hsize : (f.setEntry target entry).size = f.size := List.length_modify _ _ _
    exact hsize ▸ h.rooted
  leaf id hid := by
    rw [content?_setEntry] at hid
    rw [children_setEntry]
    split at hid
    next hat => exact hat.1 ▸ hbare
    next => exact h.leaf id hid
  names id := by
    have hsame : (f.setEntry target entry).name? = f.name? :=
      funext fun id => name?_setEntry f target entry id
    rw [children_setEntry, hsame]
    exact h.names id
  linked child parent := by
    rw [children_setEntry, parent?_setEntry]
    exact h.linked child parent
  older child parent hc := by
    rw [parent?_setEntry] at hc
    exact h.older child parent hc

/-- A scope may be taken out of the one around it. -/
theorem Shapely.detach {parent target : ScopeId} (hc : target ∈ f.children parent) :
    (f.detach parent target).Shapely where
  rooted := by
    rw [size_detach]
    exact h.rooted
  leaf id hid := by
    rw [content?_detach] at hid
    exact List.eq_nil_of_subset_nil (h.leaf id hid ▸ subset_children_detach f parent target id)
  names id := by
    have hsame : (f.detach parent target).name? = f.name? :=
      funext fun id => name?_detach f parent target id
    rw [children_detach, hsame]
    split
    · exact (List.filter_sublist.map _).nodup (h.names id)
    · exact h.names id
  linked child other := by
    rw [children_detach, parent?_detach]
    by_cases hchild : child = target
    · subst hchild
      -- It was in the scope that it was taken out of, and so in no other one.
      have hno : ∀ place ≠ parent, child ∉ f.children place := fun place hne hmem =>
        hne (Option.some.inj (((h.linked child place).mp hmem).symm.trans
          ((h.linked child parent).mp hc)))
      rw [if_pos rfl]
      split
      · simp
      next hne => exact iff_of_false (hno other hne) (by simp)
    · rw [if_neg hchild, ← h.linked child other]
      split
      · simp [hchild]
      · rfl
  older child other hother := h.older child other (parent?_of_detach f parent target hother)

end Shape

theorem shapely_initial : initial.Shapely where
  rooted := Nat.zero_lt_one
  leaf id _ := by cases id <;> rfl
  names id := by cases id <;> exact List.nodup_nil
  linked child parent := by
    cases parent <;> cases child <;> exact iff_of_false List.not_mem_nil (by rintro ⟨⟩)
  older child _ hc := by cases child <;> cases hc

end Forest

namespace ScopeTree

/-- No change that operations are made of spoils the shape. -/
theorem covers_shapely : Covers (Keeps fun tree => tree.forest.Shapely) where
  learn tree tree' h := by
    obtain ⟨memo, -, rfl⟩ := h
    exact id
  forget _ := id
  writeSource _ _ _ := id
  addChild _ _ _ hp hempty hfresh h := h.addChild hp hempty hfresh
  setEntry _ _ entry hbare h := h.setEntry hbare entry
  detach _ _ _ _ hchild h := h.detach (Forest.mem_of_child? hchild).1

theorem Reachable.shapely {tree : ScopeTree} (h : Reachable tree) : tree.forest.Shapely := by
  induction h with
  | start sources => exact Forest.shapely_initial
  | step _ operation ih => exact covers_shapely.moves_run operation _ ih
  | outside _ sources ih => exact ih

/-- Whatever was done with a tree: no scope has both a value and others in it. Those in a scope have
different names and are listed once, and they are the ones that have it around them. What is around
a scope is older than the scope, so that the way up ends, and there is nothing around the root. -/
theorem shape_of_reachable {tree : ScopeTree} (h : Reachable tree) :
    (∀ id, (tree.forest.content? id).isSome → tree.forest.children id = []) ∧
    (∀ id, ((tree.forest.children id).map tree.forest.name?).Nodup ∧
      (tree.forest.children id).Nodup) ∧
    (∀ child parent, child ∈ tree.forest.children parent ↔
      tree.forest.parent? child = some parent) ∧
    (∀ child parent, tree.forest.parent? child = some parent → parent < child) ∧
    (∀ id, ∃ last, (tree.forest.chain id).getLast? = some last ∧
      tree.forest.parent? last = none) ∧
    Forest.root < tree.forest.size ∧ tree.forest.parent? Forest.root = none := by
  have hs := h.shapely
  exact ⟨hs.leaf, fun id => ⟨hs.names id, hs.once id⟩, hs.linked, hs.older, hs.exists_end,
    hs.rooted, hs.top⟩

/-- A cupboard whose box was taken out and filled further. A second box of that name, a scope in a
label and a value for the box with scopes in it were refused. -/
def cupboard : ScopeTree := Operation.runAll [.put 0 "label" (.str "tea"), .createChild 0 "box",
  .put 2 "lid" (.str "tin"), .createChild 0 "box", .createChild 1 "back", .removeChild 0 "box",
  .put 2 "key" (.str "brass"), .setValue 2 (.str "full"), .createChild 0 "box"] .initial

/-- The box that was taken out has both scopes in it still, there is a new box, and the shape is
kept. -/
theorem cupboard_keeps_shape : cupboard.Reachable ∧
    cupboard.forest.children 0 = [1, 5] ∧ cupboard.forest.children 2 = [3, 4] ∧
    cupboard.forest.parent? 2 = none ∧ cupboard.forest.content? 2 = none ∧
    ((cupboard.forest.children 2).map cupboard.forest.name?).Nodup ∧
    (∀ parent, 4 ∈ cupboard.forest.children parent ↔ cupboard.forest.parent? 4 = some parent) ∧
    ∃ last, (cupboard.forest.chain 4).getLast? = some last ∧
      cupboard.forest.parent? last = none := by
  have hreach : cupboard.Reachable := (Reachable.start []).runAll _
  have hchildren : cupboard.forest.children 0 = [1, 5] ∧ cupboard.forest.children 2 = [3, 4] ∧
      cupboard.forest.parent? 2 = none ∧ cupboard.forest.content? 2 = none := by decide +kernel
  obtain ⟨htop, hbox, hparent, hcontent⟩ := hchildren
  obtain ⟨-, hnames, hlinked, -, hend, -⟩ := shape_of_reachable hreach
  exact ⟨hreach, htop, hbox, hparent, hcontent, (hnames 2).1, hlinked 4, hend 4⟩

end ScopeTree

end Pipework
