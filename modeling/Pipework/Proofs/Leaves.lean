import Pipework.Proofs.Broadcast

/-!
# The scalars in a value

Which scalars are in a value depends neither on how these lie in lists nor on their order. So lists
can be taken apart and put together in other ways: what the scalars of a value come to are the
scalars of what it comes to, parts are asked of each scalar for itself, and dropping repetitions
drops no scalar.
-/

namespace Pipework

open Step

namespace Value

/-- The scalars of two lists, one behind the other, stand one behind the other. -/
@[simp] theorem allLeaves_append (vs ws : List Value) :
    allLeaves (vs ++ ws) = allLeaves vs ++ allLeaves ws := by
  induction vs with
  | nil => rfl
  | cons v vs ih => rw [List.cons_append, allLeaves, allLeaves, ih, List.append_assoc]

/-- A scalar is the only scalar in it. -/
theorem leaves_of_not_isList {v : Value} (h : v.isList = false) : v.leaves = [v] := by
  cases v with
  | list items => cases h
  | bool _ | int _ | float _ | str _ => rfl

/-- A value taken as a list has the scalars of the value. -/
theorem allLeaves_toList (v : Value) : allLeaves v.toList = v.leaves := by
  cases v with
  | list items => rfl
  | bool _ | int _ | float _ | str _ => rfl

/-- A scalar is in a list of values if it is in one of them. -/
theorem mem_allLeaves {vs : List Value} {y : Value} :
    y ∈ allLeaves vs ↔ ∃ v ∈ vs, y ∈ v.leaves := by
  induction vs with
  | nil => simp [allLeaves]
  | cons v vs ih => simp [allLeaves, ih]

mutual

/-- What is in a value as a scalar is no list. -/
theorem isList_of_mem_leaves : ∀ {v y : Value}, y ∈ v.leaves → y.isList = false
  | .list items, _, h => @isList_of_mem_allLeaves items _ h
  | .bool _, _, h | .int _, _, h | .float _, _, h | .str _, _, h => by
    rw [List.mem_singleton.mp h]
    rfl

/-- What is in values as a scalar is no list. -/
theorem isList_of_mem_allLeaves : ∀ {vs : List Value} {y : Value}, y ∈ allLeaves vs →
    y.isList = false
  | [], _, h => nomatch h
  | v :: vs, _, h => by
    rw [allLeaves, List.mem_append] at h
    exact h.elim (isList_of_mem_leaves (v := v)) (@isList_of_mem_allLeaves vs _)

end

mutual

/-- A value refers to what its scalars refer to. -/
theorem mem_references : ∀ {v : Value} {path : List String},
    path ∈ v.references ↔ ∃ y ∈ v.leaves, path ∈ y.references
  | .list items, path => @mem_allReferences items path
  | .bool _, _ | .int _, _ | .float _, _ | .str _, _ => by simp [leaves]

/-- Values refer to what their scalars refer to. -/
theorem mem_allReferences : ∀ {vs : List Value} {path : List String},
    path ∈ allReferences vs ↔ ∃ y ∈ allLeaves vs, path ∈ y.references
  | [], _ => by simp [allReferences, allLeaves]
  | v :: vs, path => by
    rw [allReferences, allLeaves, List.mem_append, mem_references (v := v),
      @mem_allReferences vs path]
    simp only [List.mem_append, or_and_right, exists_or]

end

mutual

/-- If a value cannot be taken for a reference, none of its scalars can. -/
theorem mayRefer_of_mem_leaves : ∀ {v y : Value}, v.mayRefer = false → y ∈ v.leaves →
    y.mayRefer = false
  | .list items, _, hv, h => @mayRefer_of_mem_allLeaves items _ hv h
  | .bool _, _, hv, h | .int _, _, hv, h | .float _, _, hv, h | .str _, _, hv, h => by
    rwa [List.mem_singleton.mp h]

/-- If no value can be taken for a reference, none of their scalars can. -/
theorem mayRefer_of_mem_allLeaves : ∀ {vs : List Value} {y : Value}, anyMayRefer vs = false →
    y ∈ allLeaves vs → y.mayRefer = false
  | [], _, _, h => nomatch h
  | v :: vs, _, hvs, h => by
    rw [anyMayRefer, Bool.or_eq_false_iff] at hvs
    rw [allLeaves, List.mem_append] at h
    exact h.elim (mayRefer_of_mem_leaves (v := v) hvs.1) (@mayRefer_of_mem_allLeaves vs _ hvs.2)

end

/-- Only numbers can stand for the same as others. -/
theorem sameScalar_cases {a b : Value} (h : sameScalar a b = true) :
    a = b ∨ ∃ x y, a = .float x ∧ b = .float y ∧ x.same y = true := by
  cases a with
  | float x =>
    cases b with
    | float y => exact .inr ⟨x, y, rfl, rfl, h⟩
    | bool _ | int _ | str _ | list _ => exact .inl (of_decide_eq_true h)
  | bool _ | int _ | str _ | list _ => exact .inl (of_decide_eq_true h)

section Unique

/-- A list that a scalar is added to has what it had and the scalar. -/
theorem mem_addUnique {seen : List Value} {scalar y : Value} (h : y ∈ addUnique seen scalar) :
    y ∈ seen ∨ y = scalar := by
  rw [addUnique] at h
  split at h
  · exact .inl h
  · simpa using h

/-- A list that a scalar is added to has what it had. -/
theorem subset_addUnique (seen : List Value) (scalar : Value) : seen ⊆ addUnique seen scalar := by
  rw [addUnique]
  split
  · exact List.Subset.refl _
  · exact List.subset_append_left _ _

/-- A list that scalars are added to has what it had and what was added. -/
theorem mem_foldl_addUnique {scalars seen : List Value} {y : Value} :
    y ∈ scalars.foldl addUnique seen → y ∈ seen ∨ y ∈ scalars := by
  induction scalars generalizing seen with
  | nil => exact .inl
  | cons scalar scalars ih =>
    intro h
    rcases ih h with hseen | hrest
    · rcases mem_addUnique hseen with hseen | rfl
      · exact .inl hseen
      · exact .inr List.mem_cons_self
    · exact .inr (List.mem_cons_of_mem _ hrest)

/-- A list that scalars are added to has what it had. -/
theorem subset_foldl_addUnique (scalars seen : List Value) :
    seen ⊆ scalars.foldl addUnique seen := by
  induction scalars generalizing seen with
  | nil => exact List.Subset.refl _
  | cons scalar scalars ih => exact List.Subset.trans (subset_addUnique seen scalar) (ih _)

/-- No scalar is dropped unless one that stands for the same is kept. -/
theorem exists_mem_foldl_addUnique {scalars seen : List Value} {y : Value} (h : y ∈ scalars) :
    ∃ z ∈ scalars.foldl addUnique seen, z = y ∨ sameScalar z y = true := by
  induction scalars generalizing seen with
  | nil => cases h
  | cons scalar scalars ih =>
    rcases List.mem_cons.mp h with rfl | hrest
    · rw [List.foldl_cons]
      by_cases hany : seen.any (sameScalar · y) = true
      · obtain ⟨z, hz, hsame⟩ := List.any_eq_true.mp hany
        exact ⟨z, subset_foldl_addUnique _ _ (subset_addUnique _ _ hz), .inr hsame⟩
      · refine ⟨y, subset_foldl_addUnique _ _ ?_, .inl rfl⟩
        rw [addUnique, if_neg hany]
        exact List.mem_append_right _ (List.mem_singleton_self y)
    · exact ih hrest

/-- What is left without repetitions is among the scalars. -/
theorem mem_of_mem_flattenUnique {vs : List Value} {y : Value} (h : y ∈ flattenUnique vs) :
    y ∈ allLeaves vs := (mem_foldl_addUnique h).resolve_left nofun

/-- Where different scalars stand for different things, dropping repetitions drops no scalar. -/
theorem mem_flattenUnique {vs : List Value} {y : Value} (hy : y ∈ allLeaves vs)
    (hzeros : ∀ z ∈ allLeaves vs, sameScalar z y = true → z = y) : y ∈ flattenUnique vs := by
  obtain ⟨z, hz, rfl | hsame⟩ := @exists_mem_foldl_addUnique (allLeaves vs) [] _ hy
  · exact hz
  · exact hzeros z (mem_of_mem_flattenUnique hz) hsame ▸ hz

end Unique

section Map

variable {f : Value → Except ScopeError Value}

mutual

/-- What is put in the place of each scalar are the scalars afterwards. -/
theorem leaves_of_mapLeavesM (hscalar : ∀ v w, f v = .ok w → w.isList = false) :
    ∀ {v w : Value}, v.mapLeavesM f = .ok w →
      List.Forall₂ (fun l l' => f l = .ok l') v.leaves w.leaves
  | .list items, w, h => by
    rw [mapLeavesM] at h
    obtain ⟨items', hitems, h⟩ := except_bind_eq_ok.mp h
    obtain rfl := Except.ok.inj h
    exact leaves_of_mapAllLeavesM hscalar hitems
  | .bool _, w, h | .int _, w, h | .float _, w, h | .str _, w, h => by
    rw [leaves_of_not_isList (hscalar _ w h)]
    exact .cons h .nil

/-- Changing all scalars of some values gives the changed scalars in the same order. -/
theorem leaves_of_mapAllLeavesM (hscalar : ∀ v w, f v = .ok w → w.isList = false) :
    ∀ {vs ws : List Value}, mapAllLeavesM f vs = .ok ws →
      List.Forall₂ (fun l l' => f l = .ok l') (allLeaves vs) (allLeaves ws)
  | [], ws, h => by
    obtain rfl := Except.ok.inj h
    exact .nil
  | v :: vs, ws, h => by
    rw [mapAllLeavesM] at h
    obtain ⟨first, hfirst, h⟩ := except_bind_eq_ok.mp h
    obtain ⟨rest, hrest, h⟩ := except_bind_eq_ok.mp h
    obtain rfl := Except.ok.inj h
    rw [allLeaves, allLeaves]
    exact List.rel_append (leaves_of_mapLeavesM hscalar hfirst) (leaves_of_mapAllLeavesM hscalar hrest)

end

end Map

end Value

namespace FileField

/-- The parts of a value are those of its scalars. -/
theorem leaves_of_derive {v w : Value} {segments : List String} {reference : String}
    (h : derive v segments reference = .ok w) :
    List.Forall₂ (fun l l' => derive l segments reference = .ok l') v.leaves w.leaves := by
  induction segments generalizing v with
  | nil =>
    obtain rfl := Except.ok.inj h
    exact List.forall₂_same.mpr fun l _ => rfl
  | cons segment segments ih =>
    obtain ⟨u, hu, h⟩ := derive_cons.mp h
    have hfirst := Value.leaves_of_mapLeavesM isList_of_deriveScalar hu
    have hscalars : ∀ l ∈ v.leaves, ∀ u, deriveScalar reference segment l = .ok u →
        l.mapLeavesM (deriveScalar reference segment) = .ok u := by
      intro l hl u hu
      have hscalar := Value.isList_of_mem_leaves hl
      cases l with
      | list items => cases hscalar
      | bool _ | int _ | float _ | str _ => exact hu
    have hboth : List.Forall₂ (fun l u => l ∈ v.leaves ∧ deriveScalar reference segment l = .ok u)
        v.leaves u.leaves := by
      refine List.forall₂_iff_get.mpr ⟨hfirst.length_eq, fun i hi hi' => ⟨List.get_mem _ _, ?_⟩⟩
      exact (List.forall₂_iff_get.mp hfirst).2 i hi hi'
    exact forall₂_comp hboth (ih h) fun l u l' ⟨hl, hlu⟩ hul =>
      derive_cons.mpr ⟨u, hscalars l hl u hlu, hul⟩

/-- A part of a value has the parts of the scalars that are in the value. -/
theorem mem_leaves_of_derive {v w : Value} {segments : List String} {reference : String}
    (h : derive v segments reference = .ok w) {y : Value} :
    y ∈ w.leaves ↔ ∃ l ∈ v.leaves, derive l segments reference = .ok y := by
  have hall := leaves_of_derive h
  constructor
  · exact exists_of_mem_right hall
  · rintro ⟨l, hl, hy⟩
    obtain ⟨l', hl', hsame⟩ := exists_of_mem_left hall hl
    rwa [Except.ok.inj (hy.symm.trans hsame)]

/-- The parts of values with the same scalars have the same scalars. -/
theorem leaves_derive_congr {u v w w' : Value} {segments : List String} {reference : String}
    (hsame : ∀ y, y ∈ u.leaves ↔ y ∈ v.leaves) (hu : derive u segments reference = .ok w)
    (hv : derive v segments reference = .ok w') (y : Value) : y ∈ w.leaves ↔ y ∈ w'.leaves := by
  simp only [mem_leaves_of_derive hu, mem_leaves_of_derive hv, hsame]

end FileField

namespace Resolve

open Value

variable {answer : List String → Except ScopeError Value}

/-- An element that resolved to some value brings the scalars of that value. -/
theorem allLeaves_splice (item resolved : Value) :
    allLeaves (splice item resolved) = resolved.leaves := by
  cases resolved with
  | list inner =>
    rw [splice]
    split
    · simp [allLeaves]
    · rfl
  | bool _ | int _ | float _ | str _ => rfl

mutual

/-- What a value comes to has the scalars of what its scalars come to. -/
theorem leaves_of_value : ∀ {raw v : Value} {m m' : Memo}, value (answering answer) raw m = .ok v m' →
    ∃ parts : List Value, List.Forall₂ (fun l part => valueWith answer l = .ok part) raw.leaves parts ∧
      v.leaves = allLeaves parts
  | .list items, v, m, m', h => by
    rw [value] at h
    obtain ⟨vs, _, hvs, h⟩ := bind_eq_ok.mp h
    obtain ⟨rfl, -⟩ := pure_eq_ok.mp h
    exact leaves_of_values hvs
  | .bool b, v, m, m', h | .int b, v, m, m', h | .float b, v, m, m', h | .str b, v, m, m', h => by
    have hvalue := valueWith_eq_ok.mpr (value_answering_mono (fun _ _ _ hw => hw) h)
    exact ⟨[v], .cons hvalue .nil, by simp [allLeaves]⟩

/-- The scalars that values resolve to are those that their scalars come to. -/
theorem leaves_of_values : ∀ {raws vs : List Value} {m m' : Memo},
    values (answering answer) raws m = .ok vs m' →
    ∃ parts : List Value,
      List.Forall₂ (fun l part => valueWith answer l = .ok part) (allLeaves raws) parts ∧
        allLeaves vs = allLeaves parts
  | [], vs, m, m', h => by
    obtain ⟨rfl, -⟩ := pure_eq_ok.mp h
    exact ⟨[], .nil, rfl⟩
  | raw :: raws, vs, m, m', h => by
    rw [values] at h
    obtain ⟨resolved, _, hresolved, h⟩ := bind_eq_ok.mp h
    obtain ⟨others, _, hothers, h⟩ := bind_eq_ok.mp h
    obtain ⟨rfl, -⟩ := pure_eq_ok.mp h
    obtain ⟨parts, hparts, hleaves⟩ := leaves_of_value hresolved
    obtain ⟨rest, hrest, hmore⟩ := leaves_of_values hothers
    refine ⟨parts ++ rest, List.rel_append hparts hrest, ?_⟩
    rw [allLeaves_append, allLeaves_splice, hleaves, hmore, allLeaves_append]

end

variable {raw v : Value} (h : valueWith answer raw = .ok v)

include h

/-- A value comes to something only if each of its scalars does. -/
theorem exists_valueWith_of_mem_leaves {l : Value} (hl : l ∈ raw.leaves) :
    ∃ part, valueWith answer l = .ok part := by
  obtain ⟨parts, hparts, -⟩ := leaves_of_value (valueWith_eq_ok.mp h [])
  obtain ⟨part, -, hpart⟩ := exists_of_mem_left hparts hl
  exact ⟨part, hpart⟩

/-- What a value comes to has the scalars of what its scalars come to. -/
theorem mem_leaves_of_valueWith {y : Value} :
    y ∈ v.leaves ↔ ∃ l ∈ raw.leaves, ∃ part, valueWith answer l = .ok part ∧ y ∈ part.leaves := by
  obtain ⟨parts, hparts, hleaves⟩ := leaves_of_value (valueWith_eq_ok.mp h [])
  rw [hleaves, mem_allLeaves]
  constructor
  · rintro ⟨part, hpart, hy⟩
    obtain ⟨l, hl, hcomes⟩ := exists_of_mem_right hparts hpart
    exact ⟨l, hl, part, hcomes, hy⟩
  · rintro ⟨l, hl, part, hcomes, hy⟩
    obtain ⟨other, ho, hsame⟩ := exists_of_mem_left hparts hl
    obtain rfl := Except.ok.inj (hcomes.symm.trans hsame)
    exact ⟨part, ho, hy⟩

end Resolve

end Pipework
