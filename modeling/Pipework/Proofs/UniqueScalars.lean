import Pipework.Proofs.Leaves

/-!
# Dropping repetitions

To stand for the same is an equivalence among the scalars that stand for something, and a number that is
none stands for nothing, not even for what it is itself. When repetitions are dropped, a scalar is kept
just if none before it stands for the same. So nothing is dropped from a list that has been through this,
also if more is put behind it. And how often a scalar is kept follows from how often it is there and from
which one comes first of those that stand for the same.
-/

namespace Pipework

namespace Binary64

/-- Numbers that are the same are so either way round. -/
theorem same_symm {x y : Binary64} (h : x.same y = true) : y.same x = true := by
  simp only [same, Bool.and_eq_true, Bool.or_eq_true, Bool.not_eq_true', beq_iff_eq] at h ⊢
  obtain ⟨⟨hx, hy⟩, heq | hzero⟩ := h
  · exact ⟨⟨hy, hx⟩, .inl heq.symm⟩
  · exact ⟨⟨hy, hx⟩, .inr hzero.symm⟩

/-- Numbers that are the same as a third are the same. -/
theorem same_trans {x y z : Binary64} (h : x.same y = true) (h' : y.same z = true) :
    x.same z = true := by
  simp only [same, Bool.and_eq_true, Bool.or_eq_true, Bool.not_eq_true', beq_iff_eq] at h h' ⊢
  obtain ⟨⟨hx, -⟩, hxy⟩ := h
  obtain ⟨⟨-, hz⟩, hyz⟩ := h'
  refine ⟨⟨hx, hz⟩, ?_⟩
  have hzero : ∀ {a b : Binary64}, a.bits = b.bits → a.isZero = b.isZero := fun hab => by
    rw [isZero, isZero, hab]
  rcases hxy with hxy | ⟨hx, hy⟩ <;> rcases hyz with hyz | ⟨hy', hz⟩
  · exact .inl (hxy.trans hyz)
  · exact .inr ⟨(hzero hxy).trans hy', hz⟩
  · exact .inr ⟨hx, (hzero hyz).symm.trans hy⟩
  · exact .inr ⟨hx, hz⟩

end Binary64

namespace Value

/-- Scalars that stand for the same do so either way round. -/
theorem sameScalar_symm {a b : Value} (h : sameScalar a b = true) : sameScalar b a = true := by
  rcases sameScalar_cases h with rfl | ⟨x, y, rfl, rfl, hsame⟩
  · exact h
  · exact Binary64.same_symm hsame

/-- Scalars that stand for the same as a third stand for the same. -/
theorem sameScalar_trans {a b c : Value} (h : sameScalar a b = true) (h' : sameScalar b c = true) :
    sameScalar a c = true := by
  rcases sameScalar_cases h with rfl | ⟨x, y, rfl, rfl, hsame⟩
  · exact h'
  · rcases sameScalar_cases h' with rfl | ⟨_, z, hy, rfl, hsame'⟩
    · exact h
    · obtain rfl := Value.float.inj hy
      exact Binary64.same_trans hsame hsame'

/-- What stands for the same as something else stands for something. -/
theorem sameScalar_self {a b : Value} (h : sameScalar a b = true) : sameScalar b b = true :=
  sameScalar_trans (sameScalar_symm h) h

/-- Whether one of the scalars stands for the same as this one. -/
def standsIn (seen : List Value) (scalar : Value) : Bool := seen.any (sameScalar · scalar)

/-- If one of two scalars that stand for the same stands in a list, so does the other. -/
theorem standsIn_of_same {seen : List Value} {a b : Value} (h : sameScalar a b = true) :
    standsIn seen a = true → standsIn seen b = true := by
  intro hany
  obtain ⟨c, hc, hsame⟩ := List.any_eq_true.mp hany
  exact List.any_eq_true.mpr ⟨c, hc, sameScalar_trans hsame h⟩

/-- A scalar that a list has already is not added. -/
theorem addUnique_of_standsIn {seen : List Value} {scalar : Value} (h : standsIn seen scalar = true) :
    addUnique seen scalar = seen := if_pos h

/-- A scalar that a list does not have comes behind the others. -/
theorem addUnique_of_new {seen : List Value} {scalar : Value} (h : standsIn seen scalar = false) :
    addUnique seen scalar = seen ++ [scalar] := if_neg (Bool.not_eq_true _ ▸ h)

/-! ### What was dropped from stays -/

/-- None of the scalars stands for the same as one before it. -/
def Distinct (scalars : List Value) : Prop := scalars.Pairwise fun a b => sameScalar a b = false

/-- Adding a scalar makes no repetition. -/
theorem distinct_addUnique {seen : List Value} (h : Distinct seen) (scalar : Value) :
    Distinct (addUnique seen scalar) := by
  cases hnew : standsIn seen scalar with
  | true => rwa [addUnique_of_standsIn hnew]
  | false =>
    rw [addUnique_of_new hnew]
    refine List.pairwise_append.mpr ⟨h, List.pairwise_singleton _ _, fun a ha b hb => ?_⟩
    rw [List.mem_singleton.mp hb]
    simpa using List.any_eq_false.mp hnew a ha

/-- Adding scalars one by one makes no repetition. -/
theorem distinct_foldl_addUnique {seen : List Value} (h : Distinct seen) (scalars : List Value) :
    Distinct (scalars.foldl addUnique seen) := by
  induction scalars generalizing seen with
  | nil => exact h
  | cons scalar scalars ih => exact ih (distinct_addUnique h scalar)

/-- Scalars without repetitions are all added. -/
theorem foldl_addUnique_of_distinct {seen scalars : List Value} (h : Distinct (seen ++ scalars)) :
    scalars.foldl addUnique seen = seen ++ scalars := by
  induction scalars generalizing seen with
  | nil => rw [List.foldl_nil, List.append_nil]
  | cons scalar scalars ih =>
    have hnew : standsIn seen scalar = false := by
      refine List.any_eq_false.mpr fun a ha => ?_
      rw [(List.pairwise_append.mp h).2.2 a ha scalar List.mem_cons_self]
      exact Bool.false_ne_true
    rw [List.foldl_cons, addUnique_of_new hnew, ih (by rwa [List.append_assoc])]
    rw [List.append_assoc, List.singleton_append]

/-- The scalars of a list of scalars are its elements. -/
theorem allLeaves_of_scalars {vs : List Value} (h : ∀ v ∈ vs, v.isList = false) :
    allLeaves vs = vs := by
  induction vs with
  | nil => rfl
  | cons v vs ih =>
    rw [allLeaves, leaves_of_not_isList (h v List.mem_cons_self),
      ih fun w hw => h w (List.mem_cons_of_mem _ hw), List.singleton_append]

/-- What is left without repetitions consists of scalars. -/
theorem allLeaves_flattenUnique (vs : List Value) : allLeaves (flattenUnique vs) = flattenUnique vs :=
  allLeaves_of_scalars fun _ hv => isList_of_mem_allLeaves (mem_of_mem_flattenUnique hv)

/-- How scalars lie in lists does not matter. -/
theorem flattenUnique_congr {vs ws : List Value} (h : allLeaves vs = allLeaves ws) :
    flattenUnique vs = flattenUnique ws := by
  rw [flattenUnique, flattenUnique, h]

/-- Repetitions may be dropped from the first part of a list beforehand. -/
theorem flattenUnique_append (vs ws : List Value) :
    flattenUnique (flattenUnique vs ++ ws) = flattenUnique (vs ++ ws) := by
  have hfirst : (flattenUnique vs).foldl addUnique [] = flattenUnique vs :=
    foldl_addUnique_of_distinct (distinct_foldl_addUnique .nil _)
  rw [flattenUnique, allLeaves_append, allLeaves_flattenUnique, List.foldl_append, hfirst, flattenUnique,
    flattenUnique, allLeaves_append, List.foldl_append]

/-! ### How often a scalar is kept -/

/-- What stands in a list that a scalar was added to stood there before or is the same as the scalar. -/
theorem standsIn_addUnique (seen : List Value) (scalar x : Value) :
    standsIn (addUnique seen scalar) x = (standsIn seen x || sameScalar scalar x) := by
  cases hseen : standsIn seen scalar with
  | false => simp [addUnique_of_new hseen, standsIn]
  | true =>
    rw [addUnique_of_standsIn hseen]
    cases hsame : sameScalar scalar x with
    | false => rw [Bool.or_false]
    | true => rw [Bool.or_true, standsIn_of_same hsame hseen]

/-- A scalar that is added is counted once more if it was new. -/
theorem count_addUnique (seen : List Value) (scalar x : Value) : (addUnique seen scalar).count x =
    seen.count x + if standsIn seen scalar = false ∧ scalar = x then 1 else 0 := by
  cases hseen : standsIn seen scalar with
  | false => simp [addUnique_of_new hseen, List.count_append, List.count_cons]
  | true => simp [addUnique_of_standsIn hseen]

/-- How often a scalar is kept behind those that have been seen. What stands for something is kept at
most once: if it is the first of those that stand for the same, and none of these was seen before. -/
theorem count_foldl_addUnique (scalars seen : List Value) (x : Value) :
    (scalars.foldl addUnique seen).count x = seen.count x +
      if sameScalar x x = false then scalars.count x
      else if standsIn seen x = false ∧ scalars.find? (sameScalar · x) = some x then 1 else 0 := by
  induction scalars generalizing seen with
  | nil => simp
  | cons scalar scalars ih =>
    rw [List.foldl_cons, ih, standsIn_addUnique, count_addUnique, Nat.add_assoc]
    congr 1
    by_cases heq : scalar = x
    · subst heq
      cases hself : sameScalar scalar scalar with
      | false =>
        have hnew : standsIn seen scalar = false := by
          refine List.any_eq_false.mpr fun a _ hsame => ?_
          exact absurd (sameScalar_self hsame) (by simp [hself])
        simp [hnew, Nat.add_comm]
      | true => simp [hself]
    · cases hsame : sameScalar scalar x with
      | false => simp [heq, hsame]
      | true =>
        -- The other scalar comes first, so this one is dropped.
        simp [heq, hsame, sameScalar_self hsame]

/-- Of scalars that are no numbers only one stands for the same. -/
theorem find?_sameScalar {x : Value} (hx : ∀ r, x ≠ .float r) (scalars : List Value) :
    scalars.find? (sameScalar · x) = if x ∈ scalars then some x else none := by
  have hsame : ∀ y, sameScalar y x = true ↔ y = x := by
    intro y
    constructor
    · intro h
      rcases sameScalar_cases h with heq | ⟨_, r, -, hr, -⟩
      · exact heq
      · exact absurd hr (hx r)
    · rintro rfl
      cases y with
      | float r => exact absurd rfl (hx r)
      | bool _ | int _ | str _ | list _ => exact decide_eq_true rfl
  induction scalars with
  | nil => rfl
  | cons y scalars ih =>
    by_cases hy : y = x
    · rw [List.find?_cons, (hsame y).mpr hy, hy, if_pos List.mem_cons_self]
    · rw [List.find?_cons, Bool.eq_false_iff.mpr (mt (hsame y).mp hy), ih]
      simp [Ne.symm hy]

/-- Scalars that are there equally often, with the same number first of those that are equal, are kept
equally often. -/
theorem perm_flattenUnique {vs ws : List Value} (hperm : (allLeaves vs).Perm (allLeaves ws))
    (hfirst : ∀ r, (allLeaves vs).find? (sameScalar · (.float r)) =
      (allLeaves ws).find? (sameScalar · (.float r))) :
    (flattenUnique vs).Perm (flattenUnique ws) := by
  refine List.perm_iff_count.mpr fun x => ?_
  have hfind : (allLeaves vs).find? (sameScalar · x) = (allLeaves ws).find? (sameScalar · x) := by
    cases x with
    | float r => exact hfirst r
    | bool _ | int _ | str _ | list _ =>
      rw [find?_sameScalar (by simp), find?_sameScalar (by simp)]
      simp only [hperm.mem_iff]
  rw [flattenUnique, flattenUnique, count_foldl_addUnique, count_foldl_addUnique, hperm.count_eq, hfind]

end Value

end Pipework
