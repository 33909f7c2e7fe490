import Pipework.Proofs.UniqueScalars

/-!
# Where scalars stand first

A scalar in a list of values stands at a place: the number of the value it lies in, then the number of
the element in that, and so on through all lists down to the scalar. Places are compared number by
number, which is the order in which one comes across the scalars depth first. When repetitions are
dropped, what is left are the scalars at those places before which nothing stands that is the same.
-/

namespace Pipework.Value

/-- A scalar stands at a place among values. -/
inductive StandsAt : List Value → List Nat → Value → Prop
  /-- It is one of the values. -/
  | here {values : List Value} {n : Nat} {v : Value} (h : values[n]? = some v)
      (hv : v.isList = false) : StandsAt values [n] v
  /-- It stands at a place in a list that is one of the values. -/
  | within {values items : List Value} {n : Nat} {place : List Nat} {v : Value}
      (h : values[n]? = some (.list items)) (hin : StandsAt items place v) :
      StandsAt values (n :: place) v

mutual

/-- The scalars of a value, depth first, and their places in the value. -/
def placed : Value → List (List Nat × Value)
  | .list items => placedFrom 0 items
  | scalar => [([], scalar)]

/-- The scalars of values, depth first, and their places if the first value has this number. -/
def placedFrom (n : Nat) : List Value → List (List Nat × Value)
  | [] => []
  | v :: vs => (placed v).map (fun entry => (n :: entry.1, entry.2)) ++ placedFrom (n + 1) vs

end

mutual

/-- The scalars that stand somewhere in a value are its scalars. -/
theorem map_snd_placed : ∀ v : Value, (placed v).map (·.2) = v.leaves
  | .list items => map_snd_placedFrom 0 items
  | .bool _ | .int _ | .float _ | .str _ => rfl

/-- The scalars that stand somewhere in values are their scalars. -/
theorem map_snd_placedFrom : ∀ (n : Nat) (vs : List Value), (placedFrom n vs).map (·.2) = allLeaves vs
  | _, [] => rfl
  | n, v :: vs => by
    rw [placedFrom, List.map_append, List.map_map, map_snd_placedFrom (n + 1) vs, allLeaves,
      ← map_snd_placed v]
    rfl

end

/-! ### Places in their order -/

/-- A place among values begins with the number of one of them. -/
theorem exists_of_mem_placedFrom {n : Nat} {vs : List Value} {entry : List Nat × Value}
    (h : entry ∈ placedFrom n vs) : ∃ m place, entry.1 = m :: place ∧ n ≤ m := by
  induction vs generalizing n with
  | nil => cases h
  | cons v vs ih =>
    rcases List.mem_append.mp h with h | h
    · obtain ⟨inner, -, rfl⟩ := List.mem_map.mp h
      exact ⟨n, inner.1, rfl, Nat.le_refl n⟩
    · obtain ⟨m, place, heq, hle⟩ := ih h
      exact ⟨m, place, heq, Nat.le_of_succ_le hle⟩

mutual

/-- The places in a value are listed in their order. -/
theorem ascending_placed : ∀ v : Value, (placed v).Pairwise fun a b => a.1 < b.1
  | .list items => ascending_placedFrom 0 items
  | .bool _ | .int _ | .float _ | .str _ => List.pairwise_singleton _ _

/-- Scalars are listed in the order of their places. -/
theorem ascending_placedFrom : ∀ (n : Nat) (vs : List Value),
    (placedFrom n vs).Pairwise fun a b => a.1 < b.1
  | _, [] => .nil
  | n, v :: vs => by
    refine List.pairwise_append.mpr ⟨?_, ascending_placedFrom (n + 1) vs, fun a ha b hb => ?_⟩
    · refine List.pairwise_map.mpr ((ascending_placed v).imp fun hlt => ?_)
      exact List.cons_lt_cons_iff.mpr (.inr ⟨rfl, hlt⟩)
    · obtain ⟨inner, -, rfl⟩ := List.mem_map.mp ha
      obtain ⟨m, place, heq, hle⟩ := exists_of_mem_placedFrom hb
      rw [heq]
      exact List.cons_lt_cons_iff.mpr (.inl hle)

end

/-! ### All places are listed -/

mutual

/-- What is listed for a value stands at its place in it. -/
theorem standsAt_of_mem_placed : ∀ {v : Value} {values : List Value} {n : Nat} {place : List Nat}
    {x : Value}, values[n]? = some v → (place, x) ∈ placed v → StandsAt values (n :: place) x
  | .list items, _, _, _, _, h, hx =>
    .within h (standsAt_of_mem_placedFrom [] items hx)
  | .bool _, _, _, _, _, h, hx | .int _, _, _, _, _, h, hx | .float _, _, _, _, _, h, hx
  | .str _, _, _, _, _, h, hx => by
    obtain ⟨rfl, rfl⟩ := Prod.mk.inj (List.mem_singleton.mp hx)
    exact .here h rfl

theorem standsAt_of_mem_placedFrom : ∀ (before vs : List Value) {place : List Nat} {x : Value},
    (place, x) ∈ placedFrom before.length vs → StandsAt (before ++ vs) place x
  | _, [], _, _, hx => nomatch hx
  | before, v :: vs, _, _, hx => by
    rcases List.mem_append.mp hx with hx | hx
    · obtain ⟨⟨place, x⟩, hinner, heq⟩ := List.mem_map.mp hx
      obtain ⟨rfl, rfl⟩ := Prod.mk.inj heq
      exact standsAt_of_mem_placed (by simp) hinner
    · have hrest := standsAt_of_mem_placedFrom (before ++ [v]) vs (by simpa using hx)
      rwa [List.append_assoc] at hrest

end

theorem mem_placedFrom_of_getElem? {vs : List Value} {k : Nat} {v x : Value} {place : List Nat}
    (h : vs[k]? = some v) (hx : (place, x) ∈ placed v) (n : Nat) :
    ((n + k) :: place, x) ∈ placedFrom n vs := by
  induction vs generalizing n k with
  | nil => cases h
  | cons first vs ih =>
    cases k with
    | zero =>
      obtain rfl : first = v := Option.some.inj h
      exact List.mem_append_left _ (List.mem_map.mpr ⟨_, hx, rfl⟩)
    | succ k =>
      have hrest := ih (k := k) (by simpa using h) (n + 1)
      rw [Nat.add_right_comm] at hrest
      exact List.mem_append_right _ hrest

/-- What is listed for values is what stands in them, with its place. -/
theorem mem_placedFrom {vs : List Value} {place : List Nat} {x : Value} :
    (place, x) ∈ placedFrom 0 vs ↔ StandsAt vs place x := by
  refine ⟨fun h => standsAt_of_mem_placedFrom [] vs h, fun h => ?_⟩
  induction h with
  | @here values n v h hv =>
    have hself : (([] : List Nat), v) ∈ placed v := by
      cases v with
      | list items => cases hv
      | bool _ | int _ | float _ | str _ => exact List.mem_singleton_self _
    simpa using mem_placedFrom_of_getElem? h hself 0
  | @within values items n place v h _ ih => simpa using mem_placedFrom_of_getElem? h ih 0

/-! ### What is left -/

/-- Where entries are in the order of their places, one of them stands for the same as none with a
lesser place if it does so as none in front of it. -/
theorem all_placed {done rest : List (List Nat × Value)} {entry : List Nat × Value}
    (h : (done ++ entry :: rest).Pairwise fun a b => a.1 < b.1) :
    ((done ++ entry :: rest).all fun other => !(other.1 < entry.1 && sameScalar other.2 entry.2)) =
      !standsIn (done.map (·.2)) entry.2 := by
  obtain ⟨-, hrest, hacross⟩ := List.pairwise_append.mp h
  have hbefore : ∀ other ∈ done, other.1 < entry.1 := fun other ho =>
    hacross other ho entry List.mem_cons_self
  have hbehind : ∀ other ∈ entry :: rest, ¬ other.1 < entry.1 := by
    intro other ho
    rcases List.mem_cons.mp ho with rfl | ho
    · exact List.lt_irrefl _
    · exact List.lt_asymm ((List.pairwise_cons.mp hrest).1 other ho)
  rw [List.all_append, Bool.eq_iff_iff]
  simp only [Bool.and_eq_true, List.all_eq_true, Bool.not_eq_true', standsIn, List.any_eq_false,
    List.mem_map, Bool.and_eq_false_iff, decide_eq_false_iff_not]
  constructor
  · rintro ⟨hall, -⟩ _ ⟨other, ho, rfl⟩
    simpa [hbefore other ho] using hall other ho
  · intro hnone
    refine ⟨fun other ho => .inr ?_, fun other ho => .inl (hbehind other ho)⟩
    simpa using hnone _ ⟨other, ho, rfl⟩

/-- Behind entries that have been gone through, the scalars are kept that stand for the same as none of
the entries before them. -/
theorem foldl_addUnique_placed {entries done rest : List (List Nat × Value)}
    (hsplit : entries = done ++ rest) (hsorted : entries.Pairwise fun a b => a.1 < b.1)
    {seen : List Value} (hseen : ∀ x, standsIn seen x = standsIn (done.map (·.2)) x) :
    (rest.map (·.2)).foldl addUnique seen = seen ++ (rest.filter fun entry =>
      entries.all fun other => !(other.1 < entry.1 && sameScalar other.2 entry.2)).map (·.2) := by
  induction rest generalizing done seen with
  | nil => simp
  | cons entry rest ih =>
    have hnext : entries = (done ++ [entry]) ++ rest := by rw [hsplit]; simp
    have hseen' : ∀ x, standsIn (addUnique seen entry.2) x =
        standsIn ((done ++ [entry]).map (·.2)) x := by
      intro x
      rw [standsIn_addUnique, hseen]
      simp [standsIn]
    have hkept : (entries.all fun other => !(other.1 < entry.1 && sameScalar other.2 entry.2)) =
        !standsIn seen entry.2 := by
      rw [hseen, hsplit]
      exact all_placed (hsplit ▸ hsorted)
    rw [List.map_cons, List.foldl_cons, ih hnext hseen', List.filter_cons, hkept]
    cases hnew : standsIn seen entry.2 with
    | true => rw [addUnique_of_standsIn hnew]; rfl
    | false => rw [addUnique_of_new hnew]; simp

/-! ### What stands for the same -/

/-- The two floats that stand for zero. -/
def zeros : List Value := [.float (.ofMagnitude false 0), .float (.ofMagnitude true 0)]

theorem float_mem_zeros {x : Binary64} : .float x ∈ zeros ↔ x.isZero = true := by
  obtain ⟨word⟩ := x
  have hword := word.toNat_lt
  rw [Binary64.isZero, beq_iff_eq, zeros, List.mem_pair, Value.float.injEq, Value.float.injEq,
    Binary64.ofMagnitude, Binary64.ofMagnitude, Binary64.mk.injEq, Binary64.mk.injEq,
    ← UInt64.toNat_inj, ← UInt64.toNat_inj]
  change word.toNat = 0 ∨ word.toNat = 9223372036854775808 ↔ word.toNat % 9223372036854775808 = 0
  omega

/-- Values stand for the same if they are the same and no number that is none, or if both are zeros. -/
theorem sameScalar_iff {a b : Value} : sameScalar a b = true ↔
    (a = b ∧ ∀ x, a = .float x → x.isNaN = false) ∨ (a ∈ zeros ∧ b ∈ zeros) := by
  cases a with
  | float x =>
    cases b with
    | float y =>
      have hnan : ∀ z : Binary64, z.isZero = true → z.isNaN = false := by
        intro z hz
        rcases List.mem_pair.mp (float_mem_zeros.mpr hz) with h | h <;>
          rw [Value.float.inj h] <;> decide
      rw [float_mem_zeros, float_mem_zeros, sameScalar, Binary64.same]
      simp only [Bool.and_eq_true, Bool.or_eq_true, Bool.not_eq_true', beq_iff_eq, Value.float.injEq,
        forall_eq']
      constructor
      · rintro ⟨⟨hx, -⟩, hbits | hzero⟩
        · exact .inl ⟨congrArg Binary64.mk hbits, hx⟩
        · exact .inr hzero
      · rintro (⟨rfl, hx⟩ | ⟨hx, hy⟩)
        · exact ⟨⟨hx, hx⟩, .inl rfl⟩
        · exact ⟨⟨hnan x hx, hnan y hy⟩, .inr ⟨hx, hy⟩⟩
    | bool _ | int _ | str _ | list _ => simp [sameScalar, zeros]
  | bool _ | int _ | str _ | list _ => simp [sameScalar, zeros]

/-- **Dropping repetitions.** What is left of values are just those of their scalars, depth first, that
stand for the same as no scalar at an earlier place. No list is among them, and repetitions may be
dropped from the first part of values beforehand, so doing it twice changes nothing. To stand for the
same means to be the same, apart from floats: one that is no number stands for the same as nothing, and
the two zeros stand for the same; an integer never stands for the same as a float. -/
theorem flattenUnique_exact (vs ws : List Value) :
    (∃ entries : List (List Nat × Value), entries.Pairwise (fun a b => a.1 < b.1) ∧
      (∀ place v, (place, v) ∈ entries ↔ StandsAt vs place v ∧
        ∀ earlier w, earlier < place → StandsAt vs earlier w → sameScalar w v = false) ∧
      flattenUnique vs = entries.map (·.2)) ∧
    (∀ v ∈ flattenUnique vs, v.isList = false) ∧
    flattenUnique (vs ++ ws) = flattenUnique (flattenUnique vs ++ ws) ∧
    flattenUnique (flattenUnique vs) = flattenUnique vs ∧
    ∀ a b, sameScalar a b = true ↔
      (a = b ∧ ∀ x, a = .float x → x.isNaN = false) ∨ (a ∈ zeros ∧ b ∈ zeros) := by
  have hascending := ascending_placedFrom 0 vs
  refine ⟨⟨(placedFrom 0 vs).filter fun entry => (placedFrom 0 vs).all fun other =>
    !(other.1 < entry.1 && sameScalar other.2 entry.2), hascending.filter _, fun place v => ?_, ?_⟩,
    fun v hv => isList_of_mem_allLeaves (mem_of_mem_flattenUnique hv),
    (flattenUnique_append vs ws).symm, ?_, fun a b => sameScalar_iff⟩
  · rw [List.mem_filter, mem_placedFrom, List.all_eq_true]
    refine and_congr_right fun _ => ⟨fun hall earlier w hlt hw => ?_, fun hnone other ho => ?_⟩
    · simpa [hlt] using hall (earlier, w) (mem_placedFrom.mpr hw)
    · by_cases hlt : other.1 < place
      · simpa [hlt] using hnone other.1 other.2 hlt (mem_placedFrom.mp ho)
      · simp [hlt]
  · rw [flattenUnique, ← map_snd_placedFrom 0 vs]
    have hnone : ∀ x, standsIn [] x = standsIn (([] : List (List Nat × Value)).map (·.2)) x :=
      fun _ => rfl
    exact foldl_addUnique_placed (List.nil_append _).symm hascending hnone
  · simpa using flattenUnique_append vs []

end Pipework.Value
