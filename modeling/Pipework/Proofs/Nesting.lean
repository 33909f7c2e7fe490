import Pipework.Proofs.Accumulation

/-!
# Parts of the scalars in nested lists

Parts are asked for one after the other of a value as a whole, and each time all lists in it are gone
through. It comes to the same as going through the lists once and asking for all parts of each scalar:
the parts of a list are the list of the parts of its elements, at any depth. So it does not matter
whether an element is taken before or afterwards. Only a scalar can be refused a part, hence where there
are none, as in a list of empty lists, anything may be asked for.
-/

namespace Pipework

open Step

namespace Value

/-- What is found by taking the element of a list at the first place, the element of that at the next
one, and so on. A scalar has no elements. -/
def inside? : Value → List Nat → Option Value
  | v, [] => some v
  | .list items, place :: places => items[place]?.bind (·.inside? places)
  | _, _ :: _ => none

@[simp]
theorem inside?_nil (v : Value) : v.inside? [] = some v := by cases v <;> rfl

@[simp]
theorem inside?_list (items : List Value) (place : Nat) (places : List Nat) :
    (list items).inside? (place :: places) = items[place]?.bind (·.inside? places) := rfl

/-- There is nothing inside a scalar. -/
theorem inside?_of_scalar {v : Value} (h : v.isList = false) (place : Nat) (places : List Nat) :
    v.inside? (place :: places) = none := by
  cases v with
  | list items => cases h
  | bool _ | int _ | float _ | str _ => rfl

/-- A scalar taken as a list is its only element. -/
theorem toList_of_scalar {v : Value} (h : v.isList = false) : v.toList = [v] := by
  cases v with
  | list items => cases h
  | bool _ | int _ | float _ | str _ => rfl

end Value

namespace FileField

variable {v w : Value} {segments : List String} {reference : String}

/-! ### Lists -/

/-- The parts of a list are the list of the parts of its elements. -/
theorem derive_list {items : List Value} (h : derive (.list items) segments reference = .ok w) :
    ∃ others, w = .list others ∧
      List.Forall₂ (fun v w => derive v segments reference = .ok w) items others := by
  induction segments generalizing items with
  | nil =>
    obtain rfl := Except.ok.inj h
    exact ⟨items, rfl, List.forall₂_same.mpr fun _ _ => rfl⟩
  | cons segment segments ih =>
    obtain ⟨u, hu, h⟩ := derive_cons.mp h
    rw [Value.mapLeavesM] at hu
    obtain ⟨middle, hmiddle, hu⟩ := except_bind_eq_ok.mp hu
    obtain rfl := Except.ok.inj hu
    obtain ⟨others, rfl, hothers⟩ := ih h
    refine ⟨others, rfl, forall₂_comp (Value.forall₂_of_mapAllLeavesM hmiddle) hothers ?_⟩
    exact fun _ u _ hu hrest => derive_cons.mpr ⟨u, hu, hrest⟩

/-- At each place, parts are asked for of what stands there. -/
theorem map_derive_getElem? {items others : List Value}
    (h : List.Forall₂ (fun v w => derive v segments reference = .ok w) items others) (place : Nat) :
    items[place]?.map (derive · segments reference) = others[place]?.map .ok := by
  rcases getElem?_of_forall₂ h place with ⟨hno, hno'⟩ | ⟨v, w, hv, hw, hvw⟩
  · rw [hno, hno', Option.map_none, Option.map_none]
  · rw [hv, hw, Option.map_some, Option.map_some, hvw]

/-- Where a scalar counts as a list of one, the parts of an element are the element of the parts. -/
theorem map_derive_element? (h : derive v segments reference = .ok w) (place : Nat) :
    (v.element? place).map (derive · segments reference) = (w.element? place).map .ok := by
  refine map_derive_getElem? ?_ place
  cases v with
  | list items =>
    obtain ⟨others, rfl, hall⟩ := derive_list h
    exact hall
  | bool _ | int _ | float _ | str _ =>
    rw [Value.toList_of_scalar (isList_of_derive rfl h)]
    exact .cons h .nil

/-- The parts of what lies in a value, however deep, lie at the same places in the parts. -/
theorem map_derive_inside? (h : derive v segments reference = .ok w) (places : List Nat) :
    (v.inside? places).map (derive · segments reference) = (w.inside? places).map .ok := by
  induction places generalizing v w with
  | nil => simp [h]
  | cons place places ih =>
    cases v with
    | list items =>
      obtain ⟨others, rfl, hall⟩ := derive_list h
      rw [Value.inside?_list, Value.inside?_list]
      rcases getElem?_of_forall₂ hall place with ⟨hno, hno'⟩ | ⟨a, b, ha, hb, hab⟩
      · simp [hno, hno']
      · simpa [ha, hb] using ih hab
    | bool _ | int _ | float _ | str _ =>
      rw [Value.inside?_of_scalar rfl, Value.inside?_of_scalar (isList_of_derive rfl h)]
      rfl

/-- What lies in a value has parts, and they lie at the same places in the parts of the value. -/
theorem exists_inside_derived (h : derive v segments reference = .ok w) {places : List Nat} {x : Value}
    (hx : v.inside? places = some x) :
    ∃ y, w.inside? places = some y ∧ derive x segments reference = .ok y := by
  have hmap := map_derive_inside? h places
  rw [hx, Option.map_some] at hmap
  obtain ⟨y, hy, hxy⟩ := Option.map_eq_some_iff.mp hmap.symm
  exact ⟨y, hy, hxy.symm⟩

/-! ### Scalars -/

/-- Parts of a path are taken one after the other. -/
theorem part_str {fields : List FileField} (h : segments.map ofText? = fields.map some)
    (path : String) :
    part segments (.str path) = .str (fields.foldl (fun path field => field.apply path) path) := by
  induction segments generalizing fields path with
  | nil =>
    obtain rfl : fields = [] := by simpa using h.symm
    rfl
  | cons segment segments ih =>
    cases fields with
    | nil => simp at h
    | cons field fields =>
      obtain ⟨hfield, hrest⟩ := List.cons.inj h
      rw [part_cons, hfield, List.foldl_cons]
      exact ih hrest _

/-- If parts are asked for of a scalar, they are taken of the text that stands for it. -/
theorem part_eq_str {fields : List FileField} (h : segments.map ofText? = fields.map some)
    (hne : segments ≠ []) (scalar : Value) : part segments scalar =
      .str (fields.foldl (fun path field => field.apply path) scalar.render) := by
  have hstr := part_str h scalar.render
  cases segments with
  | nil => exact absurd rfl hne
  | cons segment segments =>
    rw [part_cons] at hstr ⊢
    exact hstr

/-- Segments that all name parts are a list of parts. -/
theorem exists_fields (h : ∀ segment ∈ segments, (ofText? segment).isSome) :
    ∃ fields : List FileField, segments.map ofText? = fields.map some := by
  induction segments with
  | nil => exact ⟨[], rfl⟩
  | cons segment segments ih =>
    obtain ⟨field, hfield⟩ := Option.isSome_iff_exists.mp (h segment List.mem_cons_self)
    obtain ⟨fields, hfields⟩ := ih fun other ho => h other (List.mem_cons_of_mem segment ho)
    exact ⟨field :: fields, by rw [List.map_cons, hfield, hfields, List.map_cons]⟩

/-! ### Refusals -/

/-- A segment names no part unless it is one of the three words. -/
theorem ofText?_eq_none_iff {segment : String} :
    ofText? segment = none ↔ segment ∉ ["name", "parent", "extension"] := by
  unfold ofText?
  split <;> simp_all

/-- The first fault is the first segment that names no part. -/
theorem fault?_eq (segments : List String) :
    fault? segments = segments.find? (· ∉ ["name", "parent", "extension"]) := by
  refine congrArg (segments.find? ·) (funext fun segment => ?_)
  rw [Bool.eq_iff_iff, Option.isNone_iff_eq_none, ofText?_eq_none_iff, decide_eq_true_eq]

/-- Something is refused just if some scalar is asked for a part that it does not have. The first such
part is told. -/
theorem derive_eq_error_iff {e : ScopeError} : derive v segments reference = .error e ↔
    v.leaves ≠ [] ∧ ∃ segment, fault? segments = some segment ∧
      e = .unknownFileField reference segment := by
  constructor
  · intro h
    have hleaves : v.leaves ≠ [] := fun hnone => by
      obtain ⟨w, hw⟩ := exists_derive_of_no_leaves hnone segments reference
      cases hw.symm.trans h
    cases hfault : fault? segments with
    | none =>
      obtain ⟨w, hw⟩ := exists_derive (isSome_of_fault? hfault) reference (v := v)
      cases hw.symm.trans h
    | some segment =>
      exact ⟨hleaves, segment, rfl,
        Except.error.inj (h.symm.trans (derive_of_fault hfault hleaves reference))⟩
  · rintro ⟨hleaves, segment, hfault, rfl⟩
    exact derive_of_fault hfault hleaves reference

/-- Parts of a scalar are only had if there are all that are asked for. -/
theorem exists_fields_of_derive (hv : v.isList = false) (h : derive v segments reference = .ok w) :
    ∃ fields : List FileField, segments.map ofText? = fields.map some := by
  have hfault : fault? segments = none := Option.eq_none_iff_forall_ne_some.mpr fun segment hfault => by
    have hleaves : v.leaves ≠ [] := by simp [Value.leaves_of_not_isList hv]
    cases h.symm.trans (derive_of_fault hfault hleaves reference)
  exact exists_fields (isSome_of_fault? hfault)

/-- **Parts of the scalars in nested lists.** What is made of a value by asking for parts of it has lists
at the same places, just as long, and in the place of each scalar the text that is left of the scalar's
text when the parts are taken of it one after the other; if no part is asked for, the value stays as it
is. So the parts of an element are the element of the parts, also where a scalar counts as a list of one.
It is refused just if there is some scalar and some segment names no part, and the first of these
segments is told. -/
theorem derive_exact (value : Value) (segments : List String) (reference : String) :
    (∀ derived, derive value segments reference = .ok derived →
      (segments = [] → derived = value) ∧
      (∀ places, (value.inside? places).map (derive · segments reference) =
        (derived.inside? places).map .ok) ∧
      (∀ places items, value.inside? places = some (.list items) →
        ∃ others, derived.inside? places = some (.list others) ∧ others.length = items.length) ∧
      (∀ places scalar, value.inside? places = some scalar → scalar.isList = false →
        segments ≠ [] → ∃ fields : List FileField, segments.map ofText? = fields.map some ∧
          derived.inside? places =
            some (.str (fields.foldl (fun path field => field.apply path) scalar.render))) ∧
      ∀ place, (value.element? place).map (derive · segments reference) =
        (derived.element? place).map .ok) ∧
    ∀ e, derive value segments reference = .error e ↔ value.leaves ≠ [] ∧
      ∃ segment, segments.find? (· ∉ ["name", "parent", "extension"]) = some segment ∧
        e = .unknownFileField reference segment := by
  refine ⟨fun derived h => ⟨?_, map_derive_inside? h, fun places items hitems => ?_,
    fun places scalar hscalar hlist hne => ?_, map_derive_element? h⟩, fun e => ?_⟩
  · rintro rfl
    exact (Except.ok.inj h).symm
  · obtain ⟨y, hy, hderive⟩ := exists_inside_derived h hitems
    obtain ⟨others, rfl, hall⟩ := derive_list hderive
    exact ⟨others, hy, hall.length_eq.symm⟩
  · obtain ⟨y, hy, hderive⟩ := exists_inside_derived h hscalar
    obtain ⟨fields, hfields⟩ := exists_fields_of_derive hlist hderive
    refine ⟨fields, hfields, ?_⟩
    rw [hy, eq_part_of_derive hlist hderive, part_eq_str hfields hne]
  · rw [derive_eq_error_iff, fault?_eq]

/-- Two jars in a box, and a box that is empty. -/
def shelf : Value := .list [.list [.str "jam/plum.red.jar", .int 7], .list []]

/-- Whatever is asked of them, the boxes stay; and nothing is asked of an empty one. -/
theorem boxes_stay_on_shelf :
    derive shelf ["extension", "name"] "pantry.shelf.extension.name" =
      .ok (.list [.list [.str "red", .str ""], .list []]) ∧
    (∃ fields : List FileField, ["extension", "name"].map ofText? = fields.map some ∧
      (Value.list [.list [.str "red", .str ""], .list []]).inside? [0, 0] =
        some (.str (fields.foldl (fun path field => field.apply path) "jam/plum.red.jar"))) ∧
    derive shelf ["extension", "size", "age"] "pantry.shelf" =
      .error (.unknownFileField "pantry.shelf" "size") ∧
    derive (.list [.list []]) ["size"] "pantry.shelf" = .ok (.list [.list []]) := by
  have hderive : derive shelf ["extension", "name"] "pantry.shelf.extension.name" =
      .ok (.list [.list [.str "red", .str ""], .list []]) := by decide +kernel
  have hparts := ((derive_exact _ _ _).1 _ hderive).2.2.2.1
  refine ⟨hderive, hparts [0, 0] (.str "jam/plum.red.jar") rfl rfl (List.cons_ne_nil _ _), ?_,
    by decide +kernel⟩
  refine ((derive_exact shelf ["extension", "size", "age"] "pantry.shelf").2 _).mpr
    ⟨List.cons_ne_nil _ _, "size", by decide, rfl⟩

end FileField

end Pipework
