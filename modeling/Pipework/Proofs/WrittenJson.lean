import Pipework.Proofs.Literals
import Pipework.Json.Printer

/-!
# What a text of JSON holds

JSON in memory has numbers, and a text of JSON has what is written for them. What is not a finite
number cannot be written, and the text has the word for nothing in its place. So the text of data holds
other data, which has the same text.
-/

namespace Pipework.Json

/-- What holds of scalars, and of lists and objects if it holds of all in them, holds of all data. -/
@[elab_as_elim]
theorem induct {P : Json → Prop} (null : P .null) (bool : ∀ b, P (.bool b)) (int : ∀ n, P (.int n))
    (float : ∀ x, P (.float x)) (number : ∀ literal, P (.number literal)) (str : ∀ s, P (.str s))
    (arr : ∀ items, (∀ item ∈ items, P item) → P (.arr items))
    (obj : ∀ fields, (∀ field ∈ fields, P field.2) → P (.obj fields)) (json : Json) : P json :=
  @Json.rec P (fun items => ∀ item ∈ items, P item) (fun fields => ∀ field ∈ fields, P field.2)
    (fun field => P field.2) null bool int float number str arr obj
    (by simp) (fun _ _ hfirst hrest => List.forall_mem_cons.mpr ⟨hfirst, hrest⟩)
    (by simp) (fun _ _ hfirst hrest => List.forall_mem_cons.mpr ⟨hfirst, hrest⟩)
    (fun _ _ hjson => hjson) json

/-! ### The data of a text -/

mutual

/-- The data that the text of data holds. -/
def written : Json → Json
  | .int n => .number (toString n)
  | .float x => if x.isFinite then .number (x.render .inJson) else .null
  | .arr items => .arr (writtenItems items)
  | .obj fields => .obj (writtenFields fields)
  | json => json

/-- The items that the text of a list holds. -/
def writtenItems : List Json → List Json
  | [] => []
  | item :: items => item.written :: writtenItems items

/-- The fields that the text of an object holds. -/
def writtenFields : List (String × Json) → List (String × Json)
  | [] => []
  | (key, json) :: fields => (key, json.written) :: writtenFields fields

end

/-- Lists keep their items at their places. -/
theorem written_arr (items : List Json) : (Json.arr items).written = .arr (items.map written) := by
  rw [written]
  induction items with
  | nil => rfl
  | cons item items ih => rw [writtenItems, List.map_cons, ← Json.arr.inj ih]

/-- Objects keep their keys in their order. -/
theorem written_obj (fields : List (String × Json)) :
    (Json.obj fields).written = .obj (fields.map fun field => (field.1, field.2.written)) := by
  rw [written]
  induction fields with
  | nil => rfl
  | cons field fields ih => rw [writtenFields, List.map_cons, ← Json.obj.inj ih]

theorem itemTokens_eq_map (items : List Json) : itemTokens items = items.map tokens := by
  induction items with
  | nil => rfl
  | cons item items ih => rw [itemTokens, ih, List.map_cons]

theorem fieldTokens_eq_map (fields : List (String × Json)) :
    fieldTokens fields = fields.map fun field => .str field.1 :: .colon :: field.2.tokens := by
  induction fields with
  | nil => rfl
  | cons field fields ih => rw [fieldTokens, ih, List.map_cons]

/-- What a text holds is written with the same tokens. -/
theorem tokens_written (json : Json) : json.written.tokens = json.tokens := by
  induction json using induct with
  | float x =>
    rw [written, tokens, Token.ofFloat]
    split <;> rfl
  | arr items ih =>
    rw [written_arr, tokens, tokens, itemTokens_eq_map, itemTokens_eq_map, List.map_map]
    exact congrArg _ (congrArg (· ++ _) (congrArg _ (List.map_congr_left ih)))
  | obj fields ih =>
    rw [written_obj, tokens, tokens, fieldTokens_eq_map, fieldTokens_eq_map, List.map_map]
    refine congrArg _ (congrArg (· ++ _) (congrArg _ (List.map_congr_left fun field hfield => ?_)))
    rw [Function.comp_apply, ih field hfield]
  | _ => rfl

/-- The text of what a text holds is this text. -/
theorem compact_written (json : Json) : json.written.compact = json.compact := by
  rw [compact, tokens_written, compact]

/-! ### Numbers that come back -/

mutual

/-- The numbers in data that are not integers. -/
def floats : Json → List Binary64
  | .float x => [x]
  | .arr items => floatsOfItems items
  | .obj fields => floatsOfFields fields
  | _ => []

/-- The numbers in the items of a list that are not integers. -/
def floatsOfItems : List Json → List Binary64
  | [] => []
  | item :: items => item.floats ++ floatsOfItems items

/-- The numbers in the fields of an object that are not integers. -/
def floatsOfFields : List (String × Json) → List Binary64
  | [] => []
  | (_, json) :: fields => json.floats ++ floatsOfFields fields

end

/-- What is written for each number that is not an integer reads as the same number. -/
def FloatsReadBack (json : Json) : Prop :=
  ∀ x ∈ json.floats, Binary64.ofText? (x.render .inJson) = some x

instance (json : Json) : Decidable json.FloatsReadBack :=
  inferInstanceAs (Decidable (∀ x ∈ json.floats, Binary64.ofText? (x.render .inJson) = some x))

/-- Numbers in a list read back if they do in all its elements. -/
theorem floatsReadBack_arr {items : List Json} :
    (Json.arr items).FloatsReadBack ↔ ∀ item ∈ items, item.FloatsReadBack := by
  rw [FloatsReadBack, floats]
  induction items with
  | nil => simp [floatsOfItems]
  | cons item items ih =>
    rw [floatsOfItems, List.forall_mem_append, ih, List.forall_mem_cons]
    rfl

/-- Numbers in a record read back if they do in all its fields. -/
theorem floatsReadBack_obj {fields : List (String × Json)} :
    (Json.obj fields).FloatsReadBack ↔ ∀ field ∈ fields, field.2.FloatsReadBack := by
  rw [FloatsReadBack, floats]
  induction fields with
  | nil => simp [floatsOfFields]
  | cons field fields ih =>
    rw [floatsOfFields, List.forall_mem_append, ih, List.forall_mem_cons]
    rfl

/-- A number that comes back is finite. -/
theorem isFinite_of_readsBack {x : Binary64} (h : Binary64.ofText? (x.render .inJson) = some x) :
    x.isFinite = true := by
  cases hfinite : x.isFinite with
  | true => rfl
  | false =>
    have hnull : x.render .inJson = "null" := by
      rw [Binary64.render, hfinite]
      split
      · rfl
      · rw [Bool.not_false, if_pos rfl]
        split <;> rfl
    have hunread : Binary64.ofText? "null" = none := by decide +kernel
    rw [hnull, hunread] at h
    cases h

end Pipework.Json
