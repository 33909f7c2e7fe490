import Pipework.Value.Basic

/-!
# Settings

Settings give values to keys. The entries are kept in the order of their keys, the order
of code points, and no key comes up twice. That is part of the type, so two settings with
the same entries are equal, and whatever lists the entries lists them in that order.
-/

namespace Pipework

/-- Values under keys. -/
structure Settings where
  /-- Keys and their values, in the order of the keys. -/
  entries : List (String × Value)
  /-- Keys rise strictly. -/
  sorted : entries.Pairwise fun a b => a.1 < b.1
  deriving DecidableEq

namespace Settings

instance : EmptyCollection Settings := ⟨⟨[], List.Pairwise.nil⟩⟩

instance : Inhabited Settings := ⟨∅⟩

/-- Puts a value under a key into ordered entries, in the place of what the key had. -/
def insertEntry (key : String) (value : Value) : List (String × Value) → List (String × Value)
  | [] => [(key, value)]
  | entry :: rest =>
    if key < entry.1 then (key, value) :: entry :: rest
    else if entry.1 < key then entry :: insertEntry key value rest
    else (key, value) :: rest

theorem mem_insertEntry {key : String} {value : Value} {entries : List (String × Value)}
    {e : String × Value} (h : e ∈ insertEntry key value entries) :
    e = (key, value) ∨ e ∈ entries := by
  induction entries with
  | nil => simpa [insertEntry] using h
  | cons entry rest ih =>
    unfold insertEntry at h
    split at h
    · simpa using h
    · split at h
      · rcases List.mem_cons.1 h with h | h
        · simp [h]
        · rcases ih h with h | h
          · exact .inl h
          · exact .inr (List.mem_cons_of_mem _ h)
      · rcases List.mem_cons.1 h with h | h
        · exact .inl h
        · exact .inr (List.mem_cons_of_mem _ h)

theorem sorted_insertEntry (key : String) (value : Value) {entries : List (String × Value)}
    (h : entries.Pairwise fun a b => a.1 < b.1) :
    (insertEntry key value entries).Pairwise fun a b => a.1 < b.1 := by
  induction entries with
  | nil => simp [insertEntry]
  | cons entry rest ih =>
    have hrest := List.pairwise_cons.1 h
    unfold insertEntry
    split
    next hlt =>
      refine List.pairwise_cons.2 ⟨fun e he => ?_, h⟩
      rcases List.mem_cons.1 he with rfl | he
      · exact hlt
      · exact String.lt_trans hlt (hrest.1 e he)
    next hnlt =>
      split
      next hgt =>
        refine List.pairwise_cons.2 ⟨fun e he => ?_, ih hrest.2⟩
        rcases mem_insertEntry he with rfl | he
        · exact hgt
        · exact hrest.1 e he
      next hngt =>
        -- Neither key lies before the other, so the keys are equal.
        have heq : key = entry.1 := String.le_antisymm hngt hnlt
        refine List.pairwise_cons.2 ⟨fun e he => ?_, hrest.2⟩
        exact heq ▸ hrest.1 e he

/-- Puts a value under a key, in the place of what the key had. -/
def insert (s : Settings) (key : String) (value : Value) : Settings where
  entries := insertEntry key value s.entries
  sorted := sorted_insertEntry key value s.sorted

/-- The value under a key. -/
def get? (s : Settings) (key : String) : Option Value := s.entries.lookup key

/-- All keys, in order. -/
def keys (s : Settings) : List String := s.entries.map (·.1)

/-- Settings with these entries, of which a later one wins over an earlier one. -/
def ofList (entries : List (String × Value)) : Settings :=
  entries.foldl (fun s entry => s.insert entry.1 entry.2) ∅

/-- Lays other settings over these ones. -/
def overlay (s other : Settings) : Settings :=
  other.entries.foldl (fun s entry => s.insert entry.1 entry.2) s

/-- Keys come out in order, whatever order they came in. -/
example : (ofList [("b", .int 1), ("a", .int 2), ("b", .int 3)]).entries =
    [("a", .int 2), ("b", .int 3)] := by decide

end Settings

end Pipework
