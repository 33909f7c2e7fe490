import Pipework.Proofs.LargerMemory

/-!
# What is meant is read

What a value means is found out from nothing that is remembered. So a value that means something resolves
to just that, whatever is remembered of values that mean something, if it is right.
-/

namespace Pipework

open Step Resolve

namespace Resolve

/-- A value means one thing. -/
theorem Means.unique {f : Forest} {id : ScopeId} {v w : Value} (h : Means f id v) (h' : Means f id w) :
    w = v := (means_iff_yields.mp h').unique (means_iff_yields.mp h)

/-- What is remembered of scopes is what their values mean, if these mean anything. -/
def Sincere (f : Forest) (m : Memo) : Prop := ∀ id v w, m.lookup id = some v → Means f id w → v = w

theorem Sincere.cons {f : Forest} {m : Memo} (h : Sincere f m) {id : ScopeId} {v : Value}
    (hv : ∀ w, Means f id w → v = w) : Sincere f ((id, v) :: m) := by
  intro other u w hu hw
  rw [List.lookup_cons] at hu
  split at hu
  next heq =>
    obtain rfl := Option.some.inj hu
    exact hv w (eq_of_beq heq ▸ hw)
  next => exact h other u w hu hw

theorem Truthful.sincere {f : Forest} {m : Memo} (h : Truthful f m) : Sincere f m :=
  fun id v _ hv hw => hw.unique (h id v hv)

theorem sincere_iff_faithful {f : Forest} {m : Memo} : Sincere f m ↔ Faithful f [] m :=
  ⟨fun h => ⟨nofun, fun id v w hv hw => h id v w hv (means_iff_yields.mpr hw)⟩,
    fun h id v w hv hw => h.agrees id v w hv (means_iff_yields.mp hw)⟩

/-- The value of a scope resolves to what it means. -/
theorem scopeValue_of_means {f : Forest} {id : ScopeId} {v : Value} (h : Means f id v)
    (reference : String) {m : Memo} (hm : Sincere f m) :
    ∃ m', scopeValue f id reference m = .ok v m' ∧ Sincere f m' := by
  obtain ⟨m', hvalue, hm'⟩ :=
    scopeValue_of_yields (sincere_iff_faithful.mp hm) (means_iff_yields.mp h) reference
  exact ⟨m', hvalue, sincere_iff_faithful.mpr hm'⟩

/-- Without memory, references in a scope are followed to what they are followed to with it. -/
theorem serves_fromScope {f : Forest} {start : ScopeId} {last : Memo} (hlast : Truthful f last)
    (path : List String) :
    Serves (Sincere f) (fromScope f start) (fromMemory f last start) path := by
  intro w hw m hm
  obtain ⟨other, consumed, u, hlookup, hu, hderive⟩ := fromMemory_eq_ok.mp hw
  obtain ⟨m', hvalue, hm'⟩ := scopeValue_of_means (hlast other u hu) (joinPath path) hm
  refine ⟨m', ?_, hm'⟩
  rw [fromScope, follow, hlookup]
  exact bind_eq_ok.mpr ⟨u, m', hvalue, ofExcept_eq_ok.mpr ⟨hderive, rfl⟩⟩

/-- References in a scope are followed to what is remembered of what they lead to. -/
theorem answered_fromScope (f : Forest) (start : ScopeId) (path : List String) :
    Answered (fromScope f start) (fun last => fromMemory f last start) path :=
  answered_follow (fun _ _ _ _ _ h => lookup_of_scopeValue h) path

end Resolve

/-- What a value means is what it is read as. -/
theorem Graph.Truthful.resolvedIn?_of_means {g : Graph} (h : g.Truthful) {owner key : String}
    {leaf : ScopeId} (hleaf : g.scope.forest.leaf? owner key = some leaf) {v : Value}
    (hv : Means g.scope.forest leaf v) : g.resolvedIn? owner key = some v := by
  obtain ⟨m', hvalue, -⟩ :=
    scopeValue_of_means hv (g.scope.forest.displayName leaf) (Resolve.Truthful.sincere h)
  have hraw : (g.scope.forest.raw? leaf).isSome := by
    cases hv with
    | intro hraw _ _ => exact Option.isSome_of_eq_some hraw
  rw [resolvedIn?, readProperty_of_scopeValue hleaf hraw hvalue]

end Pipework
