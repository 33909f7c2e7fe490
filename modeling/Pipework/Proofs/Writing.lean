import Pipework.Proofs.Evaluation
import Pipework.Proofs.Shape

/-!
# What a write does, and what a failure leaves

An operation on a scope tree does all of what it is for or nothing, though some are made of several
steps: those that may fail come before those that change anything, or cannot fail after them. Finding
something out only adds to what is remembered. A write goes to a scope if and only if its text is a
reference to the value there and to no part of it. It leaves everything as it is but this value, what
the outside object has that it is bound to, and what is remembered. So the text comes to what the new
value stands for where the scope lies, also if this depends on the scope itself.
-/

namespace Pipework

open Step Resolve

namespace ScopeTree

/-! ### What a failure leaves -/

/-- The scopes and the outside objects are as they were, whatever is remembered. -/
structure Untouched (tree tree' : ScopeTree) : Prop where
  /-- The scopes have their names, places, values and bindings. -/
  forest : tree'.forest = tree.forest
  /-- The outside objects were given nothing, and so they have their properties. -/
  sources : tree'.sources = tree.sources

instance : Std.Refl Untouched := ⟨fun _ => ⟨rfl, rfl⟩⟩

theorem SameButMemo.untouched {tree tree' : ScopeTree} (h : SameButMemo tree tree') :
    Untouched tree tree' := by
  obtain ⟨memo, -, rfl⟩ := h
  exact ⟨rfl, rfl⟩

/-- If no value is bound to a property, nothing happens. -/
theorem bind_eq_error {id : ScopeId} {binding : Binding} {e : ScopeError} {tree tree' : ScopeTree}
    (h : bind id binding tree = .error e tree') : tree' = tree := by
  rcases Step.bind_eq_error.mp h with h | ⟨_, _, hget, h⟩
  · cases h
  obtain ⟨rfl, rfl⟩ := get_eq_ok.mp hget
  cases hvalue : (tree.source? binding.source).bind (·.get binding.property) with
  | some value =>
    simp only [hvalue] at h
    exact store_eq_error h
  | none =>
    simp only [hvalue] at h
    cases h
    rfl

/-- If nothing is written, nothing happens: once the value is stored, the outside object cannot make
the write fail. -/
theorem write_eq_error {id : ScopeId} {text : String} {value : Value} {e : ScopeError}
    {tree tree' : ScopeTree} (h : write id text value tree = .error e tree') : tree' = tree := by
  cases hpath : Template.singleReference? text with
  | none =>
    simp only [write, hpath] at h
    cases h
    rfl
  | some path =>
    simp only [write, hpath] at h
    rcases Step.bind_eq_error.mp h with h | ⟨_, _, hget, h⟩
    · cases h
    obtain ⟨rfl, rfl⟩ := get_eq_ok.mp hget
    cases hlookup : tree.forest.lookup? id path with
    | none =>
      simp only [hlookup] at h
      cases h
      rfl
    | some found =>
      cases hentry : tree.forest.content? found.1 with
      | none =>
        simp only [hlookup, hentry] at h
        cases h
        rfl
      | some entry =>
        simp only [hlookup, hentry] at h
        split at h
        · cases h
          rfl
        · rcases Step.bind_eq_error.mp h with h | ⟨_, _, -, h⟩
          · exact store_eq_error h
          · cases hbinding : entry.binding? with
            | none =>
              simp only [hbinding] at h
              cases h
            | some binding =>
              simp only [hbinding] at h
              cases h

/-- What an operation leaves that consists in a step without its result is what the step leaves. -/
theorem eq_error_of_discarded {α : Type} {step : ScopeM α} {e : ScopeError} {tree tree' : ScopeTree}
    (h : (step >>= fun _ => pure ()) tree = .error e tree') : step tree = .error e tree' := by
  rcases Step.bind_eq_error.mp h with h | ⟨_, _, -, h⟩
  · exact h
  · cases h

/-- **Failures.** An operation that fails leaves the scopes and the outside objects as they were,
whatever it is and in whatever tree, and so does looking for a child to take out if there is none.
Finding something out leaves them so whether it fails or not. -/
theorem untouched_of_failure :
    (∀ (tree tree' : ScopeTree) (operation : Operation) (e : ScopeError),
      operation.run tree = .error e tree' → Untouched tree tree') ∧
    (∀ (tree tree' : ScopeTree) (parent : ScopeId) (name : String),
      removeChild parent name tree = .ok false tree' → Untouched tree tree') ∧
    ∀ (tree : ScopeTree) (query : Query), Untouched tree (left (query.run tree)) := by
  have hsame : ∀ {tree tree' : ScopeTree}, tree' = tree → Untouched tree tree' := by
    rintro tree _ rfl
    exact ⟨rfl, rfl⟩
  refine ⟨fun tree tree' operation e h => ?_, fun tree tree' parent name h => ?_,
    fun tree query => (moves_query query tree).untouched⟩
  swap
  · rw [removeChild_eq] at h
    split at h
    · cases h
    · cases h
      exact refl_of Untouched tree
  cases operation with
  | createChild parent name => exact hsame (createChild_eq_error (eq_error_of_discarded h))
  | removeChild parent name =>
    have hnever := eq_error_of_discarded h
    rw [removeChild_eq] at hnever
    split at hnever
    · cases hnever
    · cases hnever
  | put parent name value => exact hsame (put_eq_error (eq_error_of_discarded h))
  | setValue id value => exact hsame (store_eq_error h)
  | bind id binding => exact hsame (bind_eq_error h)
  | write id text value => exact hsame (write_eq_error h)
  | read query =>
    have hmoves := moves_query query tree
    rw [eq_error_of_discarded h] at hmoves
    exact hmoves.untouched
  | invalidate => cases h

/-- The bulb does not let its brightness be changed, and the dial can be set. -/
def appliances : List (String × Source) :=
  [("bulb", .ofState (fun _ property => if property = "watts" then some (.int 40) else none)
      (fun state _ _ => (false, state)) ()),
    ("dial", .ofState (fun hour property => if property = "hour" then some hour else none)
      (fun hour property value => if property = "hour" then (true, value) else (false, hour))
      (Value.int 9))]

/-- A desk with a note that refers to what is not there, a drawer with a key in it, a lamp as bright as
the bulb, and a clock that shows what the dial does. -/
def desk : ScopeTree := Operation.runAll [.put 0 "note" (.str "$\x7bpen\x7d"), .createChild 0 "drawer",
  .put 2 "key" (.str "brass"), .createChild 0 "lamp", .bind 4 ⟨"bulb", "watts"⟩,
  .createChild 0 "clock", .bind 5 ⟨"dial", "hour"⟩] ⟨.initial, [], appliances⟩

/-- None of this can be done with the desk, and it stays as it is. -/
theorem desk_stays : ∃ e₁ e₂ e₃ e₄ e₅ t₁ t₂ t₃ t₄ t₅ t₆,
    (Operation.put 1 "corner" (.str "torn")).run desk = .error e₁ t₁ ∧ Untouched desk t₁ ∧
    (Operation.put 0 "drawer" (.str "full")).run desk = .error e₂ t₂ ∧ Untouched desk t₂ ∧
    (Operation.bind 4 ⟨"bulb", "colour"⟩).run desk = .error e₃ t₃ ∧ Untouched desk t₃ ∧
    (Operation.write 0 "$\x7blamp.stem\x7d" (.int 60)).run desk = .error e₄ t₄ ∧ Untouched desk t₄ ∧
    (Operation.read (.resolveAt 1)).run desk = .error e₅ t₅ ∧ Untouched desk t₅ ∧
    removeChild 0 "chair" desk = .ok false t₆ ∧ Untouched desk t₆ := by
  have hfails : ∀ operation : Operation, outcome (operation.run desk) ≠ .ok () →
      ∃ e t, operation.run desk = .error e t ∧ Untouched desk t := by
    intro operation h
    cases hrun : operation.run desk with
    | ok u t =>
      rw [hrun] at h
      exact absurd rfl h
    | error e t => exact ⟨e, t, rfl, untouched_of_failure.1 desk t operation e hrun⟩
  obtain ⟨e₁, t₁, h₁⟩ := hfails (.put 1 "corner" (.str "torn")) (by decide +kernel)
  obtain ⟨e₂, t₂, h₂⟩ := hfails (.put 0 "drawer" (.str "full")) (by decide +kernel)
  obtain ⟨e₃, t₃, h₃⟩ := hfails (.bind 4 ⟨"bulb", "colour"⟩) (by decide +kernel)
  obtain ⟨e₄, t₄, h₄⟩ := hfails (.write 0 "$\x7blamp.stem\x7d" (.int 60)) (by decide +kernel)
  obtain ⟨e₅, t₅, h₅⟩ := hfails (.read (.resolveAt 1)) (by decide +kernel)
  have h₆ : removeChild 0 "chair" desk = .ok false desk := rfl
  exact ⟨e₁, e₂, e₃, e₄, e₅, t₁, t₂, t₃, t₄, t₅, desk, h₁.1, h₁.2, h₂.1, h₂.2, h₃.1, h₃.2, h₄.1, h₄.2,
    h₅.1, h₅.2, h₆, untouched_of_failure.2.1 desk desk 0 "chair" h₆⟩

end ScopeTree

/-! ### What a write does -/

namespace Forest

/-- Where later writes to the value of a scope go as well. -/
def binding? (f : Forest) (id : ScopeId) : Option Binding := (f.content? id).bind (·.binding?)

/-- The text is one reference, and all of it leads from the scope to another one with a value. -/
def Designates (f : Forest) (scope : ScopeId) (text : String) (id : ScopeId) : Prop :=
  ∃ path, Template.singleReference? text = some path ∧ f.lookup? scope path = some (id, path.length) ∧
    (f.raw? id).isSome

section Designates

variable {f : Forest} {scope id : ScopeId} {text : String} (h : f.Designates scope text id)

include h

theorem Designates.exists_entry : ∃ entry, f.content? id = some entry := by
  obtain ⟨_, -, -, hraw⟩ := h
  obtain ⟨raw, hraw⟩ := Option.isSome_iff_exists.mp hraw
  obtain ⟨entry, hentry, -⟩ := Option.map_eq_some_iff.mp hraw
  exact ⟨entry, hentry⟩

/-- Another value in the scope leaves the text a reference to it. -/
theorem Designates.setEntry (entry : Entry) : (f.setEntry id entry).Designates scope text id := by
  obtain ⟨path, hpath, hlookup, hraw⟩ := h
  have halike := alike_setEntry hraw entry
  exact ⟨path, hpath, (halike.lookup? scope path).trans hlookup, (halike.holds id).trans hraw⟩

end Designates

end Forest

namespace Step

theorem toOption_outcome_eq_some {ε σ α : Type} {result : EStateM.Result ε σ α} {a : α} :
    (outcome result).toOption = some a ↔ ∃ s, result = .ok a s := by
  cases result <;> simp [outcome, Except.toOption]

end Step

namespace Resolve

theorem evaluate_eq_of_single {text : String} {path : List String}
    (h : Template.singleReference? text = some path) (deref : List String → ResolveM Value) :
    evaluate deref text = deref path := by
  rw [evaluate, Template.tokenize_of_singleReference? h]

/-- The value of a scope comes to what resolving it where the scope lies comes to, and does not come
to anything if this does not. -/
theorem scopeValue_eq_ok_iff {f : Forest} {id : ScopeId} {raw : Value} (hraw : f.raw? id = some raw)
    (reference : String) (v : Value) :
    (∃ m, scopeValue f id reference [] = .ok v m) ↔
      ∃ m, value (fromScope f (f.seat id)) raw [] = .ok v m := by
  constructor
  · rintro ⟨m, h⟩
    have htrue := ((moves_scopeValue f id reference).of_ok h).truthful nofun
    obtain @⟨_, held, _, known, hheld, hknown, hv⟩ := htrue id v (lookup_of_scopeValue h)
    obtain rfl := Option.some.inj (hraw.symm.trans hheld)
    obtain ⟨m', hvalue, -⟩ := value_served raw (fun path _ => serves_fromScope hknown path)
      (valueWith_eq_ok.mp hv []) (Truthful.sincere (f := f) (m := []) nofun)
    exact ⟨m', hvalue⟩
  · rintro ⟨m, h⟩
    have htrue := ((moves_action (.resolve (f.seat id) raw) f).of_ok h).truthful nofun
    have hvalue := value_answered (fun _ _ h => h.recalls) raw
      (fun path _ => ⟨moves_fromScope f (f.seat id) path, answered_fromScope f (f.seat id) path⟩) h
      (show Recalls m m from fun _ _ hv => hv)
    obtain ⟨m', hscope, -⟩ := scopeValue_of_means (.intro hraw htrue (valueWith_eq_ok.mpr hvalue))
      reference (Truthful.sincere (f := f) (m := []) nofun)
    exact ⟨m', hscope⟩

end Resolve

namespace ScopeTree

/-- A value was written to a scope that had one, and to what this is bound to. -/
structure Updated (id : ScopeId) (value : Value) (tree tree' : ScopeTree) : Prop where
  /-- All scopes have their names and places. -/
  scopes : tree.forest.SameScopes tree'.forest
  /-- The scope has the new value. -/
  raw? : tree'.forest.raw? id = some value
  /-- All others have the values that they had. -/
  others : ∀ other ≠ id, tree'.forest.raw? other = tree.forest.raw? other
  /-- All scopes, this one included, are bound to what they were bound to. -/
  binding? : ∀ other, tree'.forest.binding? other = tree.forest.binding? other
  /-- The outside object that the scope is bound to was given the value, whether it takes it or not. -/
  bound : ∀ binding, tree.forest.binding? id = some binding →
    tree'.source? binding.source =
      (tree.source? binding.source).map fun source => (source.set binding.property value).2
  /-- All others were left alone. -/
  unbound : ∀ name, (∀ binding, tree.forest.binding? id = some binding → binding.source ≠ name) →
    tree'.source? name = tree.source? name

/-- The tree with another value in a scope, which what it is bound to was given. -/
def overwrite (tree : ScopeTree) (id : ScopeId) (value : Value) (binding? : Option Binding) :
    ScopeTree :=
  let stored := { tree with forest := tree.forest.setEntry id ⟨value, binding?⟩, memo := [] }
  match binding? with
  | some binding => stored.writeSource binding value
  | none => stored

section Overwrite

variable (tree : ScopeTree) (id : ScopeId) (value : Value) (binding? : Option Binding)

@[simp] theorem forest_overwrite :
    (tree.overwrite id value binding?).forest = tree.forest.setEntry id ⟨value, binding?⟩ := by
  cases binding? <;> rfl

@[simp] theorem memo_overwrite : (tree.overwrite id value binding?).memo = [] := by
  cases binding? <;> rfl

/-- What the scopes are like does not depend on the outside objects. -/
theorem overwrite_with_sources (sources : List (String × Source)) :
    { tree with sources }.overwrite id value binding? =
      { tree.overwrite id value binding? with
        sources := ({ tree with sources }.overwrite id value binding?).sources } := by
  cases binding? <;> rfl

end Overwrite

/-- A write to an outside object reaches the one that has the name. -/
theorem source?_writeSource (tree : ScopeTree) (binding : Binding) (value : Value) (name : String) :
    (tree.writeSource binding value).source? name =
      if name = binding.source then
        (tree.source? name).map fun source => (source.set binding.property value).2
      else tree.source? name := by
  rw [source?, source?, writeSource]
  induction tree.sources with
  | nil => split <;> rfl
  | cons named rest ih =>
    obtain ⟨first, source⟩ := named
    have hnamed : (if first = binding.source then (first, (source.set binding.property value).2)
        else (first, source)) = (first,
        if first = binding.source then (source.set binding.property value).2 else source) := by
      split <;> rfl
    rw [List.map_cons, hnamed, List.lookup_cons, List.lookup_cons]
    by_cases hname : name = first
    · subst hname
      simp only [beq_self_eq_true]
      split <;> rfl
    · rw [beq_false_of_ne hname]
      exact ih

theorem updated_overwrite {tree : ScopeTree} {id : ScopeId} {entry : Entry}
    (hentry : tree.forest.content? id = some entry) (value : Value) :
    Updated id value tree (tree.overwrite id value entry.binding?) := by
  have hraw : (tree.forest.raw? id).isSome := by rw [Forest.raw?, hentry]; rfl
  have hat : tree.forest.binding? id = entry.binding? := by rw [Forest.binding?, hentry]; rfl
  refine ⟨?_, ?_, fun other hne => ?_, fun other => ?_, fun binding hbinding => ?_,
    fun name hname => ?_⟩
  · rw [forest_overwrite]
    exact Forest.sameScopes_setEntry _ _ _
  · rw [forest_overwrite, Forest.raw?_setEntry_of_isSome hraw, if_pos rfl]
  · rw [forest_overwrite, Forest.raw?_setEntry_of_isSome hraw, if_neg hne]
  · rw [forest_overwrite, Forest.binding?, Forest.content?_setEntry]
    split
    next heq => rw [heq.1, hat]; rfl
    next => rfl
  · obtain hbinding := hat.symm.trans hbinding
    rw [hbinding]
    exact (source?_writeSource _ _ _ _).trans (if_pos rfl)
  · rw [hat] at hname
    cases hbinding : entry.binding? with
    | none => rfl
    | some binding =>
      exact (source?_writeSource _ _ _ _).trans (if_neg (hname binding hbinding).symm)

/-- A scope that holds a value, and so no others, takes another one and stays bound. -/
theorem setValue_eq {tree : ScopeTree} {id : ScopeId} {entry : Entry}
    (hentry : tree.forest.content? id = some entry) (hbare : tree.forest.children id = [])
    (value : Value) : setValue id value tree =
      .ok () { tree with forest := tree.forest.setEntry id ⟨value, entry.binding?⟩, memo := [] } := by
  obtain ⟨scope, hscope, hcontent⟩ := Option.bind_eq_some_iff.mp hentry
  have hnone : scope.children = [] := by simpa [Forest.children, hscope] using hbare
  refine bind_eq_ok.mpr ⟨scope, tree, scopeAt_eq_ok.mpr ⟨hscope, rfl⟩, ?_⟩
  refine bind_eq_ok.mpr ⟨tree, tree, get_eq_ok.mpr ⟨rfl, rfl⟩, ?_⟩
  rw [if_neg (not_not.mpr hnone), hcontent]
  rfl

/-- A write comes to pass if its text is a reference to a value. -/
theorem write_eq {tree : ScopeTree} (htree : tree.forest.Shapely) {scope id : ScopeId} {text : String}
    (h : tree.forest.Designates scope text id) {entry : Entry}
    (hentry : tree.forest.content? id = some entry) (value : Value) :
    write scope text value tree = .ok () (tree.overwrite id value entry.binding?) := by
  obtain ⟨path, hpath, hlookup, hraw⟩ := h
  have hbare : tree.forest.children id = [] := htree.leaf id (by rw [hentry]; rfl)
  simp only [write, hpath]
  refine bind_eq_ok.mpr ⟨tree, tree, get_eq_ok.mpr ⟨rfl, rfl⟩, ?_⟩
  simp only [hlookup, hentry, ne_eq, not_true_eq_false, if_false]
  refine bind_eq_ok.mpr ⟨(), _, setValue_eq hentry hbare value, ?_⟩
  cases hbinding : entry.binding? <;> rfl

/-- The text of a write that comes to pass is a reference to a value. -/
theorem exists_designates {tree tree' : ScopeTree} {scope : ScopeId} {text : String} {value : Value}
    (h : write scope text value tree = .ok () tree') : ∃ id, tree.forest.Designates scope text id := by
  cases hpath : Template.singleReference? text with
  | none =>
    simp only [write, hpath] at h
    exact absurd h throw_ne_ok
  | some path =>
    simp only [write, hpath] at h
    obtain ⟨_, _, hget, h⟩ := bind_eq_ok.mp h
    obtain ⟨rfl, rfl⟩ := get_eq_ok.mp hget
    cases hlookup : tree.forest.lookup? scope path with
    | none =>
      simp only [hlookup] at h
      exact absurd h throw_ne_ok
    | some found =>
      cases hentry : tree.forest.content? found.1 with
      | none =>
        simp only [hlookup, hentry] at h
        exact absurd h throw_ne_ok
      | some entry =>
        simp only [hlookup, hentry] at h
        split at h
        · exact absurd h throw_ne_ok
        next hall =>
          refine ⟨found.1, path, hpath, ?_, by rw [Forest.raw?, hentry]; rfl⟩
          rw [hlookup, ← not_not.mp hall]

/-- A text that is a reference to a value comes to what this stands for where it lies. -/
theorem evaluate_designated {tree : ScopeTree} (hmemo : tree.memo = []) {scope id : ScopeId}
    {text : String} (h : tree.forest.Designates scope text id) {value : Value}
    (hraw : tree.forest.raw? id = some value) :
    (outcome (evaluate scope text tree)).toOption =
      (outcome (resolve (tree.forest.seat id) value tree)).toOption := by
  obtain ⟨path, hpath, hlookup, -⟩ := h
  have hread : outcome (evaluate scope text tree) =
      outcome (scopeValue tree.forest id (joinPath path) []) := by
    rw [evaluate, outcome_resolving, evaluate_eq_of_single hpath, fromScope, follow, hlookup, hmemo]
    dsimp only
    rw [List.drop_length, outcome_bind_ofExcept]
    cases outcome (scopeValue tree.forest id (joinPath path) []) <;> rfl
  rw [hread, resolve, outcome_resolving, hmemo]
  refine Option.ext fun v => ?_
  rw [toOption_outcome_eq_some, toOption_outcome_eq_some]
  exact scopeValue_eq_ok_iff hraw (joinPath path) v

/-- **Writes.** In whatever state a scope tree is, a write comes to pass if and only if its text is one
reference and all of it leads to a scope with a value, and if it does not, nothing happens. If it does,
this scope has the new value, the outside object that it is bound to was given it, and nothing
else changed among the scopes and the outside objects; whatever objects there are and whether they take
writes makes no difference to the scopes. And then the text comes to what the value comes to if it is
resolved where the scope lies, and to nothing if that comes to nothing. -/
theorem write_exact {tree : ScopeTree} (htree : tree.Reachable) (scope : ScopeId) (text : String)
    (value : Value) :
    ((∃ tree', write scope text value tree = .ok () tree') ↔
      ∃ id, tree.forest.Designates scope text id) ∧
    (∀ e tree', write scope text value tree = .error e tree' → tree' = tree) ∧
    ∀ id tree', tree.forest.Designates scope text id → write scope text value tree = .ok () tree' →
      Updated id value tree tree' ∧
      (∀ sources, ∃ sources', write scope text value { tree with sources } =
        .ok () { tree' with sources := sources' }) ∧
      (outcome (evaluate scope text tree')).toOption =
        (outcome (resolve (tree'.forest.seat id) value tree')).toOption := by
  have hshape := htree.shapely
  refine ⟨⟨fun ⟨tree', h⟩ => exists_designates h, fun ⟨id, h⟩ => ?_⟩,
    fun e tree' h => write_eq_error h, fun id tree' h hwrite => ?_⟩
  · obtain ⟨entry, hentry⟩ := h.exists_entry
    exact ⟨_, write_eq hshape h hentry value⟩
  · obtain ⟨entry, hentry⟩ := h.exists_entry
    have hwritten := fun sources => @write_eq { tree with sources } hshape _ _ _ h _ hentry value
    obtain rfl : tree.overwrite id value entry.binding? = tree' := by
      simpa using (hwritten tree.sources).symm.trans hwrite
    have hupdated := updated_overwrite hentry value
    refine ⟨hupdated, fun sources => ?_, ?_⟩
    · exact ⟨({ tree with sources }.overwrite id value entry.binding?).sources,
        (hwritten sources).trans (congrArg _ (overwrite_with_sources tree id value _ sources))⟩
    · refine evaluate_designated (memo_overwrite _ _ _ _) ?_ hupdated.raw?
      rw [forest_overwrite]
      exact h.setEntry _

/-- The clock is set to an hour that the lamp has a part in, and the dial with it. The lamp is set to
itself, which the bulb does not mind, and no longer comes to anything. -/
theorem desk_is_written : desk.Reachable ∧
    (∃ tree, write 0 "$\x7bclock\x7d" (.str "$\x7blamp\x7d past") desk = .ok () tree ∧
      (tree.source? "dial").bind (·.get "hour") = some (.str "$\x7blamp\x7d past") ∧
      (outcome (evaluate 0 "$\x7bclock\x7d" tree)).toOption = some (.str "40 past")) ∧
    (∃ tree, write 2 "$\x7blamp\x7d" (.str "$\x7blamp\x7d") desk = .ok () tree ∧
      (tree.source? "bulb").bind (·.get "watts") = some (.int 40) ∧
      (outcome (evaluate 2 "$\x7blamp\x7d" tree)).toOption = none) ∧
    ∃ e, write 0 "$\x7bdrawer\x7d" (.str "full") desk = .error e desk := by
  have hreach : desk.Reachable := (Reachable.start appliances).runAll _
  refine ⟨hreach, ?_, ?_, ?_⟩
  · obtain ⟨hexists, -, hafter⟩ := write_exact hreach 0 "$\x7bclock\x7d" (.str "$\x7blamp\x7d past")
    have hat : desk.forest.Designates 0 "$\x7bclock\x7d" 5 :=
      ⟨["clock"], by decide +kernel, by decide +kernel, by decide +kernel⟩
    obtain ⟨tree, hwrite⟩ := hexists.mpr ⟨5, hat⟩
    obtain ⟨hupdated, -, hread⟩ := hafter 5 tree hat hwrite
    refine ⟨tree, hwrite, ?_, hread.trans ?_⟩
    · rw [hupdated.bound ⟨"dial", "hour"⟩ (by decide +kernel)]
      decide +kernel
    · obtain rfl : tree = left (write 0 "$\x7bclock\x7d" (.str "$\x7blamp\x7d past") desk) := by
        rw [hwrite]
        rfl
      decide +kernel
  · obtain ⟨hexists, -, hafter⟩ := write_exact hreach 2 "$\x7blamp\x7d" (.str "$\x7blamp\x7d")
    have hat : desk.forest.Designates 2 "$\x7blamp\x7d" 4 :=
      ⟨["lamp"], by decide +kernel, by decide +kernel, by decide +kernel⟩
    obtain ⟨tree, hwrite⟩ := hexists.mpr ⟨4, hat⟩
    obtain ⟨hupdated, -, hread⟩ := hafter 4 tree hat hwrite
    refine ⟨tree, hwrite, ?_, hread.trans ?_⟩
    · rw [hupdated.bound ⟨"bulb", "watts"⟩ (by decide +kernel)]
      decide +kernel
    · obtain rfl : tree = left (write 2 "$\x7blamp\x7d" (.str "$\x7blamp\x7d") desk) := by
        rw [hwrite]
        rfl
      decide +kernel
  · cases h : write 0 "$\x7bdrawer\x7d" (.str "full") desk with
    | ok u tree =>
      have hfails : outcome (write 0 "$\x7bdrawer\x7d" (.str "full") desk) ≠ .ok () := by
        decide +kernel
      exact absurd (congrArg outcome h) hfails
    | error e tree =>
      obtain rfl := (write_exact hreach 0 "$\x7bdrawer\x7d" (.str "full")).2.1 e tree h
      exact ⟨e, rfl⟩

end ScopeTree

end Pipework
