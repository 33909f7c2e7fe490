import Pipework.Proofs.KeptMeaning

/-!
# What resolving a value depends on

A value resolves to what it comes to with given answers if its references are followed to these, and
two resolutions come to the same, or fail for the same, if following each reference does. So all that has
to be shown of resolving is shown of following a reference.
-/

namespace Pipework

open Step Resolve

namespace Step

variable {ε σ α β : Type} {P : σ → Prop}

/-- What a step comes to, without the state it ends in. -/
def outcome : EStateM.Result ε σ α → Except ε α
  | .ok a _ => .ok a
  | .error e _ => .error e

/-- From states of the kind the step always comes to the same, and to such states. -/
def Agrees (P : σ → Prop) (x : EStateM ε σ α) : Prop :=
  ∀ s s', P s → P s' → outcome (x s) = outcome (x s') ∧ P (left (x s))

/-- Giving back a result comes to the same from all states. -/
theorem Agrees.pure (a : α) : Agrees P (pure a : EStateM ε σ α) := fun _ _ hs _ => ⟨rfl, hs⟩

theorem Agrees.throw (e : ε) : Agrees P (throw e : EStateM ε σ α) := fun _ _ hs _ => ⟨rfl, hs⟩

/-- Steps one behind the other come to the same from all states of the kind if each of them does. -/
theorem Agrees.bind {x : EStateM ε σ α} {f : α → EStateM ε σ β} (hx : Agrees P x)
    (hf : ∀ a, Agrees P (f a)) : Agrees P (x >>= f) := by
  intro s s' hs hs'
  obtain ⟨hsame, hleft⟩ := hx s s' hs hs'
  have hleft' := (hx s' s hs' hs).2
  change outcome (EStateM.bind x f s) = outcome (EStateM.bind x f s') ∧ P (left (EStateM.bind x f s))
  unfold EStateM.bind
  cases h : x s with
  | ok a t =>
    cases h' : x s' with
    | ok b t' =>
      rw [h, h'] at hsame
      obtain rfl : a = b := Except.ok.inj hsame
      rw [h] at hleft
      rw [h'] at hleft'
      exact hf a t t' hleft hleft'
    | error e t' =>
      rw [h, h'] at hsame
      cases hsame
  | error e t =>
    cases h' : x s' with
    | ok b t' =>
      rw [h, h'] at hsame
      cases hsame
    | error e' t' =>
      rw [h, h'] at hsame
      rw [h] at hleft
      obtain rfl : e = e' := Except.error.inj hsame
      exact ⟨rfl, hleft⟩

end Step

namespace Resolve

section Answers

variable {answer : List String → Except ScopeError Value}

/-- Tokens are put together only if all references among them are answered. -/
theorem exists_answer_of_gather {template : String} {tokens : List Token} {width : Option Nat}
    {out : List Value × Option Nat} {m m' : Memo}
    (h : gather (answering answer) template width tokens m = .ok out m') {path : List String}
    (hp : path ∈ tokens.filterMap Token.path?) : ∃ w, answer path = .ok w := by
  induction tokens generalizing width out m m' with
  | nil => cases hp
  | cons token tokens ih =>
    cases token with
    | literal text =>
      rw [gather] at h
      obtain ⟨rest, _, hrest, -⟩ := bind_eq_ok.mp h
      exact ih hrest (by simpa [Token.path?] using hp)
    | reference first =>
      rw [gather] at h
      obtain ⟨part, _, hpart, h⟩ := bind_eq_ok.mp h
      obtain ⟨wider, _, -, h⟩ := bind_eq_ok.mp h
      obtain ⟨rest, _, hrest, -⟩ := bind_eq_ok.mp h
      rw [List.filterMap_cons] at hp
      rcases List.mem_cons.mp hp with rfl | hp
      · exact ⟨part, (ofExcept_eq_ok.mp hpart).1⟩
      · exact ih hrest hp

/-- A text comes to something only if its references are answered. -/
theorem exists_answer_of_evaluate {template : String} {v : Value} {m m' : Memo}
    (h : evaluate (answering answer) template m = .ok v m') {path : List String}
    (hp : path ∈ Template.references template) : ∃ w, answer path = .ok w := by
  rw [Template.references] at hp
  rcases evaluate_cases template with ⟨only, htokens, heq⟩ | heq
  · rw [heq] at h
    obtain rfl : path = only := by simpa [htokens, Token.path?] using hp
    exact ⟨v, (ofExcept_eq_ok.mp h).1⟩
  · rw [heq] at h
    obtain ⟨out, _, hout, -⟩ := bind_eq_ok.mp h
    exact exists_answer_of_gather hout hp

mutual

/-- A value resolves only if its references are answered. -/
theorem exists_answer_of_value : ∀ (raw : Value) {v : Value} {m m' : Memo},
    value (answering answer) raw m = .ok v m' → ∀ path ∈ raw.references, ∃ w, answer path = .ok w
  | .str text, v, m, m', h, path, hp => by
    rw [value] at h
    split at h
    next => exact exists_answer_of_evaluate h hp
    next hplain =>
      rw [Value.references_of_not_mayRefer (by simpa [Value.mayRefer] using hplain)] at hp
      cases hp
  | .list items, v, m, m', h, path, hp => by
    rw [value] at h
    obtain ⟨resolved, _, hitems, -⟩ := bind_eq_ok.mp h
    exact exists_answer_of_values items hitems path hp
  | .bool _, _, _, _, _, _, hp | .int _, _, _, _, _, _, hp | .float _, _, _, _, _, _, hp => by cases hp

/-- Values resolve only if their references are answered. -/
theorem exists_answer_of_values : ∀ (items : List Value) {vs : List Value} {m m' : Memo},
    values (answering answer) items m = .ok vs m' →
      ∀ path ∈ Value.allReferences items, ∃ w, answer path = .ok w
  | [], _, _, _, _, _, hp => by cases hp
  | item :: items, vs, m, m', h, path, hp => by
    rw [values] at h
    obtain ⟨resolved, _, hitem, h⟩ := bind_eq_ok.mp h
    obtain ⟨others, _, hitems, -⟩ := bind_eq_ok.mp h
    rw [Value.allReferences, List.mem_append] at hp
    rcases hp with hp | hp
    · exact exists_answer_of_value item hitem path hp
    · exact exists_answer_of_values items hitems path hp

end

/-- A value comes to something only if all its references are answered. -/
theorem exists_answer {raw v : Value} (h : valueWith answer raw = .ok v) {path : List String}
    (hp : path ∈ raw.references) : ∃ w, answer path = .ok w :=
  exists_answer_of_value raw (valueWith_eq_ok.mp h []) path hp

/-- A reference is followed to what it is answered with, from any memory of the kind. -/
def Serves (P : Memo → Prop) (deref : List String → ResolveM Value)
    (answer : List String → Except ScopeError Value) (path : List String) : Prop :=
  ∀ w, answer path = .ok w → ∀ m, P m → ∃ m', deref path m = .ok w m' ∧ P m'

variable {P : Memo → Prop} {deref : List String → ResolveM Value}

/-- Tokens that are put together with given answers are put together if following references gives these. -/
theorem gather_served {template : String} {tokens : List Token}
    (hd : ∀ path ∈ tokens.filterMap Token.path?, Serves P deref answer path) {width : Option Nat}
    {out : List Value × Option Nat} {m₀ m₁ : Memo}
    (h : gather (answering answer) template width tokens m₀ = .ok out m₁) {m : Memo} (hm : P m) :
    ∃ m', gather deref template width tokens m = .ok out m' ∧ P m' := by
  induction tokens generalizing width out m₀ m₁ m with
  | nil =>
    obtain ⟨rfl, -⟩ := pure_eq_ok.mp h
    exact ⟨m, rfl, hm⟩
  | cons token tokens ih =>
    cases token with
    | literal text =>
      rw [gather] at h
      obtain ⟨rest, _, hrest, h⟩ := bind_eq_ok.mp h
      obtain ⟨rfl, -⟩ := pure_eq_ok.mp h
      obtain ⟨m', hgather, hm'⟩ := ih (by simpa [Token.path?] using hd) hrest hm
      refine ⟨m', ?_, hm'⟩
      rw [gather]
      exact bind_eq_ok.mpr ⟨rest, m', hgather, pure_eq_ok.mpr ⟨rfl, rfl⟩⟩
    | reference path =>
      rw [gather] at h
      obtain ⟨part, _, hpart, h⟩ := bind_eq_ok.mp h
      obtain ⟨wider, _, hat, h⟩ := bind_eq_ok.mp h
      obtain ⟨hwider, rfl⟩ := ofExcept_eq_ok.mp hat
      obtain ⟨rest, _, hrest, h⟩ := bind_eq_ok.mp h
      obtain ⟨rfl, -⟩ := pure_eq_ok.mp h
      obtain ⟨m₂, hderef, hm₂⟩ :=
        hd path (by simp [Token.path?]) part (ofExcept_eq_ok.mp hpart).1 m hm
      obtain ⟨m', hgather, hm'⟩ := ih (fun p hp => hd p (by simp [Token.path?, hp])) hrest hm₂
      refine ⟨m', ?_, hm'⟩
      rw [gather]
      refine bind_eq_ok.mpr ⟨part, m₂, hderef, ?_⟩
      refine bind_eq_ok.mpr ⟨wider, m₂, ofExcept_eq_ok.mpr ⟨hwider, rfl⟩, ?_⟩
      exact bind_eq_ok.mpr ⟨rest, m', hgather, pure_eq_ok.mpr ⟨rfl, rfl⟩⟩

/-- A text that comes to something with given answers does so if following references gives these. -/
theorem evaluate_served {template : String}
    (hd : ∀ path ∈ Template.references template, Serves P deref answer path) {v : Value} {m₀ m₁ : Memo}
    (h : evaluate (answering answer) template m₀ = .ok v m₁) {m : Memo} (hm : P m) :
    ∃ m', evaluate deref template m = .ok v m' ∧ P m' := by
  rw [Template.references] at hd
  rcases evaluate_cases template with ⟨path, htokens, heq⟩ | heq
  · rw [heq] at h ⊢
    exact hd path (by simp [htokens, Token.path?]) v (ofExcept_eq_ok.mp h).1 m hm
  · rw [heq] at h ⊢
    obtain ⟨out, _, hout, h⟩ := bind_eq_ok.mp h
    obtain ⟨hassemble, -⟩ := ofExcept_eq_ok.mp h
    obtain ⟨m', hgather, hm'⟩ := gather_served hd hout hm
    exact ⟨m', bind_eq_ok.mpr ⟨out, m', hgather, ofExcept_eq_ok.mpr ⟨hassemble, rfl⟩⟩, hm'⟩

mutual

/-- A value resolves to what it comes to if its references are followed to what they are answered
with. -/
theorem value_served : ∀ (raw : Value), (∀ path ∈ raw.references, Serves P deref answer path) →
    ∀ {v : Value} {m₀ m₁ : Memo}, value (answering answer) raw m₀ = .ok v m₁ → ∀ {m : Memo}, P m →
      ∃ m', value deref raw m = .ok v m' ∧ P m'
  | .str text, hd, v, m₀, m₁, h, m, hm => by
    rw [value] at h ⊢
    split
    next hrefer =>
      rw [if_pos hrefer] at h
      exact evaluate_served hd h hm
    next hplain =>
      rw [if_neg hplain] at h
      obtain ⟨rfl, -⟩ := pure_eq_ok.mp h
      exact ⟨m, rfl, hm⟩
  | .list items, hd, v, m₀, m₁, h, m, hm => by
    rw [value] at h
    obtain ⟨resolved, _, hitems, h⟩ := bind_eq_ok.mp h
    obtain ⟨rfl, -⟩ := pure_eq_ok.mp h
    obtain ⟨m', hvalues, hm'⟩ := values_served items hd hitems hm
    refine ⟨m', ?_, hm'⟩
    rw [value]
    exact bind_eq_ok.mpr ⟨resolved, m', hvalues, pure_eq_ok.mpr ⟨rfl, rfl⟩⟩
  | .bool b, _, v, _, _, h, m, hm | .int b, _, v, _, _, h, m, hm
  | .float b, _, v, _, _, h, m, hm => by
    obtain ⟨rfl, -⟩ := pure_eq_ok.mp h
    exact ⟨m, rfl, hm⟩

/-- Values that resolve with given answers do so if following references gives these. -/
theorem values_served : ∀ (items : List Value),
    (∀ path ∈ Value.allReferences items, Serves P deref answer path) → ∀ {vs : List Value}
      {m₀ m₁ : Memo}, values (answering answer) items m₀ = .ok vs m₁ → ∀ {m : Memo}, P m →
        ∃ m', values deref items m = .ok vs m' ∧ P m'
  | [], _, vs, _, _, h, m, hm => by
    obtain ⟨rfl, -⟩ := pure_eq_ok.mp h
    exact ⟨m, rfl, hm⟩
  | item :: items, hd, vs, m₀, m₁, h, m, hm => by
    rw [Value.allReferences] at hd
    rw [values] at h
    obtain ⟨resolved, _, hitem, h⟩ := bind_eq_ok.mp h
    obtain ⟨others, _, hitems, h⟩ := bind_eq_ok.mp h
    obtain ⟨rfl, -⟩ := pure_eq_ok.mp h
    obtain ⟨m₂, hfirst, hm₂⟩ :=
      value_served item (fun p hp => hd p (List.mem_append_left _ hp)) hitem hm
    obtain ⟨m', hrest, hm'⟩ :=
      values_served items (fun p hp => hd p (List.mem_append_right _ hp)) hitems hm₂
    refine ⟨m', ?_, hm'⟩
    rw [values]
    refine bind_eq_ok.mpr ⟨resolved, m₂, hfirst, ?_⟩
    exact bind_eq_ok.mpr ⟨others, m', hrest, pure_eq_ok.mpr ⟨rfl, rfl⟩⟩

end

end Answers

section Agreeing

variable {P : Memo → Prop} {deref : List String → ResolveM Value}

/-- A result that was found elsewhere is the same from all states. -/
theorem agrees_ofExcept {α : Type} (x : Except ScopeError α) : Agrees P (ResolveM.ofExcept x) := by
  cases x with
  | ok a => exact .pure a
  | error e => exact .throw e

/-- Putting tokens together comes to the same if following each reference does. -/
theorem agrees_gather {template : String} {tokens : List Token}
    (hd : ∀ path ∈ tokens.filterMap Token.path?, Agrees P (deref path)) (width : Option Nat) :
    Agrees P (gather deref template width tokens) := by
  induction tokens generalizing width with
  | nil => exact .pure _
  | cons token tokens ih =>
    cases token with
    | literal text =>
      rw [gather]
      exact (ih (by simpa [Token.path?] using hd) width).bind fun _ => .pure _
    | reference path =>
      have hrest : ∀ path ∈ tokens.filterMap Token.path?, Agrees P (deref path) := fun p hp =>
        hd p (by simp [Token.path?, hp])
      rw [gather]
      exact (hd path (by simp [Token.path?])).bind fun part => (agrees_ofExcept _).bind fun width =>
        (ih hrest width).bind fun _ => .pure _

/-- Evaluating a text comes to the same if following each reference does. -/
theorem agrees_evaluate {template : String}
    (hd : ∀ path ∈ Template.references template, Agrees P (deref path)) :
    Agrees P (evaluate deref template) := by
  rw [Template.references] at hd
  rcases evaluate_cases template with ⟨path, htokens, heq⟩ | heq
  · rw [heq]
    exact hd path (by simp [htokens, Token.path?])
  · rw [heq]
    exact (agrees_gather hd none).bind fun _ => agrees_ofExcept _

mutual

/-- Resolving a value comes to the same if following each reference does. -/
theorem agrees_value : ∀ raw : Value, (∀ path ∈ raw.references, Agrees P (deref path)) →
    Agrees P (value deref raw)
  | .str text, hd => by
    rw [value]
    split
    · exact agrees_evaluate hd
    · exact .pure _
  | .list items, hd => by
    rw [value]
    exact (agrees_values items hd).bind fun _ => .pure _
  | .bool _, _ | .int _, _ | .float _, _ => .pure _

/-- Resolving values comes to the same if following each reference does. -/
theorem agrees_values : ∀ items : List Value,
    (∀ path ∈ Value.allReferences items, Agrees P (deref path)) → Agrees P (values deref items)
  | [], _ => .pure _
  | item :: items, hd => by
    rw [values]
    rw [Value.allReferences] at hd
    exact (agrees_value item fun p hp => hd p (List.mem_append_left _ hp)).bind fun _ =>
      (agrees_values items fun p hp => hd p (List.mem_append_right _ hp)).bind fun _ => .pure _

end

/-- Following a reference comes to the same if resolving the scope where it leads does. -/
theorem agrees_follow {f : Forest} {start : ScopeId} {scopeValue : ScopeId → String → ResolveM Value}
    {path : List String} (h : ∀ other consumed, f.lookup? start path = some (other, consumed) →
      Agrees P (scopeValue other (joinPath path))) : Agrees P (follow f start scopeValue path) := by
  rw [follow]
  cases hlookup : f.lookup? start path with
  | none => exact .throw _
  | some found => exact (h found.1 found.2 hlookup).bind fun _ => agrees_ofExcept _

end Agreeing

/-- To remember a result does not change what it is. -/
theorem outcome_remembered (x : ResolveM Value) (id : ScopeId) (m : Memo) :
    outcome ((do
      let resolved ← x
      modify ((id, resolved) :: ·)
      return resolved : ResolveM Value) m) = outcome (x m) := by
  change outcome (EStateM.bind x _ m) = _
  unfold EStateM.bind
  cases x m <;> rfl

end Resolve

end Pipework
