import Pipework.Proofs.Forest
import Pipework.Proofs.Step

/-!
# What is remembered of values

Resolving a value only adds to what is remembered. What is remembered of a scope is what its
value comes to when its references are answered from memory, provided that they lead to values
beside it. Such references lead to the same place however many scopes are added elsewhere, so
that this also holds of what was remembered before a scope was added.
-/

namespace Pipework

open Step

namespace Resolve

/-- References answered by a function that nothing has to be remembered for. -/
def answering (answer : List String → Except ScopeError Value) : List String → ResolveM Value :=
  fun path => ResolveM.ofExcept (answer path)

/-- What a value comes to when references are answered by a function. -/
def valueWith (answer : List String → Except ScopeError Value) (raw : Value) :
    Except ScopeError Value :=
  match value (answering answer) raw [] with
  | .ok v _ => .ok v
  | .error e _ => .error e

/-- What is remembered of a scope stays. -/
def Recalls (m m' : Memo) : Prop := ∀ id v, m.lookup id = some v → m'.lookup id = some v

/-- A result that was found elsewhere is given back, and nothing is remembered. -/
theorem ofExcept_eq_ok {α : Type} {x : Except ScopeError α} {a : α} {m m' : Memo} :
    ResolveM.ofExcept x m = .ok a m' ↔ x = .ok a ∧ m = m' := by
  cases x with
  | ok b => exact pure_eq_ok.trans (by simp)
  | error e => exact iff_of_false throw_ne_ok (by simp)

theorem moves_ofExcept {R : Memo → Memo → Prop} [Std.Refl R] {α : Type}
    (x : Except ScopeError α) : Moves R (ResolveM.ofExcept x) := by
  cases x with
  | ok a => exact .pure a
  | error e => exact .throw e

/-- A template is one reference, or it is put together from what its tokens stand for. -/
theorem evaluate_cases (template : String) :
    (∃ path, Template.tokenize template = [.reference path] ∧
      ∀ deref, evaluate deref template = deref path) ∨
    ∀ deref, evaluate deref template = (do
      let out ← gather deref template none (Template.tokenize template)
      ResolveM.ofExcept (assemble out.1 out.2)) := by
  match htokens : Template.tokenize template with
  | [.reference path] => exact .inl ⟨path, rfl, fun deref => by rw [evaluate, htokens]⟩
  | [] | [.literal _] | .literal _ :: _ :: _ | .reference _ :: _ :: _ =>
    exact .inr fun deref => by rw [evaluate, htokens]

section Following

variable {R : Memo → Memo → Prop} [Std.Refl R] [IsTrans Memo R]
  {deref : List String → ResolveM Value}

/-- Gathering what tokens stand for moves the memory as following their references does. -/
theorem moves_gather {template : String} {tokens : List Token}
    (hd : ∀ path ∈ tokens.filterMap Token.path?, Moves R (deref path)) (width : Option Nat) :
    Moves R (gather deref template width tokens) := by
  induction tokens generalizing width with
  | nil => exact .pure _
  | cons token tokens ih =>
    cases token with
    | literal text =>
      rw [gather]
      exact (ih (by simpa [Token.path?] using hd) width).bind fun _ => .pure _
    | reference path =>
      have hfirst : Moves R (deref path) := hd path (by simp [Token.path?])
      have hrest : ∀ path ∈ tokens.filterMap Token.path?, Moves R (deref path) := fun p hp =>
        hd p (by simp [Token.path?, hp])
      rw [gather]
      exact hfirst.bind fun part => (moves_ofExcept _).bind fun width =>
        (ih hrest width).bind fun _ => .pure _

/-- Evaluating a text moves the memory as following its references does. -/
theorem moves_evaluate {template : String}
    (hd : ∀ path ∈ Template.references template, Moves R (deref path)) :
    Moves R (evaluate deref template) := by
  rw [Template.references] at hd
  rcases evaluate_cases template with ⟨path, htokens, heq⟩ | heq
  · rw [heq]
    exact hd path (by simp [htokens, Token.path?])
  · rw [heq]
    exact (moves_gather hd none).bind fun _ => moves_ofExcept _

mutual

/-- Resolving a value moves the memory as following its references does. -/
theorem moves_value : ∀ raw : Value, (∀ path ∈ raw.references, Moves R (deref path)) →
    Moves R (value deref raw)
  | .str text, hd => by
    rw [value]
    split
    · exact moves_evaluate hd
    · exact .pure _
  | .list items, hd => by
    rw [value]
    exact (moves_values items hd).bind fun _ => .pure _
  | .bool _, _ | .int _, _ | .float _, _ => .pure _

/-- Resolving values one by one moves the memory as following their references does. -/
theorem moves_values : ∀ items : List Value,
    (∀ path ∈ Value.allReferences items, Moves R (deref path)) → Moves R (values deref items)
  | [], _ => .pure _
  | item :: items, hd => by
    rw [values]
    rw [Value.allReferences] at hd
    exact (moves_value item fun p hp => hd p (List.mem_append_left _ hp)).bind fun _ =>
      (moves_values items fun p hp => hd p (List.mem_append_right _ hp)).bind fun _ => .pure _

end

variable {answer : Memo → List String → Except ScopeError Value}

/-- The answers that a reference was given stand in every memory that grows from there. -/
def Answered (deref : List String → ResolveM Value)
    (answer : Memo → List String → Except ScopeError Value) (path : List String) : Prop :=
  ∀ m w m', deref path m = .ok w m' → ∀ last, Recalls m' last → answer last path = .ok w

variable (hR : ∀ m m', R m m' → Recalls m m')

include hR

/-- What tokens stood for is what they stand for with the answers that are remembered in the end. -/
theorem gather_answered {template : String} {tokens : List Token}
    (hd : ∀ path ∈ tokens.filterMap Token.path?, Moves R (deref path) ∧
      Answered deref answer path) {width : Option Nat} {m m' : Memo}
    {out : List Value × Option Nat} (h : gather deref template width tokens m = .ok out m')
    {last : Memo} (hlast : Recalls m' last) (m₀ : Memo) :
    gather (answering (answer last)) template width tokens m₀ = .ok out m₀ := by
  induction tokens generalizing width m m' out with
  | nil =>
    obtain ⟨rfl, -⟩ := pure_eq_ok.mp h
    rfl
  | cons token tokens ih =>
    cases token with
    | literal text =>
      rw [gather] at h ⊢
      obtain ⟨rest, _, hrest, h⟩ := bind_eq_ok.mp h
      obtain ⟨rfl, rfl⟩ := pure_eq_ok.mp h
      refine bind_eq_ok.mpr ⟨rest, m₀, ih (by simpa [Token.path?] using hd) hrest hlast, ?_⟩
      exact pure_eq_ok.mpr ⟨rfl, rfl⟩
    | reference path =>
      have hfirst := (hd path (by simp [Token.path?])).2
      have hothers : ∀ path ∈ tokens.filterMap Token.path?, Moves R (deref path) ∧
          Answered deref answer path := fun p hp => hd p (by simp [Token.path?, hp])
      rw [gather] at h ⊢
      obtain ⟨part, m₁, hpart, h⟩ := bind_eq_ok.mp h
      obtain ⟨wider, _, hat, h⟩ := bind_eq_ok.mp h
      obtain ⟨hwider, rfl⟩ := ofExcept_eq_ok.mp hat
      obtain ⟨rest, m₂, hrest, h⟩ := bind_eq_ok.mp h
      obtain ⟨rfl, rfl⟩ := pure_eq_ok.mp h
      have hgrow := hR _ _ ((moves_gather (fun p hp => (hothers p hp).1) wider).of_ok hrest)
      have hanswer := hfirst m part m₁ hpart last fun id v hv => hlast id v (hgrow id v hv)
      refine bind_eq_ok.mpr ⟨part, m₀, ofExcept_eq_ok.mpr ⟨hanswer, rfl⟩, ?_⟩
      refine bind_eq_ok.mpr ⟨wider, m₀, ofExcept_eq_ok.mpr ⟨hwider, rfl⟩, ?_⟩
      exact bind_eq_ok.mpr ⟨rest, m₀, ih hothers hrest hlast, pure_eq_ok.mpr ⟨rfl, rfl⟩⟩

/-- What a text came to is what it comes to with the answers that are remembered in the end. -/
theorem evaluate_answered {template : String}
    (hd : ∀ path ∈ Template.references template, Moves R (deref path) ∧
      Answered deref answer path) {m m' : Memo} {v : Value}
    (h : evaluate deref template m = .ok v m') {last : Memo} (hlast : Recalls m' last)
    (m₀ : Memo) : evaluate (answering (answer last)) template m₀ = .ok v m₀ := by
  rw [Template.references] at hd
  rcases evaluate_cases template with ⟨path, htokens, heq⟩ | heq
  · rw [heq] at h ⊢
    have hanswer := (hd path (by simp [htokens, Token.path?])).2 m v m' h last hlast
    exact ofExcept_eq_ok.mpr ⟨hanswer, rfl⟩
  · rw [heq] at h ⊢
    obtain ⟨out, m₁, hout, h⟩ := bind_eq_ok.mp h
    obtain ⟨hassemble, rfl⟩ := ofExcept_eq_ok.mp h
    refine bind_eq_ok.mpr ⟨out, m₀, gather_answered hR hd hout hlast m₀, ?_⟩
    exact ofExcept_eq_ok.mpr ⟨hassemble, rfl⟩

mutual

/-- What a value resolved to is what it resolves to with the answers that are remembered in the end. -/
theorem value_answered : ∀ raw : Value, (∀ path ∈ raw.references, Moves R (deref path) ∧
      Answered deref answer path) → ∀ {m m' : Memo} {v : Value}, value deref raw m = .ok v m' →
    ∀ {last : Memo}, Recalls m' last → ∀ m₀ : Memo,
      value (answering (answer last)) raw m₀ = .ok v m₀
  | .str text, hd, m, m', v, h, last, hlast, m₀ => by
    rw [value] at h ⊢
    split
    next hrefer =>
      rw [if_pos hrefer] at h
      exact evaluate_answered hR hd h hlast m₀
    next hplain =>
      rw [if_neg hplain] at h
      obtain ⟨rfl, -⟩ := pure_eq_ok.mp h
      rfl
  | .list items, hd, m, m', v, h, last, hlast, m₀ => by
    rw [value] at h ⊢
    obtain ⟨resolved, m₁, hitems, h⟩ := bind_eq_ok.mp h
    obtain ⟨rfl, rfl⟩ := pure_eq_ok.mp h
    refine bind_eq_ok.mpr ⟨resolved, m₀, values_answered items hd hitems hlast m₀, ?_⟩
    exact pure_eq_ok.mpr ⟨rfl, rfl⟩
  | .bool b, _, m, m', v, h, last, _, m₀ | .int b, _, m, m', v, h, last, _, m₀
  | .float b, _, m, m', v, h, last, _, m₀ => by
    obtain ⟨rfl, -⟩ := pure_eq_ok.mp h
    rfl

/-- What values resolved to is what they resolve to with the answers that are remembered in the end. -/
theorem values_answered : ∀ items : List Value, (∀ path ∈ Value.allReferences items,
      Moves R (deref path) ∧ Answered deref answer path) → ∀ {m m' : Memo} {vs : List Value},
    values deref items m = .ok vs m' → ∀ {last : Memo}, Recalls m' last → ∀ m₀ : Memo,
      values (answering (answer last)) items m₀ = .ok vs m₀
  | [], _, m, m', vs, h, last, _, m₀ => by
    obtain ⟨rfl, -⟩ := pure_eq_ok.mp h
    rfl
  | item :: items, hd, m, m', vs, h, last, hlast, m₀ => by
    rw [Value.allReferences] at hd
    have hfirst := fun p hp => hd p (List.mem_append_left _ hp)
    have hrest := fun p hp => hd p (List.mem_append_right _ hp)
    rw [values] at h ⊢
    obtain ⟨resolved, m₁, hitem, h⟩ := bind_eq_ok.mp h
    obtain ⟨others, m₂, hitems, h⟩ := bind_eq_ok.mp h
    obtain ⟨rfl, rfl⟩ := pure_eq_ok.mp h
    have hgrow := hR _ _ ((moves_values items fun p hp => (hrest p hp).1).of_ok hitems)
    refine bind_eq_ok.mpr ⟨resolved, m₀, ?_, ?_⟩
    · exact value_answered item hfirst hitem (fun id v hv => hlast id v (hgrow id v hv)) m₀
    · refine bind_eq_ok.mpr ⟨others, m₀, values_answered items hrest hitems hlast m₀, ?_⟩
      exact pure_eq_ok.mpr ⟨rfl, rfl⟩

end

end Following

section Answering

variable {answer answer' : List String → Except ScopeError Value} {raw v : Value}

/-- With more answers a value resolves to the same. -/
theorem value_answering_mono
    (h : ∀ path ∈ raw.references, ∀ w, answer path = .ok w → answer' path = .ok w) {m m' : Memo}
    (hv : value (answering answer) raw m = .ok v m') (m₀ : Memo) :
    value (answering answer') raw m₀ = .ok v m₀ := by
  have hd : ∀ path ∈ raw.references, Moves Eq (answering answer path) ∧
      Answered (answering answer) (fun _ => answer') path := by
    intro path hp
    refine ⟨moves_ofExcept _, fun m w m' hw last _ => h path hp w ?_⟩
    exact (ofExcept_eq_ok.mp hw).1
  have hsame : ∀ m m' : Memo, m = m' → Recalls m m' := by
    rintro m _ rfl id v hv
    exact hv
  exact value_answered hsame raw hd hv (fun id v hv => hv) m₀

/-- A value comes to what it resolves to with given answers, whatever is remembered. -/
theorem valueWith_eq_ok :
    valueWith answer raw = .ok v ↔ ∀ m, value (answering answer) raw m = .ok v m := by
  rw [valueWith]
  constructor
  · intro h m
    cases hv : value (answering answer) raw [] with
    | error e m' => simp [hv] at h
    | ok w m' =>
      obtain rfl : w = v := by simpa [hv] using h
      exact value_answering_mono (fun _ _ _ hw => hw) hv m
  · intro h
    rw [h []]

/-- More answers do not change what a value comes to. -/
theorem valueWith_mono
    (h : ∀ path ∈ raw.references, ∀ w, answer path = .ok w → answer' path = .ok w)
    (hv : valueWith answer raw = .ok v) : valueWith answer' raw = .ok v :=
  valueWith_eq_ok.mpr (value_answering_mono h (valueWith_eq_ok.mp hv []))

end Answering

/-- The answer to a reference in a scope, from memory. -/
def fromMemory (f : Forest) (m : Memo) (start : ScopeId) (path : List String) :
    Except ScopeError Value :=
  match f.lookup? start path with
  | none => .error (.unresolvedReference (joinPath path))
  | some (id, consumed) =>
    match m.lookup id with
    | some v => FileField.derive v (path.drop consumed) (joinPath path)
    | none => .error (.unresolvedReference (joinPath path))

/-- A reference that is answered from memory leads to a scope that something is remembered of, and asks
for a part of that. -/
theorem fromMemory_eq_ok {f : Forest} {m : Memo} {start : ScopeId} {path : List String} {w : Value} :
    fromMemory f m start path = .ok w ↔ ∃ id consumed v, f.lookup? start path = some (id, consumed) ∧
      m.lookup id = some v ∧ FileField.derive v (path.drop consumed) (joinPath path) = .ok w := by
  rw [fromMemory]
  cases f.lookup? start path with
  | none => simp
  | some found =>
    cases hv : m.lookup found.1 with
    | none => simp [hv, Prod.ext_iff]
    | some v => simp [hv, Prod.ext_iff]

/-- A reference is answered with what is remembered where it leads. -/
theorem exists_lookup_of_fromMemory {f : Forest} {m : Memo} {start id : ScopeId} {path : List String}
    {consumed : Nat} {w : Value} (hlookup : f.lookup? start path = some (id, consumed))
    (hw : fromMemory f m start path = .ok w) : ∃ v, m.lookup id = some v ∧
      FileField.derive v (path.drop consumed) (joinPath path) = .ok w := by
  obtain ⟨other, count, v, hother, hv, hderive⟩ := fromMemory_eq_ok.mp hw
  obtain ⟨rfl, rfl⟩ := Prod.mk.inj (Option.some.inj (hlookup.symm.trans hother))
  exact ⟨v, hv, hderive⟩

/-- All references in the value of a scope lead to values of keys beside it or in scopes of
the root. -/
def Near (f : Forest) (id : ScopeId) (raw : Value) : Prop :=
  ∃ parent, f.parent? id = some parent ∧ ∀ path ∈ raw.references, ∃ leaf consumed,
    f.Beside parent path leaf consumed ∧ (f.raw? leaf).isSome

/-- What is remembered of scopes with near references follows from what is remembered of
others. -/
def Consistent (f : Forest) (m : Memo) : Prop :=
  ∀ id v raw, m.lookup id = some v → f.raw? id = some raw → Near f id raw →
    valueWith (fromMemory f m ((f.parent? id).getD id)) raw = .ok v

/-- What the value of a scope means: what it comes to when its references are answered by what the
values of others mean. -/
inductive Means (f : Forest) : ScopeId → Value → Prop
  | intro {id : ScopeId} {raw v : Value} {m : Memo} (hraw : f.raw? id = some raw)
      (hm : ∀ other u, m.lookup other = some u → Means f other u)
      (hv : valueWith (fromMemory f m ((f.parent? id).getD id)) raw = .ok v) : Means f id v

/-- What is remembered of scopes is what their values mean. -/
def Truthful (f : Forest) (m : Memo) : Prop := ∀ id v, m.lookup id = some v → Means f id v

/-- What a value means may be remembered of it. -/
theorem Truthful.cons {f : Forest} {m : Memo} (h : Truthful f m) {id : ScopeId} {v : Value}
    (hv : Means f id v) : Truthful f ((id, v) :: m) := by
  intro other w hw
  rw [List.lookup_cons] at hw
  split at hw
  next heq =>
    obtain rfl := Option.some.inj hw
    rwa [eq_of_beq heq]
  next => exact h other w hw

/-- What is remembered of a scope came out with some answers to its references, and the answers to
those that lead to values are still the ones that were remembered before. -/
def Backed (f : Forest) : Memo → Prop
  | [] => True
  | (id, v) :: earlier => Backed f earlier ∧ ∃ raw answer, f.raw? id = some raw ∧
      valueWith answer raw = .ok v ∧ ∀ path ∈ raw.references, ∀ other consumed,
        f.lookup? ((f.parent? id).getD id) path = some (other, consumed) →
          (f.raw? other).isSome → answer path = fromMemory f earlier ((f.parent? id).getD id) path

/-- Parts of values have the property if these do, and values in scopes come to something that has
it if all answers to their references do. -/
structure Inherited (f : Forest) (P : Value → Prop) : Prop where
  /-- It passes to parts. -/
  derive : ∀ v w segments reference, P v → FileField.derive v segments reference = .ok w → P w
  /-- It passes from answers to what is made of them. -/
  value : ∀ id raw v answer, f.raw? id = some raw → (∀ path w, answer path = .ok w → P w) →
    valueWith answer raw = .ok v → P v

/-- What a resolution may do to the memory while some scopes are visited. -/
structure Learns (f : Forest) (visiting : List ScopeId) (m m' : Memo) : Prop where
  /-- What is remembered stays. -/
  recalls : Recalls m m'
  /-- Nothing is remembered of the scopes being visited. -/
  apart : ∀ id ∈ visiting, m'.lookup id = m.lookup id
  /-- It all goes together. -/
  consistent : Consistent f m → Consistent f m'
  /-- It is true. -/
  truthful : Truthful f m → Truthful f m'
  /-- It comes from what was remembered before. -/
  backed : Backed f m → Backed f m'
  /-- It has what is inherited. -/
  inherits : ∀ P, Inherited f P → (∀ id v, m.lookup id = some v → P v) →
    ∀ id v, m'.lookup id = some v → P v

/-- What stays remembered twice stays remembered. -/
theorem Recalls.trans {m m' m'' : Memo} (h : Recalls m m') (h' : Recalls m' m'') :
    Recalls m m'' := fun id v hv => h' id v (h id v hv)

instance (f : Forest) (visiting : List ScopeId) : Std.Refl (Learns f visiting) :=
  ⟨fun _ => ⟨fun _ _ h => h, fun _ _ => rfl, id, id, id, fun _ _ => id⟩⟩

instance (f : Forest) (visiting : List ScopeId) : IsTrans Memo (Learns f visiting) :=
  ⟨fun _ _ _ h h' => ⟨h.recalls.trans h'.recalls,
    fun id hid => (h'.apart id hid).trans (h.apart id hid),
    fun hc => h'.consistent (h.consistent hc), fun ht => h'.truthful (h.truthful ht),
    fun hb => h'.backed (h.backed hb), fun P hP hm => h'.inherits P hP (h.inherits P hP hm)⟩⟩

/-- What is learned while some scopes are visited could be learned while fewer of them are. -/
theorem Learns.fewer {f : Forest} {visiting fewer : List ScopeId} {m m' : Memo}
    (h : Learns f visiting m m') (hs : fewer ⊆ visiting) : Learns f fewer m m' :=
  ⟨h.recalls, fun id hid => h.apart id (hs hid), h.consistent, h.truthful, h.backed, h.inherits⟩

/-- With more remembered a reference is answered as before. -/
theorem fromMemory_mono {f : Forest} {m m' : Memo} (h : Recalls m m') {start : ScopeId}
    {path : List String} {w : Value} (hw : fromMemory f m start path = .ok w) :
    fromMemory f m' start path = .ok w := by
  obtain ⟨id, consumed, v, hlookup, hv, hderive⟩ := fromMemory_eq_ok.mp hw
  exact fromMemory_eq_ok.mpr ⟨id, consumed, v, hlookup, h id v hv, hderive⟩

/-- A new memory of a scope whose value was resolved with the references answered alike. -/
theorem learns_cons {f : Forest} {visiting : List ScopeId} {id : ScopeId} {m m' : Memo}
    {raw v : Value} (h : Learns f (id :: visiting) m m') (hnone : m.lookup id = none)
    (hid : id ∉ visiting) (hraw : f.raw? id = some raw)
    (hv : ∀ last, Recalls m' last →
      valueWith (fromMemory f last ((f.parent? id).getD id)) raw = .ok v) :
    Learns f visiting m ((id, v) :: m') := by
  have hfree : m'.lookup id = none := (h.apart id (by simp)).trans hnone
  have hother : ∀ other, other ≠ id → ((id, v) :: m').lookup other = m'.lookup other :=
    fun other ho => by rw [List.lookup_cons, beq_false_of_ne ho]
  have hself : ((id, v) :: m').lookup id = some v := List.lookup_cons_self
  have hgrow : Recalls m' ((id, v) :: m') := by
    intro other w hw
    have hne : other ≠ id := fun heq => by simp [heq, hfree] at hw
    rw [hother other hne, hw]
  refine ⟨h.recalls.trans hgrow, fun other ho => ?_, fun hc other w rawOther hw hro hnear => ?_,
    fun ht => (h.truthful ht).cons (.intro hraw (h.truthful ht) (hv m' fun _ _ h => h)),
    fun hb => ⟨h.backed hb, raw, _, hraw, hv m' fun _ _ h => h, fun _ _ _ _ _ _ => rfl⟩,
    fun P hP hm other w hw => ?_⟩
  · rw [hother other fun heq => hid (heq ▸ ho)]
    exact h.apart other (List.mem_cons_of_mem _ ho)
  · by_cases heq : other = id
    · subst heq
      obtain rfl := Option.some.inj (hself.symm.trans hw)
      obtain rfl := Option.some.inj (hraw.symm.trans hro)
      exact hv _ hgrow
    · rw [hother other heq] at hw
      refine valueWith_mono (fun path _ w' hw' => fromMemory_mono hgrow hw') ?_
      exact h.consistent hc other w rawOther hw hro hnear
  · have hknown := h.inherits P hP hm
    by_cases heq : other = id
    · obtain rfl := Option.some.inj (hself.symm.trans (heq ▸ hw))
      refine hP.value id raw v _ hraw (fun path u hu => ?_) (hv m' fun _ _ h => h)
      obtain ⟨known, consumed, x, -, hx, hderive⟩ := fromMemory_eq_ok.mp hu
      exact hP.derive x u _ _ (hknown known x hx) hderive
    · exact hknown other w (hother other heq ▸ hw)

/-- A reference is answered with what is remembered of the scope it leads to. -/
theorem follow_eq_ok {f : Forest} {start : ScopeId}
    {scopeValue : ScopeId → String → ResolveM Value} {path : List String} {w : Value}
    {m m' : Memo} (h : follow f start scopeValue path m = .ok w m') :
    ∃ id consumed v, f.lookup? start path = some (id, consumed) ∧
      scopeValue id (joinPath path) m = .ok v m' ∧
      FileField.derive v (path.drop consumed) (joinPath path) = .ok w := by
  rw [follow] at h
  cases hlookup : f.lookup? start path with
  | none =>
    simp only [hlookup] at h
    exact absurd h throw_ne_ok
  | some found =>
    simp only [hlookup] at h
    obtain ⟨v, _, hv, h⟩ := bind_eq_ok.mp h
    obtain ⟨hderive, rfl⟩ := ofExcept_eq_ok.mp h
    exact ⟨found.1, found.2, v, rfl, hv, hderive⟩

/-- Following a reference moves the memory as resolving the scope where it leads does. -/
theorem moves_follow {R : Memo → Memo → Prop} [Std.Refl R] [IsTrans Memo R] {f : Forest}
    {start : ScopeId} {scopeValue : ScopeId → String → ResolveM Value}
    (h : ∀ id reference, Moves R (scopeValue id reference)) (path : List String) :
    Moves R (follow f start scopeValue path) := by
  rw [follow]
  cases f.lookup? start path with
  | none => exact .throw _
  | some found => exact (h _ _).bind fun _ => moves_ofExcept _

/-- What is done for a scope that nothing is remembered of. -/
theorem learns_of_inner {f : Forest} {visiting : List ScopeId} {id : ScopeId} {raw : Value}
    {inner : ResolveM Value} {m : Memo} (hinner : Moves (Learns f (id :: visiting)) inner)
    (hnone : m.lookup id = none) (hid : id ∉ visiting) (hraw : f.raw? id = some raw)
    (hv : ∀ v m', inner m = .ok v m' → ∀ last, Recalls m' last →
      valueWith (fromMemory f last ((f.parent? id).getD id)) raw = .ok v) :
    Learns f visiting m (left ((do
      let resolved ← inner
      modify ((id, resolved) :: ·)
      return resolved : ResolveM Value) m)) := by
  have hstart := hinner m
  change Learns f visiting m (left (EStateM.bind inner _ m))
  unfold EStateM.bind
  cases h : inner m with
  | error e m' =>
    rw [h] at hstart
    exact hstart.fewer (List.subset_cons_self id visiting)
  | ok v m' =>
    rw [h] at hstart
    exact learns_cons hstart hnone hid hraw (hv v m' h)

/-- Following references while a scope is visited, each answer is what is remembered from then on. -/
theorem answered_follow {f : Forest} {start : ScopeId}
    {scopeValue : ScopeId → String → ResolveM Value}
    (h : ∀ id reference m v m', scopeValue id reference m = .ok v m' → m'.lookup id = some v)
    (path : List String) :
    Answered (follow f start scopeValue) (fun last => fromMemory f last start) path := by
  intro m w m' hw last hlast
  obtain ⟨id, consumed, v, hlookup, hv, hderive⟩ := follow_eq_ok hw
  exact fromMemory_eq_ok.mpr ⟨id, consumed, v, hlookup, hlast id v (h id _ m v m' hv), hderive⟩

/-- The value of a scope is looked up in memory, and else found out and remembered. -/
theorem scopeValueWithin_eq (f : Forest) (depth : Nat) (visiting : List ScopeId) (id : ScopeId)
    (reference : String) (m : Memo) : scopeValueWithin f depth visiting id reference m =
    match f.raw? id, m.lookup id with
    | none, _ => .error (.notAValue reference) m
    | some _, some v => .ok v m
    | some raw, none =>
      if id ∈ visiting then .error (.selfReference reference) m
      else match depth with
        | 0 => .error .dangling m
        | depth + 1 => (do
          let resolved ← value (follow f ((f.parent? id).getD id)
            (scopeValueWithin f depth (id :: visiting))) raw
          modify ((id, resolved) :: ·)
          return resolved : ResolveM Value) m := by
  cases depth with
  | zero =>
    rw [scopeValueWithin]
    cases f.raw? id with
    | none => rfl
    | some raw =>
      change (match m.lookup id with | some v => pure v | none => _ : ResolveM Value) m = _
      cases m.lookup id with
      | some v => rfl
      | none =>
        by_cases hid : id ∈ visiting
        · simp only [hid, if_true]
          rfl
        · simp only [hid, if_false]
          rfl
  | succ depth =>
    rw [scopeValueWithin]
    cases f.raw? id with
    | none => rfl
    | some raw =>
      change (match m.lookup id with | some v => pure v | none => _ : ResolveM Value) m = _
      cases m.lookup id with
      | some v => rfl
      | none =>
        by_cases hid : id ∈ visiting
        · simp only [hid, if_true]
          rfl
        · simp only [hid, if_false]

/-- Resolving the value of a scope adds to what is remembered, and what comes out is remembered
of that scope. -/
theorem scopeValueWithin_spec (f : Forest) (depth : Nat) (visiting : List ScopeId) (id : ScopeId)
    (reference : String) (m : Memo) :
    Learns f visiting m (left (scopeValueWithin f depth visiting id reference m)) ∧
      ∀ v m', scopeValueWithin f depth visiting id reference m = .ok v m' →
        m'.lookup id = some v := by
  induction depth using Nat.strongRecOn generalizing visiting id reference m with
  | ind depth ih =>
    rw [scopeValueWithin_eq]
    match hraw : f.raw? id, hmemo : m.lookup id with
    | none, _ => exact ⟨refl_of _ m, by simp⟩
    | some _, some known =>
      refine ⟨refl_of _ m, fun v m' h => ?_⟩
      cases h
      exact hmemo
    | some raw, none =>
      dsimp only
      split
      next => exact ⟨refl_of _ m, by simp⟩
      next hid =>
        cases depth with
        | zero => exact ⟨refl_of _ m, by simp⟩
        | succ depth =>
          -- The references are followed with one more scope being visited.
          have hdeeper := ih depth (Nat.lt_succ_self depth) (id :: visiting)
          have hmoves : ∀ path, Moves (Learns f (id :: visiting)) (follow f ((f.parent? id).getD id)
              (scopeValueWithin f depth (id :: visiting)) path) :=
            moves_follow fun other reference m => (hdeeper other reference m).1
          have hanswered := @answered_follow f ((f.parent? id).getD id) _
            fun other reference m v m' h => (hdeeper other reference m).2 v m' h
          refine ⟨learns_of_inner (moves_value raw fun path _ => hmoves path) hmemo hid hraw ?_, ?_⟩
          · intro v m' hv last hlast
            refine valueWith_eq_ok.mpr fun m₀ => ?_
            exact value_answered (fun _ _ h => h.recalls) raw
              (fun path _ => ⟨hmoves path, hanswered path⟩) hv hlast m₀
          · intro v m' h
            obtain ⟨w, m₁, hv, h⟩ := bind_eq_ok.mp h
            obtain ⟨_, _, hmodify, h⟩ := bind_eq_ok.mp h
            obtain rfl := modify_eq_ok.mp hmodify
            obtain ⟨rfl, rfl⟩ := pure_eq_ok.mp h
            exact List.lookup_cons_self

/-- Resolving a scope adds to what is remembered and nothing else. -/
theorem moves_scopeValue (f : Forest) (id : ScopeId) (reference : String) :
    Moves (Learns f []) (scopeValue f id reference) := fun m =>
  (scopeValueWithin_spec f f.size [] id reference m).1

/-- The value of a scope that comes out is remembered. -/
theorem lookup_of_scopeValue {f : Forest} {id : ScopeId} {reference : String} {m m' : Memo}
    {v : Value} (h : scopeValue f id reference m = .ok v m') : m'.lookup id = some v :=
  (scopeValueWithin_spec f f.size [] id reference m).2 v m' h

/-- The value of a scope that is remembered comes out. -/
theorem scopeValue_of_lookup {f : Forest} {id : ScopeId} {m : Memo} {v : Value}
    (hraw : (f.raw? id).isSome) (hv : m.lookup id = some v) (reference : String) :
    scopeValue f id reference m = .ok v m := by
  obtain ⟨raw, hraw⟩ := Option.isSome_iff_exists.mp hraw
  rw [scopeValue, scopeValueWithin_eq, hraw, hv]

/-- A new scope in the root leads no reference astray that leads to a value now. -/
theorem Consistent.addChild {f : Forest} {m : Memo} (h : Consistent f m) (hf : f.Sound)
    (hp : Forest.root < f.size) (hempty : f.raw? Forest.root = none) {name : String}
    (hfresh : f.child? Forest.root name = none) :
    Consistent (f.addChild Forest.root name) m := by
  intro id v raw hv hraw hnear
  have hsound : (f.addChild Forest.root name).Sound := hf.addChild hp name (.inl rfl) hempty
  rw [Forest.raw?_addChild hp] at hraw
  have hold : id < f.size := Forest.lt_size_of_raw? (Option.isSome_of_eq_some hraw)
  obtain ⟨parent, hparent, hpaths⟩ := hnear
  rw [Forest.parent?_addChild hp, if_neg (Nat.ne_of_lt hold)] at hparent ⊢
  have hstart : parent < f.size := (hf.older id parent hparent).trans hold
  have hbefore : ∀ path ∈ raw.references, ∃ leaf consumed,
      (f.addChild Forest.root name).Beside parent path leaf consumed ∧
        f.Beside parent path leaf consumed ∧ (f.raw? leaf).isSome := by
    intro path hpath
    obtain ⟨leaf, consumed, hbeside, hleaf⟩ := hpaths path hpath
    rw [Forest.raw?_addChild hp] at hleaf
    exact ⟨leaf, consumed, hbeside, hbeside.of_addChild hf hp hfresh hstart hleaf, hleaf⟩
  have hnear : Near f id raw := by
    refine ⟨parent, hparent, fun path hpath => ?_⟩
    obtain ⟨leaf, consumed, -, hbeside, hleaf⟩ := hbefore path hpath
    exact ⟨leaf, consumed, hbeside, hleaf⟩
  refine valueWith_mono (fun path hpath w hw => ?_) (h id v raw hv hraw hnear)
  obtain ⟨leaf, consumed, hnow, hbeside, hleaf⟩ := hbefore path hpath
  have hnowLeaf : ((f.addChild Forest.root name).raw? leaf).isSome := by
    rwa [Forest.raw?_addChild hp]
  rw [hparent, Option.getD_some] at hw ⊢
  obtain ⟨v, hv, hderive⟩ := exists_lookup_of_fromMemory (hbeside.lookup? hf hleaf) hw
  exact fromMemory_eq_ok.mpr ⟨leaf, consumed, v, hnow.lookup? hsound hnowLeaf, hv, hderive⟩

end Resolve

end Pipework
