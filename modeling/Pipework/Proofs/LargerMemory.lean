import Pipework.Proofs.Answers

/-!
# What has been found out does not show

Resolving adds to what is remembered. What it adds follows from what was remembered before, whether or
not that is what values mean by now, and so whatever is resolved afterwards comes to the same, or fails
for the same, as if it had been the first.
-/

namespace Pipework

open Step Resolve Relation

namespace Resolve

/-- What the value of a scope comes to for one who remembers so much: what is remembered of it, or else
what comes out when its references are answered by what the values of others come to. -/
inductive Yields (f : Forest) (m : Memo) : ScopeId → Value → Prop
  | recalled {id : ScopeId} {raw v : Value} (hraw : f.raw? id = some raw) (hv : m.lookup id = some v) :
      Yields f m id v
  | found {id : ScopeId} {raw v : Value} {known : Memo} (hfree : m.lookup id = none)
      (hraw : f.raw? id = some raw) (hknown : ∀ other u, known.lookup other = some u → Yields f m other u)
      (hv : valueWith (fromMemory f known ((f.parent? id).getD id)) raw = .ok v) : Yields f m id v

/-- The value of a scope that nothing is remembered of refers to that of another. -/
def Inquires (f : Forest) (m : Memo) (id other : ScopeId) : Prop :=
  m.lookup id = none ∧ f.Refers id other

/-- All that was remembered still is, and what is remembered is what values come to, if these come to
anything. -/
structure Faithful (f : Forest) (m now : Memo) : Prop where
  /-- Nothing is lost. -/
  recalls : Recalls m now
  /-- What was added is right. -/
  agrees : ∀ id v w, now.lookup id = some v → Yields f m id w → v = w

/-- All that was remembered still is, and what is remembered of values is what they come to. -/
structure Recollects (f : Forest) (m now : Memo) : Prop where
  /-- Nothing is lost. -/
  recalls : Recalls m now
  /-- What was added follows. -/
  yields : ∀ id v, now.lookup id = some v → (f.raw? id).isSome → Yields f m id v

section Yields

variable {f : Forest} {m : Memo}

/-- What yields something is the value of a scope. -/
theorem Yields.isSome_raw? {id : ScopeId} {v : Value} (h : Yields f m id v) : (f.raw? id).isSome := by
  cases h with
  | recalled hraw _ => exact Option.isSome_of_eq_some hraw
  | found _ hraw _ _ => exact Option.isSome_of_eq_some hraw

/-- A value comes to one thing. -/
theorem Yields.unique {id : ScopeId} {v w : Value} (h : Yields f m id v) (h' : Yields f m id w) :
    v = w := by
  induction h generalizing w with
  | recalled _ hv =>
    cases h' with
    | recalled _ hw => exact Option.some.inj (hv.symm.trans hw)
    | found hfree _ _ _ =>
      rw [hfree] at hv
      cases hv
  | found hfree hraw _ hv ih =>
    cases h' with
    | recalled _ hw =>
      rw [hfree] at hw
      cases hw
    | found _ hraw' hknown' hw =>
      obtain rfl := Option.some.inj (hraw.symm.trans hraw')
      refine valueWith_unique (fun path _ a b ha hb => ?_) hv hw
      exact Graph.fromMemory_unique (refl_of Forest.Alike f) ha hb fun leaf _ _ x y hx hy =>
        (ih leaf x hx (hknown' leaf y hy)).symm

/-- A value that comes to something is not referred back to by those it has to ask for it. -/
theorem Yields.not_transGen {id : ScopeId} {v : Value} (h : Yields f m id v) :
    ¬ TransGen (Inquires f m) id id := by
  induction h with
  | recalled _ hv =>
    intro hcircle
    obtain ⟨other, ⟨hfree, -⟩, -⟩ := TransGen.head'_iff.mp hcircle
    rw [hfree] at hv
    cases hv
  | @found id raw _ _ hfree hraw _ hv ih =>
    intro hcircle
    obtain ⟨other, ⟨-, hrefers⟩, hback⟩ := TransGen.head'_iff.mp hcircle
    obtain ⟨_, path, consumed, hheld, hpath, hlookup⟩ := hrefers
    obtain rfl := Option.some.inj (hraw.symm.trans hheld)
    obtain ⟨w, hw⟩ := exists_answer hv hpath
    obtain ⟨u, hu, -⟩ := exists_lookup_of_fromMemory hlookup hw
    exact ih other u hu (.tail' hback ⟨hfree, raw, path, consumed, hraw, hpath, hlookup⟩)

/-- What a scope yields may be remembered of it. -/
theorem Faithful.cons {now : Memo} (h : Faithful f m now) {id : ScopeId} {v : Value}
    (hv : Yields f m id v) : Faithful f m ((id, v) :: now) := by
  have hraw := hv.isSome_raw?
  constructor
  · intro other w hw
    rw [List.lookup_cons]
    split
    next heq =>
      obtain rfl := eq_of_beq heq
      obtain ⟨raw, hraw⟩ := Option.isSome_iff_exists.mp hraw
      rw [hv.unique (.recalled hraw hw)]
    next => exact h.recalls other w hw
  · intro other u w hu hw
    rw [List.lookup_cons] at hu
    split at hu
    next heq =>
      obtain rfl := Option.some.inj hu
      exact hv.unique (eq_of_beq heq ▸ hw)
    next => exact h.agrees other u w hu hw

/-- What follows from what was remembered before is faithful to it. -/
theorem Recollects.faithful {now : Memo} (h : Recollects f m now) : Faithful f m now :=
  ⟨h.recalls, fun id v _ hv hw => (h.yields id v hv hw.isSome_raw?).unique hw⟩

/-- So it is at first. -/
theorem Recollects.refl (f : Forest) (m : Memo) : Recollects f m m := by
  refine ⟨fun _ _ h => h, fun id v hv hraw => ?_⟩
  obtain ⟨raw, hraw⟩ := Option.isSome_iff_exists.mp hraw
  exact .recalled hraw hv

end Yields

/-- There are no more different scopes than there are scopes. -/
theorem length_le_of_nodup {f : Forest} {scopes : List ScopeId} (hnodup : scopes.Nodup)
    (hlt : ∀ a ∈ scopes, a < f.size) : scopes.length ≤ f.size := by
  have hsub : scopes ⊆ List.range f.size := fun a ha => List.mem_range.mpr (hlt a ha)
  simpa using (List.subperm_of_subset hnodup hsub).length_le

/-- While a scope is visited that asks for them, values resolve to what they come to, as long as only
those are visited that ask for them in turn. -/
theorem scopeValueWithin_of_yields {f : Forest} {m : Memo} {id : ScopeId} {v : Value}
    (h : Yields f m id v) {depth : Nat} {visiting : List ScopeId}
    (hdepth : f.size = depth + visiting.length) (hnodup : visiting.Nodup)
    (hvisiting : ∀ a ∈ visiting, a < f.size ∧ TransGen (Inquires f m) a id) (reference : String)
    {now : Memo} (hnow : Faithful f m now) :
    ∃ m', scopeValueWithin f depth visiting id reference now = .ok v m' ∧ Faithful f m m' := by
  induction h generalizing depth visiting reference now with
  | @recalled id raw v hraw hv =>
    rw [scopeValueWithin_eq, hraw, hnow.recalls id v hv]
    exact ⟨now, rfl, hnow⟩
  | @found id raw v known hfree hraw hknown hv ih =>
    have hyields : Yields f m id v := .found hfree hraw hknown hv
    rw [scopeValueWithin_eq, hraw]
    cases hmemo : now.lookup id with
    | some w =>
      obtain rfl := hnow.agrees id w v hmemo hyields
      exact ⟨now, rfl, hnow⟩
    | none =>
      have hid : id ∉ visiting := fun hin => hyields.not_transGen (hvisiting id hin).2
      have hlt : id < f.size := Forest.lt_size_of_raw? (Option.isSome_of_eq_some hraw)
      have hdeeper : (id :: visiting).Nodup := List.nodup_cons.mpr ⟨hid, hnodup⟩
      have hroom : (id :: visiting).length ≤ f.size := by
        refine length_le_of_nodup hdeeper fun a ha => ?_
        rcases List.mem_cons.mp ha with rfl | ha
        · exact hlt
        · exact (hvisiting a ha).1
      rw [List.length_cons] at hroom
      simp only [if_neg hid]
      cases depth with
      | zero => omega
      | succ depth =>
        have hless : f.size = depth + (id :: visiting).length := by
          rw [List.length_cons]
          omega
        have hserves : ∀ path ∈ raw.references, Serves (Faithful f m)
            (follow f ((f.parent? id).getD id) (scopeValueWithin f depth (id :: visiting)))
            (fromMemory f known ((f.parent? id).getD id)) path := by
          intro path hpath w hw now hnow
          obtain ⟨other, consumed, u, hlookup, hu, hderive⟩ := fromMemory_eq_ok.mp hw
          have hinquires : Inquires f m id other := ⟨hfree, raw, path, consumed, hraw, hpath, hlookup⟩
          have hbefore : ∀ a ∈ id :: visiting, a < f.size ∧ TransGen (Inquires f m) a other := by
            intro a ha
            rcases List.mem_cons.mp ha with rfl | ha
            · exact ⟨hlt, .single hinquires⟩
            · exact ⟨(hvisiting a ha).1, (hvisiting a ha).2.tail hinquires⟩
          obtain ⟨m', hother, hm'⟩ := ih other u hu hless hdeeper hbefore (joinPath path) hnow
          refine ⟨m', ?_, hm'⟩
          rw [follow, hlookup]
          exact bind_eq_ok.mpr ⟨u, m', hother, ofExcept_eq_ok.mpr ⟨hderive, rfl⟩⟩
        obtain ⟨m', hvalue, hm'⟩ := value_served raw hserves (valueWith_eq_ok.mp hv []) hnow
        exact ⟨(id, v) :: m', bind_eq_ok.mpr ⟨v, m', hvalue, rfl⟩, hm'.cons hyields⟩

/-- What is remembered of scopes that hold values. -/
def held (f : Forest) (m : Memo) : Memo := m.filter fun entry => (f.raw? entry.1).isSome

/-- Of what is remembered, only that about scopes with values counts. -/
theorem lookup_held (f : Forest) (m : Memo) (id : ScopeId) :
    (held f m).lookup id = if (f.raw? id).isSome then m.lookup id else none := by
  induction m with
  | nil => simp [held]
  | cons entry m ih =>
    obtain ⟨first, v⟩ := entry
    rw [held, List.filter_cons]
    by_cases heq : id = first
    · subst heq
      by_cases hheld : (f.raw? id).isSome
      · rw [if_pos hheld, if_pos hheld, List.lookup_cons_self, List.lookup_cons_self]
      · rw [if_neg hheld, if_neg hheld]
        exact ih.trans (if_neg hheld)
    · have hskip : ∀ rest : Memo, ((first, v) :: rest).lookup id = rest.lookup id := fun rest => by
        rw [List.lookup_cons, beq_false_of_ne heq]
      rw [hskip, ← ih]
      split
      · exact hskip _
      · rfl

/-- What resolves is the value of a scope. -/
theorem isSome_raw?_of_ok {f : Forest} {depth : Nat} {visiting : List ScopeId} {id : ScopeId}
    {reference : String} {v : Value} {m m' : Memo}
    (h : scopeValueWithin f depth visiting id reference m = .ok v m') : (f.raw? id).isSome := by
  rw [scopeValueWithin_eq] at h
  cases hraw : f.raw? id with
  | some raw => rfl
  | none => simp [hraw] at h

/-- Following references, each answer is what is remembered from then on of a scope with a value. -/
theorem answered_held (f : Forest) (start : ScopeId) (depth : Nat) (visiting : List ScopeId)
    (path : List String) : Answered (follow f start (scopeValueWithin f depth visiting))
      (fun last => fromMemory f (held f last) start) path := by
  intro m w m' hw last hlast
  obtain ⟨id, consumed, v, hlookup, hv, hderive⟩ := follow_eq_ok hw
  refine fromMemory_eq_ok.mpr ⟨id, consumed, v, hlookup, ?_, hderive⟩
  rw [lookup_held, if_pos (isSome_raw?_of_ok hv)]
  exact hlast id v ((scopeValueWithin_spec f depth visiting id _ m).2 v m' hv)

/-- What a value comes to with what is remembered may be remembered of it. -/
theorem Recollects.cons {f : Forest} {m now : Memo} (h : Recollects f m now) {id : ScopeId}
    {raw v : Value} (hfree : now.lookup id = none) (hraw : f.raw? id = some raw)
    (hv : valueWith (fromMemory f (held f now) ((f.parent? id).getD id)) raw = .ok v) :
    Recollects f m ((id, v) :: now) := by
  have hbefore : m.lookup id = none := by
    cases hm : m.lookup id with
    | none => rfl
    | some w =>
      rw [h.recalls id w hm] at hfree
      cases hfree
  have hknown : ∀ other u, (held f now).lookup other = some u → Yields f m other u := by
    intro other u hu
    rw [lookup_held] at hu
    split at hu
    next hheld => exact h.yields other u hu hheld
    next => cases hu
  constructor
  · intro other w hw
    have hne : other ≠ id := fun heq => by simp [heq, hbefore] at hw
    rw [List.lookup_cons, beq_false_of_ne hne]
    exact h.recalls other w hw
  · intro other w hw hother
    rw [List.lookup_cons] at hw
    split at hw
    next heq =>
      obtain rfl := Option.some.inj hw
      rw [eq_of_beq heq]
      exact .found hbefore hraw hknown hv
    next => exact h.yields other w hw hother

/-- What is remembered in the course of a resolution follows from what was remembered before. -/
theorem keeps_recollects (f : Forest) (m : Memo) (depth : Nat) (visiting : List ScopeId) (id : ScopeId)
    (reference : String) :
    Moves (Keeps (Recollects f m)) (scopeValueWithin f depth visiting id reference) := by
  induction depth using Nat.strongRecOn generalizing visiting id reference with
  | ind depth ih =>
    intro now hnow
    rw [scopeValueWithin_eq]
    match hraw : f.raw? id, hmemo : now.lookup id with
    | none, _ | some _, some _ => exact hnow
    | some raw, none =>
      dsimp only
      split
      next => exact hnow
      next hid =>
        cases depth with
        | zero => exact hnow
        | succ depth =>
          let inner := value (follow f ((f.parent? id).getD id)
            (scopeValueWithin f depth (id :: visiting))) raw
          have hlearns : ∀ path, Moves (Learns f (id :: visiting)) (follow f ((f.parent? id).getD id)
              (scopeValueWithin f depth (id :: visiting)) path) :=
            moves_follow fun other reference now => (scopeValueWithin_spec f depth _ other reference now).1
          have hinner : Recollects f m (left (inner now)) :=
            moves_value raw (fun path _ => moves_follow (fun other reference =>
              ih depth (Nat.lt_succ_self depth) (id :: visiting) other reference) path) now hnow
          change Recollects f m (left (EStateM.bind inner _ now))
          unfold EStateM.bind
          cases h : inner now with
          | error e m' =>
            rw [h] at hinner
            exact hinner
          | ok v m' =>
            rw [h] at hinner
            have hapart : Learns f (id :: visiting) now m' :=
              (moves_value raw fun path _ => hlearns path).of_ok h
            have hfree : m'.lookup id = none := (hapart.apart id List.mem_cons_self).trans hmemo
            refine hinner.cons hfree hraw (valueWith_eq_ok.mpr fun m₀ => ?_)
            exact value_answered (fun _ _ h => h.recalls) raw
              (fun path _ => ⟨hlearns path, answered_held f _ depth _ path⟩) h (fun _ _ h => h) m₀

/-- Whatever has been found out, the value of a scope resolves to the same, and does not for the same. -/
theorem agrees_scopeValueWithin {f : Forest} {m : Memo} {depth : Nat} {visiting : List ScopeId}
    {id : ScopeId} (hdepth : f.size = depth + visiting.length) (hnodup : visiting.Nodup)
    (hvisiting : ∀ a ∈ visiting, a < f.size ∧ TransGen (Inquires f m) a id) (reference : String) :
    Agrees (Recollects f m) (scopeValueWithin f depth visiting id reference) := by
  induction depth using Nat.strongRecOn generalizing visiting id reference with
  | ind depth ih =>
    intro now now' hnow hnow'
    refine ⟨?_, keeps_recollects f m depth visiting id reference now hnow⟩
    -- What is remembered is what comes out where it is not.
    have hcomes : ∀ {now now' : Memo} {v : Value}, Recollects f m now → Recollects f m now' →
        now.lookup id = some v → (f.raw? id).isSome →
        outcome (scopeValueWithin f depth visiting id reference now) =
          outcome (scopeValueWithin f depth visiting id reference now') := by
      intro now now' v hnow hnow' hv hheld
      obtain ⟨raw, hraw⟩ := Option.isSome_iff_exists.mp hheld
      obtain ⟨t, ht, -⟩ := scopeValueWithin_of_yields (hnow.yields id v hv hheld) hdepth hnodup
        hvisiting reference hnow'.faithful
      rw [ht, scopeValueWithin_eq, hraw, hv]
      rfl
    match hraw : f.raw? id, hmemo : now.lookup id, hmemo' : now'.lookup id with
    | none, _, _ =>
      rw [scopeValueWithin_eq, scopeValueWithin_eq, hraw]
      rfl
    | some _, some v, _ => exact hcomes hnow hnow' hmemo (Option.isSome_of_eq_some hraw)
    | some _, none, some v => exact (hcomes hnow' hnow hmemo' (Option.isSome_of_eq_some hraw)).symm
    | some raw, none, none =>
      rw [scopeValueWithin_eq, scopeValueWithin_eq, hraw, hmemo, hmemo']
      dsimp only
      split
      next => rfl
      next hid =>
        cases depth with
        | zero => rfl
        | succ depth =>
          have hlt : id < f.size := Forest.lt_size_of_raw? (Option.isSome_of_eq_some hraw)
          have hless : f.size = depth + (id :: visiting).length := by
            rw [List.length_cons]
            omega
          have hfree : m.lookup id = none := by
            cases hm : m.lookup id with
            | none => rfl
            | some w => exact absurd (hnow.recalls id w hm) (by simp [hmemo])
          have hvalue : Agrees (Recollects f m) (value (follow f ((f.parent? id).getD id)
              (scopeValueWithin f depth (id :: visiting))) raw) := by
            refine agrees_value raw fun path hpath => agrees_follow fun other consumed hlookup => ?_
            have hinquires : Inquires f m id other :=
              ⟨hfree, raw, path, consumed, hraw, hpath, hlookup⟩
            refine ih depth (Nat.lt_succ_self depth) hless (List.nodup_cons.mpr ⟨hid, hnodup⟩) ?_ _
            intro a ha
            rcases List.mem_cons.mp ha with rfl | ha
            · exact ⟨hlt, .single hinquires⟩
            · exact ⟨(hvisiting a ha).1, (hvisiting a ha).2.tail hinquires⟩
          rw [outcome_remembered, outcome_remembered]
          exact (hvalue now now' hnow hnow').1

/-- What the value of a scope resolves to is what it comes to. -/
theorem yields_of_scopeValue {f : Forest} {m now m' : Memo} (hnow : Recollects f m now) {id : ScopeId}
    {reference : String} {v : Value} (h : scopeValue f id reference now = .ok v m') : Yields f m id v :=
  ((keeps_recollects f m f.size [] id reference).of_ok h hnow).yields id v (lookup_of_scopeValue h)
    (isSome_raw?_of_ok h)

/-- A scope resolves to what it yields. -/
theorem scopeValue_of_yields {f : Forest} {m now : Memo} (hnow : Faithful f m now) {id : ScopeId}
    {v : Value} (h : Yields f m id v) (reference : String) :
    ∃ m', scopeValue f id reference now = .ok v m' ∧ Faithful f m m' :=
  scopeValueWithin_of_yields h rfl List.nodup_nil nofun reference hnow

/-- A scope resolves to the same, or fails for the same, whatever has been found out. -/
theorem agrees_scopeValue (f : Forest) (m : Memo) (id : ScopeId) (reference : String) :
    Agrees (Recollects f m) (scopeValue f id reference) :=
  agrees_scopeValueWithin rfl List.nodup_nil nofun reference

/-- Whatever has been found out, a reference is followed to the same. -/
theorem agrees_fromScope (f : Forest) (m : Memo) (start : ScopeId) (path : List String) :
    Agrees (Recollects f m) (fromScope f start path) :=
  agrees_follow fun _ _ _ => agrees_scopeValue f m _ _

/-! ### What is meant -/

/-- What a value means is what it comes to for one who remembers nothing. -/
theorem means_iff_yields {f : Forest} {id : ScopeId} {v : Value} : Means f id v ↔ Yields f [] id v := by
  constructor
  · intro h
    induction h with
    | intro hraw _ hv ih => exact .found rfl hraw ih hv
  · intro h
    induction h with
    | recalled _ hv => cases hv
    | found _ hraw _ hv ih => exact .intro hraw ih hv

end Resolve

end Pipework
