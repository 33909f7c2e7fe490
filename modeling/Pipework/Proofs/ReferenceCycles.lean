import Mathlib.Data.Fintype.EquivFin
import Mathlib.Data.Fintype.Order
import Pipework.Proofs.Leaves
import Pipework.Proofs.Progress

/-!
# Values that depend on themselves

The value of a scope depends on those that the references in it lead to. Resolving it always comes
to an end. It fails if the value depends, perhaps by way of others, on one that depends on itself,
and it is blamed on a circle only if there is one. If there is none and all references on the way
lead to values, ask for parts there are, and stand for equally long lists where these meet, it comes
out with what the value means.
-/

namespace Pipework

open Step Resolve Relation

namespace Forest

/-- A reference in the value of a scope leads to another one with a value. -/
def DependsOn (f : Forest) (id other : ScopeId) : Prop := f.Refers id other ∧ (f.raw? other).isSome

instance (f : Forest) (id other : ScopeId) : Decidable (f.DependsOn id other) :=
  inferInstanceAs (Decidable (_ ∧ _))

/-- The value of a scope depends, perhaps by way of others, on one that depends on itself. -/
def Circular (f : Forest) (id : ScopeId) : Prop :=
  ∃ other, ReflTransGen f.DependsOn id other ∧ TransGen f.DependsOn other other

/-- A reference that is written in a scope stands for this. -/
def StandsFor (f : Forest) (start : ScopeId) (path : List String) (v : Value) : Prop :=
  ∃ other consumed u, f.lookup? start path = some (other, consumed) ∧ Means f other u ∧
    FileField.derive u (path.drop consumed) (joinPath path) = .ok v

/-- All is well with the references in a value that is written in a scope: they lead to values and
ask for parts there are, and those in one text stand for equally long lists. -/
structure WellReferred (f : Forest) (start : ScopeId) (raw : Value) : Prop where
  /-- They lead to values, and ask for parts there are. -/
  found : ∀ path ∈ raw.references, ∃ other consumed,
    f.lookup? start path = some (other, consumed) ∧ (f.raw? other).isSome ∧
      ∀ segment ∈ path.drop consumed, (FileField.ofText? segment).isSome
  /-- Lists that meet in a text are equally long. -/
  even : ∀ text, .str text ∈ raw.leaves → ∀ path ∈ Template.references text,
    ∀ path' ∈ Template.references text, ∀ v v' n n', f.StandsFor start path v →
      f.StandsFor start path' v' → width? v = some n → width? v' = some n' → n = n'

/-- All is well with a value without references. -/
theorem WellReferred.of_not_mayRefer {f : Forest} {start : ScopeId} {raw : Value}
    (h : raw.mayRefer = false) : f.WellReferred start raw where
  found path hpath := by
    rw [Value.references_of_not_mayRefer h] at hpath
    cases hpath
  even text htext path hpath _ _ _ _ _ _ _ _ _ _ := by
    have hplain := Value.mayRefer_of_mem_leaves h htext
    rw [← Value.references, Value.references_of_not_mayRefer hplain] at hpath
    cases hpath

/-- What refers to a value that depends on itself does so by depending on it. -/
theorem Circular.of_refers {f : Forest} {id other : ScopeId} (h : f.Refers id other)
    (hc : f.Circular other) : f.Circular id := by
  obtain ⟨last, hway, hcircle⟩ := hc
  have hfirst : ∃ next, f.DependsOn other next := by
    rcases ReflTransGen.cases_head hway with rfl | ⟨next, hnext, -⟩
    · obtain ⟨next, hnext, -⟩ := TransGen.head'_iff.mp hcircle
      exact ⟨next, hnext⟩
    · exact ⟨next, hnext⟩
  obtain ⟨_, ⟨_, _, _, hraw, _⟩, _⟩ := hfirst
  exact ⟨last, hway.head ⟨h, Option.isSome_of_eq_some hraw⟩, hcircle⟩

/-- Where there is no circle, what holds of a value if it holds of those it depends on holds. -/
theorem induction_of_not_circular {f : Forest} {first : ScopeId} (hfirst : first < f.size)
    (h : ¬ f.Circular first) {P : ScopeId → Prop}
    (step : ∀ id, ReflTransGen f.DependsOn first id → (∀ other, f.DependsOn id other → P other) →
      P id) : P first := by
  let Way := { id : ScopeId // ReflTransGen f.DependsOn first id ∧ id < f.size }
  have hfinite : Finite Way :=
    Finite.of_injective (fun id : Way => (⟨id.1, id.2.2⟩ : Fin f.size)) fun a b hab =>
      Subtype.ext (Fin.mk.inj hab)
  let Below (a b : Way) : Prop := TransGen f.DependsOn b.1 a.1
  have htrans : IsTrans Way Below := ⟨fun _ _ _ h h' => h'.trans h⟩
  have hirrefl : Std.Irrefl Below := ⟨fun a ha => h ⟨a.1, a.2.1, ha⟩⟩
  have hwf : WellFounded Below := Finite.wellFounded_of_trans_of_irrefl Below
  suffices hall : ∀ a : Way, P a.1 from hall ⟨first, .refl, hfirst⟩
  intro a
  induction a using hwf.induction with
  | _ a ih =>
    refine step a.1 a.2.1 fun other hother => ?_
    exact ih ⟨other, a.2.1.tail hother, lt_size_of_raw? hother.2⟩ (.single hother)

end Forest

namespace Resolve

/-- What is remembered is still remembered when more is. -/
theorem isSome_lookup_cons {m : Memo} {id other : ScopeId} {v : Value}
    (h : (m.lookup other).isSome) : (((id, v) :: m).lookup other).isSome := by
  rw [List.lookup_cons]
  split
  · rfl
  · exact h

/-- What the newest of the remembered values depends on was remembered before. -/
theorem Backed.earlier {f : Forest} {earlier : Memo} {id other : ScopeId} {v : Value}
    (h : Backed f ((id, v) :: earlier)) (hother : f.DependsOn id other) :
    (earlier.lookup other).isSome := by
  obtain ⟨-, raw, answer, hraw, hv, hsame⟩ := h
  obtain ⟨⟨held, path, consumed, hheld, hpath, hlookup⟩, hvalue⟩ := hother
  obtain rfl := Option.some.inj (hraw.symm.trans hheld)
  obtain ⟨w, hw⟩ := exists_answer hv hpath
  rw [hsame path hpath other consumed hlookup hvalue] at hw
  obtain ⟨u, hu, -⟩ := exists_lookup_of_fromMemory hlookup hw
  exact Option.isSome_of_eq_some hu

/-- If something is remembered of a value, so it is of those that it depends on. -/
theorem Backed.closed {f : Forest} {m : Memo} (h : Backed f m) {id other : ScopeId}
    (hid : (m.lookup id).isSome) (hother : f.DependsOn id other) : (m.lookup other).isSome := by
  induction m with
  | nil => cases hid
  | cons entry earlier ih =>
    obtain ⟨newest, v⟩ := entry
    refine isSome_lookup_cons ?_
    rw [List.lookup_cons] at hid
    split at hid
    next heq =>
      obtain rfl := eq_of_beq heq
      exact h.earlier hother
    next => exact ih h.1 hid

/-- If something is remembered of a value, so it is of those that it depends on by way of others. -/
theorem Backed.closed_way {f : Forest} {m : Memo} (h : Backed f m) {id other : ScopeId}
    (hid : (m.lookup id).isSome) (hway : ReflTransGen f.DependsOn id other) :
    (m.lookup other).isSome := by
  induction hway with
  | refl => exact hid
  | tail _ hstep ih => exact h.closed ih hstep

/-- Nothing is remembered of a value that depends on itself. -/
theorem Backed.not_transGen {f : Forest} {m : Memo} (h : Backed f m) {id : ScopeId}
    (hid : (m.lookup id).isSome) : ¬ TransGen f.DependsOn id id := by
  induction m with
  | nil => cases hid
  | cons entry earlier ih =>
    obtain ⟨newest, v⟩ := entry
    rw [List.lookup_cons] at hid
    split at hid
    next heq =>
      obtain rfl := eq_of_beq heq
      intro hcircle
      obtain ⟨other, hother, hback⟩ := TransGen.head'_iff.mp hcircle
      exact ih h.1 (h.1.closed_way (h.earlier hother) hback) hcircle
    next => exact ih h.1 hid

/-- Nothing is remembered of a value that depends on one that depends on itself. -/
theorem Backed.not_circular {f : Forest} {m : Memo} (h : Backed f m) {id : ScopeId}
    (hid : (m.lookup id).isSome) : ¬ f.Circular id := by
  rintro ⟨other, hway, hcircle⟩
  exact h.not_transGen (h.closed_way hid hway) hcircle

/-- What may be said when the value of a scope does not resolve: not that the depth did not do, and
that there is a circle only if there is one. -/
def Blames (f : Forest) (id : ScopeId) (e : ScopeError) : Prop :=
  e ≠ .dangling ∧ ∀ reference, e = .selfReference reference → f.Circular id

/-- A failure other than for a circle blames no circle. -/
theorem blames_of_ne {f : Forest} {id : ScopeId} {e : ScopeError} (h : e ≠ .dangling)
    (h' : ∀ reference, e ≠ .selfReference reference) : Blames f id e :=
  ⟨h, fun reference he => absurd he (h' reference)⟩

/-- Following a reference in a value fails for what resolving the value it leads to fails for, or since
it leads to none or asks for something else than a part. -/
theorem failsFor_follow {f : Forest} {id : ScopeId} {raw : Value} (hraw : f.raw? id = some raw)
    {path : List String} (hpath : path ∈ raw.references)
    {scopeValue : ScopeId → String → ResolveM Value}
    (h : ∀ other, f.Refers id other → FailsFor (Blames f other) (scopeValue other (joinPath path))) :
    FailsFor (Blames f id) (follow f ((f.parent? id).getD id) scopeValue path) := by
  rw [follow]
  cases hlookup : f.lookup? ((f.parent? id).getD id) path with
  | none => exact .throw (blames_of_ne (by simp) (by simp))
  | some found =>
    obtain ⟨other, consumed⟩ := found
    have hrefers : f.Refers id other := ⟨raw, path, consumed, hraw, hpath, hlookup⟩
    refine FailsFor.bind (fun m e m' he => ?_) fun v => failsFor_ofExcept fun e he => ?_
    · obtain ⟨hdepth, hcircle⟩ := h other hrefers m e m' he
      exact ⟨hdepth, fun reference hself => (hcircle reference hself).of_refers hrefers⟩
    · obtain ⟨segment, -, rfl, -⟩ := FileField.derive_eq_error he
      exact blames_of_ne (by simp) (by simp)

/-- While those are visited that depend on it, a value does not resolve only for a reason. -/
theorem failsFor_scopeValueWithin {f : Forest} {depth : Nat} {visiting : List ScopeId} {id : ScopeId}
    (hdepth : f.size = depth + visiting.length) (hnodup : visiting.Nodup)
    (hvisiting : ∀ a ∈ visiting, a < f.size ∧
      ((f.raw? id).isSome → TransGen f.DependsOn a id)) (reference : String) :
    FailsFor (Blames f id) (scopeValueWithin f depth visiting id reference) := by
  induction depth using Nat.strongRecOn generalizing visiting id reference with
  | ind depth ih =>
    intro m e m' h
    rw [scopeValueWithin_eq] at h
    match hraw : f.raw? id, hmemo : m.lookup id with
    | none, _ =>
      simp only [hraw] at h
      cases h
      exact blames_of_ne (by simp) (by simp)
    | some raw, some v =>
      simp only [hraw, hmemo] at h
      cases h
    | some raw, none =>
      simp only [hraw, hmemo] at h
      have hvalue : (f.raw? id).isSome := Option.isSome_of_eq_some hraw
      split at h
      next hid =>
        cases h
        exact ⟨by simp, fun _ _ => ⟨id, .refl, (hvisiting id hid).2 hvalue⟩⟩
      next hid =>
        have hlt : ∀ a ∈ id :: visiting, a < f.size := by
          intro a ha
          rcases List.mem_cons.mp ha with rfl | ha
          · exact Forest.lt_size_of_raw? hvalue
          · exact (hvisiting a ha).1
        have hdeeper : (id :: visiting).Nodup := List.nodup_cons.mpr ⟨hid, hnodup⟩
        have hroom := length_le_of_nodup hdeeper hlt
        rw [List.length_cons] at hroom
        cases depth with
        | zero => omega
        | succ depth =>
          have hless : f.size = depth + (id :: visiting).length := by
            rw [List.length_cons]
            omega
          rcases bind_eq_error.mp h with h | ⟨v, m₁, -, h⟩
          · refine failsFor_value (fun _ _ _ => blames_of_ne (by simp) (by simp)) raw
              (fun path hpath => ?_) m e m' h
            refine failsFor_follow hraw hpath fun other hother => ?_
            refine ih depth (Nat.lt_succ_self depth) hless hdeeper
              (fun a ha => ⟨hlt a ha, fun hheld => ?_⟩) _
            rcases List.mem_cons.mp ha with rfl | ha
            · exact .single ⟨hother, hheld⟩
            · exact ((hvisiting a ha).2 hvalue).tail ⟨hother, hheld⟩
          · cases h

/-- Where there is no circle, and all is well with the references on the way, a value means
something. -/
theorem exists_means {f : Forest} {first : ScopeId} (hfirst : (f.raw? first).isSome)
    (hcircle : ¬ f.Circular first)
    (hwell : ∀ id raw, ReflTransGen f.DependsOn first id → f.raw? id = some raw →
      f.WellReferred ((f.parent? id).getD id) raw) : ∃ v, Means f first v := by
  classical
  suffices h : (f.raw? first).isSome → ∃ v, Means f first v from h hfirst
  refine Forest.induction_of_not_circular (Forest.lt_size_of_raw? hfirst) hcircle
    (P := fun id => (f.raw? id).isSome → ∃ v, Means f id v) fun id hway hbelow hvalue => ?_
  obtain ⟨raw, hraw⟩ := Option.isSome_iff_exists.mp hvalue
  obtain ⟨hfound, heven⟩ := hwell id raw hway hraw
  set start := (f.parent? id).getD id with hstart
  -- What the values mean that the references lead to is known.
  let targets := raw.references.filterMap fun path => (f.lookup? start path).map (·.1)
  have htargets : ∀ other ∈ targets, ∃ v, Means f other v := by
    intro other hother
    obtain ⟨path, hpath, hother⟩ := List.mem_filterMap.mp hother
    obtain ⟨_, consumed, hlookup, hheld, -⟩ := hfound path hpath
    obtain rfl : _ = other := by simpa [hlookup] using hother
    exact hbelow _ ⟨⟨raw, path, consumed, hraw, hpath, hlookup⟩, hheld⟩ hheld
  choose! meaning hmeaning using htargets
  let known : Memo := targets.map fun other => (other, meaning other)
  have hknown : ∀ other u, known.lookup other = some u → Means f other u := by
    intro other u hu
    obtain ⟨_, _, hmem, -⟩ := List.lookup_eq_some_iff.mp hu
    have hin : (other, u) ∈ known := by simp [hmem]
    obtain ⟨target, htarget, heq⟩ := List.mem_map.mp hin
    obtain ⟨rfl, rfl⟩ := Prod.mk.inj heq
    exact hmeaning target htarget
  have hstands : ∀ path v, fromMemory f known start path = .ok v → f.StandsFor start path v := by
    intro path v hv
    obtain ⟨other, consumed, u, hlookup, hu, hderive⟩ := fromMemory_eq_ok.mp hv
    exact ⟨other, consumed, u, hlookup, hknown other u hu, hderive⟩
  have hanswer : ∀ path ∈ raw.references, ∃ v, fromMemory f known start path = .ok v := by
    intro path hpath
    obtain ⟨other, consumed, hlookup, -, hfields⟩ := hfound path hpath
    have hin : other ∈ targets := List.mem_filterMap.mpr ⟨path, hpath, by rw [hlookup]; rfl⟩
    obtain ⟨v, hv⟩ := FileField.exists_derive (v := meaning other) hfields (joinPath path)
    exact ⟨v, fromMemory_eq_ok.mpr ⟨other, consumed, meaning other, hlookup,
      List.lookup_graph meaning hin, hv⟩⟩
  obtain ⟨v, hv⟩ := exists_valueWith hanswer fun text htext path hpath path' hpath' v v' n n' hv hv' =>
    heven text htext path hpath path' hpath' v v' n n' (hstands path v hv) (hstands path' v' hv')
  exact ⟨v, .intro hraw hknown hv⟩

end Resolve

namespace ScopeTree

/-- A value resolves unless there is a circle or a reference on the way is at fault, and it is
blamed on a circle only if there is one. It is never the depth of the recursion that does not do. -/
theorem resolveAt_circles {tree : ScopeTree} (htree : tree.Reachable) {id : ScopeId}
    (hid : (tree.forest.raw? id).isSome) :
    (∀ tree', resolveAt id tree ≠ .error .dangling tree') ∧
    (tree.forest.Circular id → ∃ e tree', resolveAt id tree = .error e tree') ∧
    (∀ reference tree', resolveAt id tree = .error (.selfReference reference) tree' →
      tree.forest.Circular id) ∧
    (¬ tree.forest.Circular id →
      (∀ other raw, ReflTransGen tree.forest.DependsOn id other → tree.forest.raw? other = some raw →
        tree.forest.WellReferred ((tree.forest.parent? other).getD other) raw) →
      ∃ v tree', Means tree.forest id v ∧ resolveAt id tree = .ok v tree') := by
  have hsane := htree.sane
  have hblames : ∀ e tree', resolveAt id tree = .error e tree' → Blames tree.forest id e := by
    intro e tree' h
    obtain ⟨memo, h, -⟩ := resolving_eq_error.mp h
    exact failsFor_scopeValueWithin rfl List.nodup_nil nofun _ _ e memo h
  refine ⟨fun tree' h => (hblames _ tree' h).1 rfl, fun hcircle => ?_,
    fun reference tree' h => (hblames _ tree' h).2 reference rfl, fun hcircle hwell => ?_⟩
  · cases h : resolveAt id tree with
    | error e tree' => exact ⟨e, tree', rfl⟩
    | ok v tree' =>
      obtain ⟨memo, h, -⟩ := resolving_eq_ok.mp h
      have hbacked := ((moves_scopeValue tree.forest id _).of_ok h).backed hsane.backed
      exact absurd hcircle (hbacked.not_circular (Option.isSome_of_eq_some (lookup_of_scopeValue h)))
  · obtain ⟨v, hv⟩ := exists_means hid hcircle hwell
    obtain ⟨memo, h, -⟩ := scopeValue_of_means hv (tree.forest.displayName id) hsane.backed.sincere
    exact ⟨v, _, hv, resolving_eq_ok.mpr ⟨memo, h, rfl⟩⟩

/-- Jars of two sizes have labels, and two mirrors show each other. -/
def pantry : ScopeTree :=
  .initial |> Operation.runAll [.put 0 "label" (.str "$\x7bkind\x7d-$\x7bsizes\x7d"),
    .put 0 "kind" (.str "jar"), .put 0 "sizes" (.list [.str "s", .str "l"]),
    .put 0 "left" (.str "$\x7bright\x7d"), .put 0 "right" (.str "$\x7bleft\x7d")]

namespace Pantry

/-- What lies where in the pantry, and what the label refers to. -/
theorem holds : pantry.forest.size = 6 ∧ pantry.forest.raw? 0 = none ∧
    pantry.forest.raw? 1 = some (.str "$\x7bkind\x7d-$\x7bsizes\x7d") ∧
    pantry.forest.raw? 2 = some (.str "jar") ∧
    pantry.forest.raw? 3 = some (.list [.str "s", .str "l"]) ∧
    (pantry.forest.raw? 4).isSome ∧ (pantry.forest.parent? 1).getD 1 = 0 ∧
    pantry.forest.lookup? 0 ["kind"] = some (2, 1) ∧
    pantry.forest.lookup? 0 ["sizes"] = some (3, 1) ∧
    Template.references "$\x7bkind\x7d-$\x7bsizes\x7d" = [["kind"], ["sizes"]] := by
  decide +kernel

/-- What the label refers to was put later, and short of the mirrors, which show each other. -/
theorem dependsOn : (∀ id < 4, ∀ other < 6, pantry.forest.DependsOn id other → id < other ∧ other < 4) ∧
    pantry.forest.DependsOn 4 5 ∧ pantry.forest.DependsOn 5 4 := by
  decide +kernel

theorem later_of_dependsOn {id other : ScopeId} (h : pantry.forest.DependsOn id other)
    (hid : id < 4) : id < other ∧ other < 4 :=
  dependsOn.1 id hid other (holds.1 ▸ Forest.lt_size_of_raw? h.2) h

theorem lt_of_way {id : ScopeId} (h : ReflTransGen pantry.forest.DependsOn 1 id) : id < 4 := by
  induction h with
  | refl => decide
  | tail _ hstep ih => exact (later_of_dependsOn hstep ih).2

theorem not_circular_label : ¬ pantry.forest.Circular 1 := by
  rintro ⟨other, hway, hcircle⟩
  have hrises : ∀ {last}, TransGen pantry.forest.DependsOn other last → other < last ∧ last < 4 := by
    intro last h
    induction h with
    | single hstep => exact later_of_dependsOn hstep (lt_of_way hway)
    | tail _ hstep ih =>
      obtain ⟨hlt, hfour⟩ := later_of_dependsOn hstep ih.2
      exact ⟨ih.1.trans hlt, hfour⟩
  exact absurd (hrises hcircle).1 (lt_irrefl other)

/-- What kind, sizes and label mean. -/
theorem means : Means pantry.forest 2 (.str "jar") ∧
    Means pantry.forest 3 (.list [.str "s", .str "l"]) ∧
    Means pantry.forest 1 (.list [.str "jar-s", .str "jar-l"]) := by
  obtain ⟨-, -, hlabel, hkind, hsizes, -⟩ := holds
  have hmeans : Means pantry.forest 2 (.str "jar") :=
    @Means.intro _ _ (.str "jar") _ [] hkind nofun (by rfl)
  have hmeans' : Means pantry.forest 3 (.list [.str "s", .str "l"]) :=
    @Means.intro _ _ (.list [.str "s", .str "l"]) _ [] hsizes nofun (by rfl)
  refine ⟨hmeans, hmeans', @Means.intro _ _ (.str "$\x7bkind\x7d-$\x7bsizes\x7d") _
    [(2, .str "jar"), (3, .list [.str "s", .str "l"])] hlabel (fun other u hu => ?_)
    (by decide +kernel)⟩
  obtain ⟨before, after, hmem, -⟩ := List.lookup_eq_some_iff.mp hu
  have hin : (other, u) ∈ before ++ (other, u) :: after := by simp
  rw [← hmem] at hin
  simp only [List.mem_cons, Prod.mk.injEq, List.not_mem_nil, or_false] at hin
  obtain ⟨rfl, rfl⟩ | ⟨rfl, rfl⟩ := hin
  · exact hmeans
  · exact hmeans'

theorem wellReferred_label :
    pantry.forest.WellReferred 0 (.str "$\x7bkind\x7d-$\x7bsizes\x7d") := by
  obtain ⟨-, -, -, hjar, hlist, -, -, hkind, hsizes, hpaths⟩ := holds
  obtain ⟨hmeans, hmeans', -⟩ := means
  -- Of the two only the sizes are a list.
  have htwo : ∀ path ∈ [["kind"], ["sizes"]], ∀ v n, pantry.forest.StandsFor 0 path v →
      width? v = some n → n = 2 := by
    rintro path hpath v n ⟨other, consumed, u, hlookup, hu, hderive⟩ hn
    simp only [List.mem_cons, List.not_mem_nil, or_false] at hpath
    rcases hpath with rfl | rfl
    · obtain ⟨rfl, rfl⟩ := Prod.mk.inj (Option.some.inj (hkind.symm.trans hlookup))
      obtain rfl := hmeans.unique hu
      cases hderive
      cases hn
    · obtain ⟨rfl, rfl⟩ := Prod.mk.inj (Option.some.inj (hsizes.symm.trans hlookup))
      obtain rfl := hmeans'.unique hu
      cases hderive
      exact (Option.some.inj hn).symm
  refine ⟨fun path hpath => ?_, fun text htext path hpath path' hpath' v v' n n' hv hv' hn hn' => ?_⟩
  · rw [Value.references, hpaths] at hpath
    simp only [List.mem_cons, List.not_mem_nil, or_false] at hpath
    rcases hpath with rfl | rfl
    · exact ⟨2, 1, hkind, Option.isSome_of_eq_some hjar, nofun⟩
    · exact ⟨3, 1, hsizes, Option.isSome_of_eq_some hlist, nofun⟩
  · obtain rfl : text = _ := Value.str.inj (List.mem_singleton.mp htext)
    rw [hpaths] at hpath hpath'
    exact (htwo path hpath v n hv hn).trans (htwo path' hpath' v' n' hv' hn').symm

end Pantry

/-- The labels come out, and what the mirrors show does not. -/
theorem labels_resolve : pantry.Reachable ∧ (pantry.forest.raw? 1).isSome ∧
    (pantry.forest.raw? 4).isSome ∧ ¬ pantry.forest.Circular 1 ∧ pantry.forest.Circular 4 ∧
    (∃ tree, resolveAt 1 pantry = .ok (.list [.str "jar-s", .str "jar-l"]) tree) ∧
    ∃ e tree, resolveAt 4 pantry = .error e tree := by
  have hreach : pantry.Reachable := (Reachable.start []).runAll _
  obtain ⟨-, h₀, h₁, h₂, h₃, hmirror, hstart, -⟩ := Pantry.holds
  have hlabel : (pantry.forest.raw? 1).isSome := Option.isSome_of_eq_some h₁
  have hcircle : pantry.forest.Circular 4 :=
    ⟨4, .refl, .tail (.single Pantry.dependsOn.2.1) Pantry.dependsOn.2.2⟩
  have hwell : ∀ other raw, ReflTransGen pantry.forest.DependsOn 1 other →
      pantry.forest.raw? other = some raw →
        pantry.forest.WellReferred ((pantry.forest.parent? other).getD other) raw := by
    intro other raw hway hraw
    have hfour : ∀ n : Nat, n < 4 → n = 0 ∨ n = 1 ∨ n = 2 ∨ n = 3 := by omega
    obtain rfl | rfl | rfl | rfl := hfour other (Pantry.lt_of_way hway)
    · cases h₀.symm.trans hraw
    · obtain rfl := Option.some.inj (h₁.symm.trans hraw)
      exact hstart.symm ▸ Pantry.wellReferred_label
    · obtain rfl := Option.some.inj (h₂.symm.trans hraw)
      exact .of_not_mayRefer (by decide)
    · obtain rfl := Option.some.inj (h₃.symm.trans hraw)
      exact .of_not_mayRefer (by decide)
  obtain ⟨v, tree, hv, hresolved⟩ :=
    (resolveAt_circles hreach hlabel).2.2.2 Pantry.not_circular_label hwell
  obtain rfl := Pantry.means.2.2.unique hv
  exact ⟨hreach, hlabel, hmirror, Pantry.not_circular_label, hcircle, ⟨tree, hresolved⟩,
    (resolveAt_circles hreach hmirror).2.1 hcircle⟩

end ScopeTree

end Pipework
