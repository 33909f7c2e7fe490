import Mathlib.Data.List.Forall2
import Mathlib.Data.List.Nodup
import Mathlib.Data.List.Perm.Subperm

/-!
# Results and lists

What is used throughout and has nothing to do with pipelines: results that may fail, found out in
parts or for the elements of a list, lists that are related element by element, and how elements of
lists are found, changed and told apart.
-/

namespace Pipework

/-! ### Results -/

/-- What is found out in two parts is found out by both. -/
theorem except_bind_eq_ok {ε α β : Type} {x : Except ε α} {f : α → Except ε β} {b : β} :
    x >>= f = .ok b ↔ ∃ a, x = .ok a ∧ f a = .ok b := by
  cases x with
  | error e => exact iff_of_false (fun h => by cases h) (by simp)
  | ok a => exact ⟨fun h => ⟨a, rfl, h⟩, fun ⟨_, ha, h⟩ => by cases ha; exact h⟩

/-- It fails where the first part does, or where the second one does with what the first one found. -/
theorem except_bind_eq_error {ε α β : Type} {x : Except ε α} {f : α → Except ε β} {e : ε} :
    (x >>= f) = .error e ↔ x = .error e ∨ ∃ a, x = .ok a ∧ f a = .error e := by
  cases x <;> simp [bind, Except.bind]

/-- What is done to a result does not make it fail. -/
theorem except_map_eq_ok {ε α β : Type} {x : Except ε α} {f : α → β} {b : β} :
    x.map f = .ok b ↔ ∃ a, x = .ok a ∧ f a = b := by
  cases x <;> simp [Except.map]

/-- What is left when the reason of a failure is dropped was found out. -/
theorem eq_ok_of_toOption {ε α : Type} {r : Except ε α} {a : α} (h : r.toOption = some a) :
    r = .ok a := by
  cases r with
  | error e => cases h
  | ok b => exact congrArg Except.ok (Option.some.inj h)

/-- What is found out of each element is found out of the list. -/
theorem mapM_ok_of_forall {ε α β : Type} {l : List α} {f : α → Except ε β} {g : α → β}
    (h : ∀ a ∈ l, f a = .ok (g a)) : l.mapM f = .ok (l.map g) := by
  induction l with
  | nil => rfl
  | cons a l ih =>
    obtain ⟨hfirst, hrest⟩ := List.forall_mem_cons.mp h
    rw [List.mapM_cons, hfirst, ih hrest]
    rfl

/-- A list comes out if all of its elements do. -/
theorem exists_mapM_ok {ε α β : Type} {l : List α} {f : α → Except ε β}
    (h : ∀ a ∈ l, ∃ b, f a = .ok b) : ∃ bs, l.mapM f = .ok bs := by
  induction l with
  | nil => exact ⟨[], rfl⟩
  | cons a l ih =>
    obtain ⟨b, hb⟩ := h a List.mem_cons_self
    obtain ⟨bs, hbs⟩ := ih fun c hc => h c (List.mem_cons_of_mem a hc)
    exact ⟨b :: bs, by rw [List.mapM_cons, hb, hbs]; rfl⟩

/-- A list fails to come out for one of its elements. -/
theorem exists_of_mapM_eq_error {ε α β : Type} {l : List α} {f : α → Except ε β} {e : ε}
    (h : l.mapM f = .error e) : ∃ a ∈ l, f a = .error e := by
  induction l with
  | nil => cases h
  | cons a l ih =>
    rw [List.mapM_cons] at h
    rcases except_bind_eq_error.mp h with h | ⟨b, -, h⟩
    · exact ⟨a, List.mem_cons_self, h⟩
    rcases except_bind_eq_error.mp h with h | ⟨bs, -, h⟩
    · obtain ⟨c, hc, hfail⟩ := ih h
      exact ⟨c, List.mem_cons_of_mem a hc, hfail⟩
    · cases h

/-- Once one thing is read, what is left is to read the rest. -/
theorem bind_of_some {α β : Type} {x : Option α} {f : α → Option β} {a : α} {b : β} (hx : x = some a)
    (hf : f a = some b) : x >>= f = some b := Option.bind_eq_some_iff.mpr ⟨a, hx, hf⟩

/-- What is written and read again, element by element, is the list. -/
theorem mapM_of_forall {α β : Type} {write : α → β} {read : β → Option α} {as : List α}
    (h : ∀ a ∈ as, read (write a) = some a) : (as.map write).mapM read = some as := by
  induction as with
  | nil => rfl
  | cons a as ih =>
    obtain ⟨hfirst, hrest⟩ := List.forall_mem_cons.mp h
    rw [List.map_cons, List.mapM_cons, hfirst, ih hrest]
    rfl

/-! ### Lists that are related element by element -/

/-- Whatever is on the right was related to something on the left. -/
theorem exists_of_mem_right {α β : Type} {S : α → β → Prop} {as : List α} {bs : List β}
    (h : List.Forall₂ S as bs) {b : β} (hb : b ∈ bs) : ∃ a ∈ as, S a b := by
  induction h with
  | nil => simp at hb
  | @cons a c as bs hac _ ih =>
    rcases List.mem_cons.mp hb with rfl | hb
    · exact ⟨a, by simp, hac⟩
    · obtain ⟨other, ho, hr⟩ := ih hb
      exact ⟨other, List.mem_cons_of_mem _ ho, hr⟩

/-- And the other way round. -/
theorem exists_of_mem_left {α β : Type} {S : α → β → Prop} {as : List α} {bs : List β}
    (h : List.Forall₂ S as bs) {a : α} (ha : a ∈ as) : ∃ b ∈ bs, S a b :=
  exists_of_mem_right h.flip ha

/-- Lists that are related element by element by way of a third one. -/
theorem forall₂_comp {α β γ : Type} {S : α → β → Prop} {T : β → γ → Prop} {U : α → γ → Prop}
    {as : List α} {bs : List β} {cs : List γ} (h : List.Forall₂ S as bs)
    (h' : List.Forall₂ T bs cs) (hu : ∀ a b c, S a b → T b c → U a c) : List.Forall₂ U as cs := by
  induction h generalizing cs with
  | nil =>
    cases h'
    exact .nil
  | cons hab _ ih =>
    cases h' with
    | cons hbc hrest => exact .cons (hu _ _ _ hab hbc) (ih hrest)

/-- Lists that are related have elements at the same places, and these are related. -/
theorem getElem?_of_forall₂ {α β : Type} {R : α → β → Prop} {as : List α} {bs : List β}
    (h : List.Forall₂ R as bs) (place : Nat) :
    (as[place]? = none ∧ bs[place]? = none) ∨
      ∃ a b, as[place]? = some a ∧ bs[place]? = some b ∧ R a b := by
  induction h generalizing place with
  | nil => exact .inl ⟨rfl, rfl⟩
  | @cons a b _ _ hab _ ih =>
    cases place with
    | zero => exact .inr ⟨a, b, rfl, rfl, hab⟩
    | succ place => exact ih place

/-- An element on the right is related to the one at its place on the left. -/
theorem exists_at_of_forall₂ {α β : Type} {R : α → β → Prop} {as : List α} {bs : List β}
    (h : List.Forall₂ R as bs) {place : Nat} {b : β} (hb : bs[place]? = some b) :
    ∃ a, as[place]? = some a ∧ R a b := by
  rcases getElem?_of_forall₂ h place with ⟨-, hnone⟩ | ⟨a, b', ha, hb', hab⟩
  · rw [hnone] at hb
    cases hb
  · exact ⟨a, ha, Option.some.inj (hb'.symm.trans hb) ▸ hab⟩

/-- Related elements pass tests together, so that those that pass are related. -/
theorem forall₂_filter {α β : Type} {R : α → β → Prop} {p : α → Bool} {q : β → Bool} {as : List α}
    {bs : List β} (h : List.Forall₂ R as bs) (hpq : ∀ a b, R a b → q b = p a) :
    List.Forall₂ R (as.filter p) (bs.filter q) :=
  List.rel_filter (fun a b hab => by dsimp only; rw [hpq a b hab]) h

/-- Lists that agree wherever a test is passed have the same elements that pass it. -/
theorem filter_of_forall₂ {α : Type} {R : α → α → Prop} {p : α → Bool} {l l' : List α}
    (h : List.Forall₂ R l l') (hp : ∀ a ∈ l, ∀ b, R a b → p b = p a ∧ (p a → b = a)) :
    l'.filter p = l.filter p := by
  induction h with
  | nil => rfl
  | @cons a b l l' hab _ ih =>
    have hrest := ih fun c hc => hp c (List.mem_cons_of_mem _ hc)
    obtain ⟨htest, hsame⟩ := hp a List.mem_cons_self b hab
    rw [List.filter_cons, List.filter_cons, htest, hrest]
    split
    next hpass => rw [hsame hpass]
    · rfl

/-- Elements that are related to what they are mapped to are mapped to all of these. -/
theorem filterMap_of_forall₂ {α β : Type} {R : α → β → Prop} {f : α → Option β} {as : List α}
    {bs : List β} (h : List.Forall₂ R as bs) (hf : ∀ a ∈ as, ∀ b, R a b → f a = some b) :
    as.filterMap f = bs := by
  induction h with
  | nil => rfl
  | @cons a b as bs hab _ ih =>
    rw [List.filterMap_cons_some (hf a List.mem_cons_self b hab),
      ih fun c hc => hf c (List.mem_cons_of_mem _ hc)]

/-- What comes out of a list, element by element. -/
theorem forall₂_of_mapM_ok {ε α β : Type} {f : α → Except ε β} {as : List α} {bs : List β}
    (h : as.mapM f = .ok bs) : List.Forall₂ (fun a b => f a = .ok b) as bs := by
  induction as generalizing bs with
  | nil =>
    obtain rfl := Except.ok.inj h
    exact .nil
  | cons a as ih =>
    rw [List.mapM_cons] at h
    obtain ⟨b, hb, h⟩ := except_bind_eq_ok.mp h
    obtain ⟨rest, hrest, h⟩ := except_bind_eq_ok.mp h
    obtain rfl := Except.ok.inj h
    exact .cons hb (ih hrest)

/-! ### Elements of a list -/

/-- What differs in something from all others is found by it. -/
theorem find?_eq_some_of_nodup {α β : Type} [BEq β] [LawfulBEq β] {f : α → β} {l : List α}
    (h : (l.map f).Nodup) {a : α} (ha : a ∈ l) : l.find? (f · == f a) = some a := by
  cases hf : l.find? (f · == f a) with
  | none =>
    have hno := List.find?_eq_none.mp hf a ha
    simp at hno
  | some b =>
    have heq : f b = f a := by simpa using List.find?_some hf
    rw [List.inj_on_of_nodup_map h (List.mem_of_find?_eq_some hf) ha heq]

/-- What differs in something from all others is the only one that agrees with it there. -/
theorem filter_eq_singleton_of_nodup {α β : Type} [BEq β] [LawfulBEq β] {f : α → β} {l : List α}
    (h : (l.map f).Nodup) {a : α} (ha : a ∈ l) : l.filter (f · == f a) = [a] := by
  have hcount : (l.filter (f · == f a)).length = 1 := by
    have hone := List.count_eq_one_of_mem h (List.mem_map_of_mem ha)
    rwa [List.count, List.countP_map, List.countP_eq_length_filter] at hone
  obtain ⟨b, hb⟩ := List.length_eq_one_iff.mp hcount
  have hmem : a ∈ l.filter (f · == f a) := List.mem_filter.mpr ⟨ha, beq_self_eq_true (f a)⟩
  rw [hb, List.mem_singleton] at hmem
  rw [hb, hmem]

/-- Where keys differ, what is there under a key is found under it. -/
theorem lookup_of_mem {α : Type} {entries : List (String × α)} (hnodup : (entries.map (·.1)).Nodup)
    {key : String} {value : α} (h : (key, value) ∈ entries) : entries.lookup key = some value := by
  obtain ⟨before, behind, rfl⟩ := List.append_of_mem h
  refine List.lookup_eq_some_iff.mpr ⟨before, behind, rfl, fun entry he => ?_⟩
  rw [List.map_append, List.nodup_append] at hnodup
  exact bne_iff_ne.mpr (hnodup.2.2 entry.1 (List.mem_map_of_mem he) key (by simp)).symm

/-- The first entry counts, if it has the key. -/
theorem lookup_cons_ite {α : Type} (entry : String × α) (rest : List (String × α)) (key : String) :
    (entry :: rest).lookup key = if key = entry.1 then some entry.2 else rest.lookup key := by
  rw [List.lookup_cons]
  by_cases h : key = entry.1
  · rw [if_pos h, beq_iff_eq.mpr h]
  · rw [if_neg h, beq_false_of_ne h]

/-- Nothing is left twice when repetitions are dropped. -/
theorem nodup_eraseDups {α : Type} [BEq α] [LawfulBEq α] : ∀ l : List α, l.eraseDups.Nodup
  | [] => by simp
  | first :: rest => by
    rw [List.eraseDups_cons, List.nodup_cons, List.mem_eraseDups]
    exact ⟨by simp, nodup_eraseDups (rest.filter fun a => !a == first)⟩
  termination_by l => l.length
  decreasing_by exact Nat.lt_succ_of_le (List.length_filter_le _ _)

/-- A change at one place leaves the elements and adds what it makes of the one there. -/
theorem mem_modify {α : Type} {l : List α} {place : Nat} {change : α → α} {a : α}
    (h : a ∈ l.modify place change) : a ∈ l ∨ ∃ b, l[place]? = some b ∧ a = change b := by
  obtain ⟨other, hother⟩ := List.mem_iff_getElem?.mp h
  rw [List.getElem?_modify] at hother
  obtain ⟨b, hb, hab⟩ := Option.map_eq_some_iff.mp hother
  split at hab
  next heq => exact .inr ⟨b, heq ▸ hb, hab.symm⟩
  next => exact .inl (hab ▸ List.mem_of_getElem? hb)

/-- A change of an element that passes no test before or after it is not seen by the test. -/
theorem filter_modify {α : Type} {p : α → Bool} {l : List α} {place : Nat} {a : α} {f : α → α}
    (h : l[place]? = some a) (ha : p a = false) (hf : p (f a) = false) :
    (l.modify place f).filter p = l.filter p := by
  induction l generalizing place with
  | nil => cases h
  | cons b l ih =>
    cases place with
    | zero =>
      obtain rfl : b = a := by simpa using h
      rw [List.modify_zero_cons, List.filter_cons_of_neg (by simp [hf]),
        List.filter_cons_of_neg (by simp [ha])]
    | succ place =>
      rw [List.modify_succ_cons, List.filter_cons, List.filter_cons, ih (by simpa using h)]

/-- A list with elements that pass a test is cut at the last of them. -/
theorem exists_append_last {α : Type} {p : α → Prop} {l : List α} (h : ∃ a ∈ l, p a) :
    ∃ before a behind, l = before ++ a :: behind ∧ p a ∧ ∀ b ∈ behind, ¬ p b := by
  induction l with
  | nil => simp at h
  | cons first l ih =>
    by_cases hrest : ∃ a ∈ l, p a
    · obtain ⟨before, a, behind, rfl, ha, hlast⟩ := ih hrest
      exact ⟨first :: before, a, behind, rfl, ha, hlast⟩
    · obtain ⟨a, hmem, ha⟩ := h
      have hrest : ∀ a ∈ l, ¬ p a := fun a ha hp => hrest ⟨a, ha, hp⟩
      rcases List.mem_cons.mp hmem with rfl | hmem
      · exact ⟨[], a, l, rfl, ha, hrest⟩
      · exact absurd ha (hrest a hmem)

/-- A list is cut at the last of its elements that pass a test in one way only. -/
theorem eq_of_append_last {α : Type} {p : α → Prop} {before before' behind behind' : List α} {a a' : α}
    (h : before ++ a :: behind = before' ++ a' :: behind') (ha : p a) (ha' : p a')
    (hlast : ∀ b ∈ behind, ¬ p b) (hlast' : ∀ b ∈ behind', ¬ p b) : before = before' ∧ a = a' := by
  rcases List.append_eq_append_iff.mp h with ⟨between, rfl, hrest⟩ | ⟨between, rfl, hrest⟩
  · cases between with
    | nil => exact ⟨by simp, (List.cons.inj hrest).1⟩
    | cons b between =>
      refine absurd ha' (hlast a' ?_)
      rw [(List.cons.inj hrest).2]
      simp
  · cases between with
    | nil => exact ⟨by simp, (List.cons.inj hrest).1.symm⟩
    | cons b between =>
      refine absurd ha (hlast' a ?_)
      rw [(List.cons.inj hrest).2]
      simp

/-- If one element passes a test, it stands at one place. -/
theorem exists_place_of_filter {α : Type} {p : α → Bool} {l : List α} {a : α}
    (h : l.filter p = [a]) : ∃ place : Nat, l[place]? = some a ∧
      ∀ (other : Nat) b, l[other]? = some b → p b → other = place := by
  obtain ⟨before, behind, rfl, hbefore, -, hbehind⟩ := List.filter_eq_cons_iff.mp h
  refine ⟨before.length, by simp, fun other b hb hpass => ?_⟩
  rcases Nat.lt_trichotomy other before.length with hlt | heq | hlt
  · rw [List.getElem?_append_left hlt] at hb
    exact absurd hpass (hbefore b (List.mem_of_getElem? hb))
  · exact heq
  · rw [List.getElem?_append_right (Nat.le_of_lt hlt)] at hb
    obtain ⟨rest, hrest⟩ := Nat.exists_eq_add_of_lt hlt
    have hin : behind[rest]? = some b := by
      have hsub : other - before.length = rest + 1 := by omega
      rwa [hsub, List.getElem?_cons_succ] at hb
    exact absurd hpass (List.filter_eq_nil_iff.mp hbehind b (List.mem_of_getElem? hin))

/-- If only one of several lists has elements that pass a test, these are all. -/
theorem filter_flatten_of_unique {α : Type} {p : α → Bool} {parts : List (List α)} {place : Nat}
    {own : List α} (hown : parts[place]? = some own)
    (hother : ∀ other part, parts[other]? = some part → other ≠ place → part.filter p = []) :
    parts.flatten.filter p = own.filter p := by
  induction parts generalizing place with
  | nil => cases hown
  | cons part parts ih =>
    rw [List.flatten_cons, List.filter_append]
    cases place with
    | zero =>
      obtain rfl : part = own := by simpa using hown
      have hnone : parts.flatten.filter p = [] := by
        refine List.filter_eq_nil_iff.mpr fun a ha hpass => ?_
        obtain ⟨later, hlater, ha⟩ := List.mem_flatten.mp ha
        obtain ⟨other, hat⟩ := List.mem_iff_getElem?.mp hlater
        have hempty := hother (other + 1) later (by simpa using hat) (by simp)
        exact List.filter_eq_nil_iff.mp hempty a ha hpass
      rw [hnone, List.append_nil]
    | succ place =>
      rw [hother 0 part rfl (by simp), List.nil_append]
      refine ih (by simpa using hown) fun other later hat hne => ?_
      exact hother (other + 1) later (by simpa using hat) (by simpa using hne)

end Pipework
