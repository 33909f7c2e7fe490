import Pipework.Proofs.Forest

/-!
# References in a forest that grows

A scope that is added has neither a value nor scopes in it. It may stand in the way of references
that led elsewhere, but none leads by way of it to a value. So a reference that leads to a value
afterwards led there before.
-/

namespace Pipework.Forest

/-- What was found is found again, unless the new scope is found. -/
def SameOrNew (new : ScopeId) (before after : Option ScopeId) : Prop :=
  after = before ∨ after = some new

section SameOrNew

variable {new : ScopeId}

/-- What is looked for in one place and then in another is found as before, or is new. -/
theorem SameOrNew.or {x x' y y' : Option ScopeId} (h : SameOrNew new x x')
    (h' : SameOrNew new y y') : SameOrNew new (x.or y) (x'.or y') := by
  rcases h with rfl | rfl
  · cases x' with
    | some a => exact .inl rfl
    | none => simpa only [Option.none_or] using h'
  · exact .inr rfl

/-- What is looked for in several scopes is found as before, or is new. -/
theorem SameOrNew.findSome? {scopes : List ScopeId} {find find' : ScopeId → Option ScopeId}
    (h : ∀ a ∈ scopes, SameOrNew new (find a) (find' a)) :
    SameOrNew new (scopes.findSome? find) (scopes.findSome? find') := by
  have hcons : ∀ (g : ScopeId → Option ScopeId) a rest,
      (a :: rest).findSome? g = (g a).or (rest.findSome? g) := by
    intro g a rest
    rw [List.findSome?_cons]
    cases g a <;> rfl
  induction scopes with
  | nil => exact .inl rfl
  | cons a scopes ih =>
    rw [hcons, hcons]
    exact (h a List.mem_cons_self).or (ih fun b hb => h b (List.mem_cons_of_mem a hb))

/-- Nothing else is found among scopes that the new one was put between. -/
theorem SameOrNew.find? {test test' : ScopeId → Bool} {scopes scopes' : List ScopeId}
    (hscopes : scopes'.filter (· ≠ new) = scopes) (htest : ∀ a ∈ scopes, test' a = test a) :
    SameOrNew new (scopes.find? test) (scopes'.find? test') := by
  induction scopes' generalizing scopes with
  | nil =>
    subst hscopes
    exact .inl rfl
  | cons a rest ih =>
    by_cases ha : a = new
    · rw [List.filter_cons_of_neg (by simpa using ha)] at hscopes
      rw [List.find?_cons]
      split
      · exact .inr (congrArg some ha)
      · exact ih hscopes htest
    · rw [List.filter_cons_of_pos (by simpa using ha)] at hscopes
      subst hscopes
      rw [List.find?_cons, List.find?_cons, htest a List.mem_cons_self]
      split
      · exact .inl rfl
      · exact ih rfl fun b hb => htest b (List.mem_cons_of_mem a hb)

end SameOrNew

/-- Scopes lie no deeper than there are scopes, so looking one level deeper finds nothing more. -/
theorem Layered.findWithin_succ {f : Forest} (hf : f.Layered) (name : String) {level levels : Nat}
    {scopes : List ScopeId} (hscopes : ∀ a ∈ scopes, level ≤ a ∧ a < f.size)
    (hdeep : f.size ≤ level + levels) :
    f.findWithin name (levels + 1) scopes = f.findWithin name levels scopes := by
  induction levels generalizing level scopes with
  | zero =>
    obtain rfl : scopes = [] := by
      refine List.eq_nil_iff_forall_not_mem.mpr fun a ha => ?_
      exact absurd (hscopes a ha).2 (Nat.not_lt.mpr (hdeep.trans (hscopes a ha).1))
    rfl
  | succ levels ih =>
    rw [findWithin, findWithin.eq_2 f name scopes levels]
    congr 1
    refine @ih (level + 1) _ (fun b hb => ?_) (by omega)
    obtain ⟨a, ha, hb⟩ := List.mem_flatMap.mp hb
    obtain ⟨hbelow, hlt⟩ := hf.younger a b hb
    exact ⟨(hscopes a ha).1.trans_lt hbelow, hlt⟩

/-- What is around a scope is there. -/
theorem Layered.lt_of_mem_chain {f : Forest} (hf : f.Layered) {id above : ScopeId}
    (h : above ∈ f.chain id) (hid : id < f.size) : above < f.size := by
  have hsteps : ∀ steps id, id < f.size → ∀ a ∈ f.chainWithin steps id, a < f.size := by
    intro steps
    induction steps with
    | zero =>
      intro id hid a ha
      rwa [List.mem_singleton.mp ha]
    | succ steps ih =>
      intro id hid a ha
      rw [chainWithin] at ha
      cases habove : f.parent? id with
      | none =>
        simp only [habove, List.mem_singleton] at ha
        rwa [ha]
      | some above =>
        simp only [habove, List.mem_cons] at ha
        rcases ha with rfl | ha
        · exact hid
        · exact ih above ((hf.older id above habove).trans hid) a ha
  exact hsteps id id hid above h

section AddChild

/-- There is one more scope. -/
theorem size_addChild (f : Forest) (parent : ScopeId) (name : String) :
    (f.addChild parent name).size = f.size + 1 := by
  simp [addChild, modify, size]

variable {f : Forest} (hf : f.Layered) {parent : ScopeId} (hp : parent < f.size) (name : String)

include hp

/-- The new scope has no scopes in it. -/
theorem children_addChild_size : (f.addChild parent name).children f.size = [] := by
  rw [children_addChild hp, if_neg (Nat.ne_of_gt hp), children, get?_size]
  rfl

/-- From the new scope no segments lead on. -/
theorem descend?_addChild_size {path : List String} {found : ScopeId × Nat}
    (h : (f.addChild parent name).descend? f.size path = some found) : found.1 = f.size := by
  cases path with
  | nil => exact congrArg Prod.fst (Option.some.inj h).symm
  | cons segment rest =>
    have hchild : (f.addChild parent name).child? f.size segment = none := by
      rw [child?, children_addChild_size hp, List.find?_nil]
    simp only [descend?, hchild] at h
    split at h
    · exact congrArg Prod.fst (Option.some.inj h).symm
    · cases h

include hf

/-- A scope that is added is younger than the one around it. -/
theorem Layered.addChild : (f.addChild parent name).Layered where
  older id other hid := by
    rw [parent?_addChild hp] at hid
    split at hid
    next hnew => rwa [hnew, ← Option.some.inj hid]
    · exact hf.older id other hid
  younger id child hc := by
    rw [size_addChild]
    rw [children_addChild hp] at hc
    have hold : child ∈ f.children id → id < child ∧ child < f.size + 1 := fun h =>
      (hf.younger id child h).imp_right Nat.lt_succ_of_lt
    split at hc
    next hid =>
      rcases List.mem_append.mp hc with hc | hc
      · exact hold hc
      · rw [List.mem_singleton.mp hc, hid]
        exact ⟨hp, Nat.lt_succ_self _⟩
    · exact hold hc

/-- Apart from the new scope there are the same scopes in each scope. -/
theorem filter_children_addChild (id : ScopeId) :
    ((f.addChild parent name).children id).filter (· ≠ f.size) = f.children id := by
  have hold : (f.children id).filter (· ≠ f.size) = f.children id :=
    List.filter_eq_self.mpr fun c hc => by simpa using Nat.ne_of_lt (hf.younger id c hc).2
  rw [children_addChild hp]
  split
  · rw [List.filter_append, hold, List.filter_cons_of_neg (by simp), List.filter_nil,
      List.append_nil]
  · exact hold

/-- Apart from the new scope there are the same scopes on each level. -/
theorem filter_flatMap_children_addChild {scopes scopes' : List ScopeId}
    (h : scopes'.filter (· ≠ f.size) = scopes) :
    (scopes'.flatMap (f.addChild parent name).children).filter (· ≠ f.size) =
      scopes.flatMap f.children := by
  subst h
  induction scopes' with
  | nil => rfl
  | cons a rest ih =>
    rw [List.flatMap_cons, List.filter_append, ih]
    by_cases ha : a = f.size
    · rw [List.filter_cons_of_neg (by simpa using ha), ha, children_addChild_size hp,
        List.filter_nil, List.nil_append]
    · rw [List.filter_cons_of_pos (by simpa using ha), List.flatMap_cons,
        filter_children_addChild hf hp]

/-- Under a name in a scope there is what was there, or the new scope. -/
theorem sameOrNew_child? (id : ScopeId) (other : String) :
    SameOrNew f.size (f.child? id other) ((f.addChild parent name).child? id other) := by
  rw [child?_addChild hp name hf]
  cases f.child? id other with
  | some c => exact .inl rfl
  | none =>
    rw [Option.none_or]
    split
    · exact .inr rfl
    · exact .inl rfl

/-- Going outwards one comes through the same scopes. -/
theorem chain_addChild {id : ScopeId} (hid : id < f.size) :
    (f.addChild parent name).chain id = f.chain id := by
  have hsteps : ∀ steps id, id < f.size →
      (f.addChild parent name).chainWithin steps id = f.chainWithin steps id := by
    intro steps
    induction steps with
    | zero => exact fun _ _ => rfl
    | succ steps ih =>
      intro id hid
      rw [chainWithin, chainWithin, parent?_addChild hp, if_neg (Nat.ne_of_lt hid)]
      cases habove : f.parent? id with
      | none => rfl
      | some above => exact congrArg _ (ih above ((hf.older id above habove).trans hid))
  exact hsteps id id hid

/-- At one step outwards a name leads where it led, or to the new scope. -/
theorem sameOrNew_findAt? {id : ScopeId} (hid : id < f.size) (other : String) :
    SameOrNew f.size (f.findAt? other id) ((f.addChild parent name).findAt? other id) := by
  rw [findAt?, findAt?, parent?_addChild hp, name?_addChild hp, if_neg (Nat.ne_of_lt hid),
    if_neg (Nat.ne_of_lt hid)]
  split
  · exact .inl rfl
  · exact sameOrNew_child? hf hp name id other

/-- On the levels below some scopes a name leads where it led, or to the new scope. -/
theorem sameOrNew_findWithin (other : String) (levels : Nat) {scopes scopes' : List ScopeId}
    (h : scopes'.filter (· ≠ f.size) = scopes) :
    SameOrNew f.size (f.findWithin other levels scopes)
      ((f.addChild parent name).findWithin other levels scopes') := by
  induction levels generalizing scopes scopes' with
  | zero => exact .inl rfl
  | succ levels ih =>
    rw [findWithin, findWithin]
    refine (SameOrNew.find? h fun a ha => ?_).or (ih (filter_flatMap_children_addChild hf hp name h))
    rw [← h] at ha
    have hne : a ≠ f.size := of_decide_eq_true (List.mem_filter.mp ha).2
    rw [name?_addChild hp, if_neg hne]

/-- Below a scope a name leads where it led, or to the new scope. -/
theorem sameOrNew_findBelow? (id : ScopeId) (other : String) :
    SameOrNew f.size (f.findBelow? id other) ((f.addChild parent name).findBelow? id other) := by
  have hdeeper : f.findWithin other (f.size + 1) (f.children id) = f.findBelow? id other :=
    hf.findWithin_succ other (fun a ha => ⟨Nat.zero_le a, (hf.younger id a ha).2⟩) (by omega)
  rw [← hdeeper, findBelow?, size_addChild]
  exact sameOrNew_findWithin hf hp name other _ (filter_children_addChild hf hp name id)

/-- A name in a reference leads where it led, or to the new scope. -/
theorem sameOrNew_anchor? {start : ScopeId} (hstart : start < f.size) (other : String) :
    SameOrNew f.size (f.anchor? start other) ((f.addChild parent name).anchor? start other) := by
  have hhigh : (f.parent? start).getD start < f.size := by
    cases habove : f.parent? start with
    | none => exact hstart
    | some above => exact (hf.older start above habove).trans hstart
  rw [anchor?, anchor?, parent?_addChild hp, if_neg (Nat.ne_of_lt hstart), chain_addChild hf hp name hstart,
    chain_addChild hf hp name hhigh]
  refine ((sameOrNew_child? hf hp name start other).or ?_).or ?_
  · exact .findSome? fun a ha => sameOrNew_findAt? hf hp name (hf.lt_of_mem_chain ha hstart) other
  · exact .findSome? fun a _ => sameOrNew_findBelow? hf hp name a other

/-- A way down that does not end in the new scope was there before. -/
theorem descend?_of_addChild {id : ScopeId} {path : List String} {found : ScopeId × Nat}
    (h : (f.addChild parent name).descend? id path = some found) (hfound : found.1 ≠ f.size) :
    f.descend? id path = some found := by
  induction path generalizing id found with
  | nil => exact h
  | cons segment rest ih =>
    rw [descend?] at h ⊢
    rcases sameOrNew_child? hf hp name id segment with hsame | hnew
    · rw [hsame, raw?_addChild hp] at h
      cases hchild : f.child? id segment with
      | none => simpa only [hchild] using h
      | some next =>
        simp only [hchild] at h ⊢
        obtain ⟨further, hfurther, rfl⟩ := Option.map_eq_some_iff.mp h
        rw [ih hfurther hfound, Option.map_some]
    · simp only [hnew] at h
      obtain ⟨further, hfurther, rfl⟩ := Option.map_eq_some_iff.mp h
      exact absurd (descend?_addChild_size hp name hfurther) hfound

/-- A reference that leads to a value after a scope was added has led there before. -/
theorem lookup?_of_addChild {start : ScopeId} (hstart : start < f.size) {path : List String}
    {id : ScopeId} {consumed : Nat}
    (h : (f.addChild parent name).lookup? start path = some (id, consumed))
    (hid : (f.raw? id).isSome) : f.lookup? start path = some (id, consumed) := by
  have hne : id ≠ f.size := by
    rintro rfl
    rw [raw?, content?, get?_size] at hid
    cases hid
  cases path with
  | nil => cases h
  | cons first rest =>
    obtain ⟨anchor, hanchor, h⟩ := Option.bind_eq_some_iff.mp h
    obtain ⟨found, hfound, h⟩ := Option.bind_eq_some_iff.mp h
    obtain ⟨rfl, rfl⟩ := Prod.mk.inj (Option.some.inj h)
    rcases sameOrNew_anchor? hf hp name hstart first with hsame | hnew
    · refine Option.bind_eq_some_iff.mpr ⟨anchor, hsame ▸ hanchor, ?_⟩
      exact Option.bind_eq_some_iff.mpr ⟨found, descend?_of_addChild hf hp name hfound hne, rfl⟩
    · obtain rfl : anchor = f.size := Option.some.inj (hanchor.symm.trans hnew)
      exact absurd (descend?_addChild_size hp name hfound) hne

end AddChild

/-- Setting a value leaves the ages of scopes. -/
theorem Layered.setEntry {f : Forest} (hf : f.Layered) (target : ScopeId) (entry : Entry) :
    (f.setEntry target entry).Layered where
  older id parent hid := by
    rw [parent?_setEntry] at hid
    exact hf.older id parent hid
  younger parent child hc := by
    rw [children_setEntry] at hc
    have hsize : (f.setEntry target entry).size = f.size := List.length_modify _ _ _
    rw [hsize]
    exact hf.younger parent child hc

section Detach

variable (f : Forest) (parent target : ScopeId)

/-- Changing a scope changes none of the others. -/
theorem get?_modify (id : ScopeId) (change : Scope → Scope) (other : ScopeId) :
    (f.modify id change).get? other = if other = id then (f.get? other).map change else f.get? other := by
  change (f.scopes.modify id change)[other]? = _
  rw [List.getElem?_modify]
  by_cases h : other = id
  · simp [h, get?]
  · simp [h, Ne.symm h, get?]

/-- A scope that is taken out is still there, so that all handles stay. -/
theorem size_detach : (f.detach parent target).size = f.size := by
  simp [detach, modify, size]

/-- The forest with a scope taken out of another one, scope by scope. -/
theorem get?_detach (id : ScopeId) : (f.detach parent target).get? id =
    (f.get? id).map fun scope => { scope with
      parent? := if id = target then none else scope.parent?
      children := if id = parent then scope.children.filter (· ≠ target) else scope.children } := by
  rw [detach, get?_modify, get?_modify]
  cases f.get? id with
  | none => simp
  | some scope => split <;> split <;> rfl

/-- The scope is no longer in the one it was in, and all else is where it was. -/
theorem children_detach (id : ScopeId) : (f.detach parent target).children id =
    if id = parent then (f.children id).filter (· ≠ target) else f.children id := by
  rw [children, children, get?_detach]
  cases f.get? id with
  | none => simp
  | some scope => rfl

/-- Scopes keep their names when one is taken out. -/
theorem name?_detach (id : ScopeId) : (f.detach parent target).name? id = f.name? id := by
  rw [name?, name?, get?_detach]
  cases f.get? id <;> rfl

/-- A scope that is taken out has nothing around it. -/
theorem parent?_detach (id : ScopeId) : (f.detach parent target).parent? id =
    if id = target then none else f.parent? id := by
  rw [parent?, parent?, get?_detach]
  cases f.get? id with
  | none => simp
  | some scope => rfl

/-- Scopes keep what they hold when one is taken out. -/
theorem content?_detach (id : ScopeId) :
    (f.detach parent target).content? id = f.content? id := by
  rw [content?, content?, get?_detach]
  cases f.get? id <;> rfl

/-- Nothing comes in when a scope is taken out. -/
theorem subset_children_detach (id : ScopeId) :
    (f.detach parent target).children id ⊆ f.children id := by
  rw [children_detach]
  split
  · exact List.filter_sublist.subset
  · exact List.Subset.refl _

/-- What has a scope around it afterwards had it around it before. -/
theorem parent?_of_detach {id above : ScopeId} (h : (f.detach parent target).parent? id = some above) :
    f.parent? id = some above := by
  rw [parent?_detach] at h
  split at h
  · cases h
  · exact h

/-- Taking a scope out leaves the ages of scopes. -/
theorem Layered.detach {f : Forest} (hf : f.Layered) (parent target : ScopeId) :
    (f.detach parent target).Layered where
  older id above hid := hf.older id above (parent?_of_detach f parent target hid)
  younger id child hc := by
    rw [size_detach]
    exact hf.younger id child (subset_children_detach f parent target id hc)

end Detach

end Pipework.Forest
