import Pipework.Proofs.GrowingTrees
import Pipework.Proofs.Bounds
import Pipework.Proofs.Outlook

/-!
# Scopes that come in behind the others

A scope that is added to the root stands behind those that are there, and what is added to it
afterwards lies behind all that lies as deep. A name that leads somewhere from a scope in the root
comes to one in that scope, to the scope itself, to one in the root, or to one in a scope of the
root, and there is nothing deeper. So it goes on leading there, as long as no new scope in the root
has that name itself, and whatever the scopes inside the new ones are called.
-/

namespace Pipework.Forest

/-- One forest comes from another by adding scopes of these names to the root and others to those
that are new, and by setting values. -/
inductive Annexes (f : Forest) : List String → Forest → Prop
  | refl : Annexes f [] f
  | scope {names : List String} {f' : Forest} (h : Annexes f names f') (name : String) :
      Annexes f (names ++ [name]) (f'.addChild root name)
  | leaf {names : List String} {f' : Forest} (h : Annexes f names f') {parent : ScopeId}
      (hnew : f.size ≤ parent) (hp : parent < f'.size) (key : String) :
      Annexes f names (f'.addChild parent key)
  | setEntry {names : List String} {f' : Forest} (h : Annexes f names f') (id : ScopeId)
      (entry : Entry) : Annexes f names (f'.setEntry id entry)

theorem findWithin_nil (f : Forest) (name : String) (levels : Nat) :
    f.findWithin name levels [] = none := by
  induction levels with
  | zero => rfl
  | succ levels ih => exact ih

section Sound

variable {f : Forest} (hf : f.Sound)

include hf

/-- There are two levels below the root. -/
theorem Sound.findBelow?_root (name : String) : f.findBelow? root name =
    (f.child? root name).or
      (((f.children root).flatMap f.children).find? fun id => f.name? id == some name) := by
  rw [findBelow?, child?]
  cases hchildren : f.children root with
  | nil =>
    rw [findWithin_nil]
    rfl
  | cons scope scopes =>
    have hmem : scope ∈ f.children root := hchildren ▸ List.mem_cons_self ..
    have hyounger : root < scope := hf.older scope root (hf.parent root scope hmem)
    obtain ⟨levels, hlevels⟩ := Nat.exists_eq_add_of_le'
      (Nat.succ_le_of_lt ((Nat.succ_le_of_lt hyounger).trans_lt (hf.lt_size hmem)))
    change f.size = levels + 2 at hlevels
    have hbare : ((f.children root).flatMap f.children).flatMap f.children = [] := by
      refine List.flatMap_eq_nil_iff.mpr fun leaf hleaf => ?_
      obtain ⟨other, hother, hin⟩ := List.mem_flatMap.mp hleaf
      exact hf.flat other hother leaf hin
    rw [← hchildren, hlevels, findWithin, findWithin, hbare, findWithin_nil, Option.or_none]

variable {start : ScopeId} (hstart : start ∈ f.children root)

include hstart

/-- From a scope in the root there is one step outwards. -/
theorem Sound.anchor?_eq (name : String) : f.anchor? start name =
    ((f.child? start name).or ((f.findAt? name start).or (f.child? root name))).or
      (f.findBelow? root name) := by
  have hparent := hf.parent root start hstart
  have htop : f.findAt? name root = f.child? root name := by
    rw [findAt?, hf.top]
    rfl
  have hchain : f.chain root = [root] := rfl
  rw [anchor?, chain_of_parent? hf hparent, hparent, Option.getD_some, hchain]
  simp only [List.findSome?_cons, List.findSome?_nil, htop]
  cases f.findAt? name start <;> cases f.child? root name <;> cases f.findBelow? root name <;> rfl

/-- A name never leads to the root. -/
theorem Sound.anchor?_ne_root {id : ScopeId} {name : String} (h : f.anchor? start name = some id) :
    id ≠ root := by
  have hchild : ∀ {parent : ScopeId}, f.child? parent name = some id → id ≠ root :=
    fun h => hf.ne_root (mem_of_child? h).1
  rw [hf.anchor?_eq hstart, hf.findBelow?_root, Option.or_eq_some_iff, Option.or_eq_some_iff,
    Option.or_eq_some_iff] at h
  rcases h with (h | ⟨-, h | ⟨-, h⟩⟩) | ⟨-, h⟩
  · exact hchild h
  · rw [findAt?] at h
    split at h
    next => exact Option.some.inj h ▸ hf.ne_root hstart
    next => exact hchild h
  · exact hchild h
  · rcases Option.or_eq_some_iff.mp h with h | ⟨-, h⟩
    · exact hchild h
    · obtain ⟨scope, -, hin⟩ := List.mem_flatMap.mp (List.mem_of_find?_eq_some h)
      exact hf.ne_root hin

/-- The name of a scope in the root leads to it from where no other scope of that name is nearer. -/
theorem Sound.anchor?_of_root (hs : f.Shapely) {name : String} {own : ScopeId}
    (hown : f.child? root name = some own) (hnone : f.child? start name = none) :
    f.anchor? start name = some own := by
  rw [hf.anchor?_eq hstart, hnone, Option.none_or, hown, findAt?, hnone]
  split
  next hself =>
    obtain rfl : start = own := by
      have hchild := hs.child?_eq_some.mpr
        ⟨hf.parent root start hstart, eq_of_beq (Bool.and_eq_true_iff.mp hself).2⟩
      exact Option.some.inj (hchild.symm.trans hown)
    rfl
  next => rfl

end Sound

section Annexes

variable {f f' : Forest} {names : List String} (h : f.Annexes names f') (hroot : root < f.size)

include h hroot

theorem Annexes.grows : f.Grows f' := by
  induction h with
  | refl => exact .refl
  | scope _ name ih => exact ih.addChild (hroot.trans_le ih.size_le) name
  | leaf _ _ hp key ih => exact ih.addChild hp key
  | setEntry _ id entry ih => exact ih.setEntry id entry

/-- Nothing comes into the scopes that were there, save the root. -/
theorem Annexes.children {id : ScopeId} (hid : id < f.size) (hne : id ≠ root) :
    f'.children id = f.children id := by
  induction h with
  | refl => rfl
  | scope h name ih =>
    rw [children_addChild (hroot.trans_le (h.grows hroot).size_le), if_neg hne, ih]
  | leaf _ hnew hp key ih => rw [children_addChild hp, if_neg (hid.trans_le hnew).ne, ih]
  | setEntry _ target entry ih => rw [children_setEntry, ih]

variable (hf : f.Layered)

include hf

/-- What comes into the root comes in last. -/
theorem Annexes.exists_children_root : ∃ added, f'.children root = f.children root ++ added ∧
    (∀ id ∈ added, f.size ≤ id) ∧ added.map f'.name? = names.map some := by
  induction h with
  | refl => exact ⟨[], (List.append_nil _).symm, fun _ hid => absurd hid List.not_mem_nil, rfl⟩
  | @scope names f' h name ih =>
    obtain ⟨added, hadded, hnew, hnames⟩ := ih
    have hp : root < f'.size := hroot.trans_le (h.grows hroot).size_le
    have hold : added.map (f'.addChild root name).name? = added.map f'.name? :=
      List.map_congr_left fun id hid => by
        have hmem : id ∈ f'.children root := hadded ▸ List.mem_append_right _ hid
        rw [name?_addChild hp, if_neg (((h.grows hroot).layered hf).younger root id hmem).2.ne]
    refine ⟨added ++ [f'.size], ?_, fun id hid => ?_, ?_⟩
    · rw [children_addChild hp, if_pos rfl, hadded, List.append_assoc]
    · rcases List.mem_append.mp hid with hid | hid
      · exact hnew id hid
      · exact List.mem_singleton.mp hid ▸ (h.grows hroot).size_le
    · rw [List.map_append, hold, hnames, List.map_append, List.map_singleton, List.map_singleton,
        name?_addChild hp, if_pos rfl]
  | @leaf names f' h parent hbehind hp key ih =>
    obtain ⟨added, hadded, hnew, hnames⟩ := ih
    refine ⟨added, ?_, hnew, ?_⟩
    · rw [children_addChild hp, if_neg (hroot.trans_le hbehind).ne, hadded]
    · rw [← hnames]
      refine List.map_congr_left fun id hid => ?_
      have hmem : id ∈ f'.children root := hadded ▸ List.mem_append_right _ hid
      rw [name?_addChild hp, if_neg (((h.grows hroot).layered hf).younger root id hmem).2.ne]
  | @setEntry names f' h target entry ih =>
    obtain ⟨added, hadded, hnew, hnames⟩ := ih
    have hsame : (f'.setEntry target entry).name? = f'.name? :=
      funext fun id => name?_setEntry f' target entry id
    exact ⟨added, by rw [children_setEntry, hadded], hnew, by rw [hsame, hnames]⟩

/-- In the scopes that were there the same is found, save what new scopes in the root are called. -/
theorem Annexes.child? {id : ScopeId} (hid : id < f.size) {name : String}
    (hname : id = root → name ∉ names) : f'.child? id name = f.child? id name := by
  induction h with
  | refl => rfl
  | scope h other ih =>
    have hnot := fun heq => not_or.mp (mt List.mem_append.mpr (hname heq))
    rw [child?_addChild (hroot.trans_le (h.grows hroot).size_le) other ((h.grows hroot).layered hf),
      ih fun heq => (hnot heq).1, if_neg, Option.or_none]
    exact fun hand => (hnot hand.1).2 (List.mem_singleton.mpr hand.2)
  | leaf h hnew hp key ih =>
    rw [child?_addChild hp key ((h.grows hroot).layered hf), ih hname,
      if_neg fun hand => (hid.trans_le hnew).ne hand.1, Option.or_none]
  | setEntry _ target entry ih => rw [child?_setEntry, ih hname]

theorem Annexes.findAt? {id : ScopeId} (hid : id < f.size) (hne : id ≠ root) (name : String) :
    f'.findAt? name id = f.findAt? name id := by
  have hgrows := h.grows hroot
  rw [Forest.findAt?, Forest.findAt?, hgrows.parent? hid, hgrows.name? hid,
    h.child? hroot hf hid fun heq => absurd heq hne]

/-- The way down stays the same. -/
theorem Annexes.descend? {id : ScopeId} {path : List String} {found : ScopeId × Nat}
    (hid : id < f.size) (hne : id ≠ root) (hdown : f.descend? id path = some found) :
    f'.descend? id path = some found := by
  induction path generalizing id found with
  | nil => exact hdown
  | cons segment rest ih =>
    rw [Forest.descend?] at hdown ⊢
    rw [h.child? hroot hf hid fun heq => absurd heq hne]
    cases hchild : f.child? id segment with
    | some next =>
      simp only [hchild] at hdown ⊢
      obtain ⟨further, hfurther, rfl⟩ := Option.map_eq_some_iff.mp hdown
      obtain ⟨hyounger, hnext⟩ := hf.younger id next (mem_of_child? hchild).1
      rw [ih hnext (Nat.ne_of_gt ((Nat.zero_le id).trans_lt hyounger)) hfurther, Option.map_some]
    | none =>
      simp only [hchild, Option.ite_none_right_eq_some] at hdown ⊢
      exact ⟨(h.grows hroot).isSome_raw? hdown.1, hdown.2⟩

/-- No new scope in the root has the name of one that was there. -/
theorem Annexes.not_mem_names (hnodup : ((f'.children root).map f'.name?).Nodup) {name : String}
    {own : ScopeId} (hown : f.child? root name = some own) : name ∉ names := by
  intro hmem
  obtain ⟨added, hadded, -, hnames⟩ := h.exists_children_root hroot hf
  obtain ⟨hin, hname⟩ := mem_of_child? hown
  rw [hadded, List.map_append, hnames] at hnodup
  refine hnodup.disjoint (List.mem_map_of_mem hin) ?_ |>.elim
  rw [(h.grows hroot).name? (hf.younger root own hin).2, hname]
  exact List.mem_map_of_mem hmem

/-- A scope in the root with one of the names is new. -/
theorem Annexes.size_le_of_mem (hnodup : ((f'.children root).map f'.name?).Nodup) {name : String}
    (hname : name ∈ names) {scope : ScopeId} (hscope : f'.child? root name = some scope) :
    f.size ≤ scope := by
  obtain ⟨added, hadded, hnew, -⟩ := h.exists_children_root hroot hf
  obtain ⟨hin, hcalled⟩ := mem_of_child? hscope
  rcases List.mem_append.mp (hadded ▸ hin) with hold | hnewcomer
  · rw [(h.grows hroot).name? (hf.younger root scope hold).2] at hcalled
    cases hown : f.child? root name with
    | none => exact absurd hcalled (ne_of_child?_eq_none hown hold)
    | some own => exact absurd hname (h.not_mem_names hroot hf hnodup hown)
  · exact hnew scope hnewcomer

end Annexes

section Lookup

variable {f f' : Forest} {names : List String} (h : f.Annexes names f') (hroot : root < f.size)
  (hf : f.Sound) (hf' : f'.Sound) {name : String} (hname : name ∉ names)

include h hroot hf hf' hname

/-- What was found inside the root lies ahead of all that is new and as deep. -/
theorem Annexes.findBelow?_root {id : ScopeId} (hfind : f.findBelow? root name = some id) :
    f'.findBelow? root name = some id := by
  rw [hf.findBelow?_root, Option.or_eq_some_iff] at hfind
  rw [hf'.findBelow?_root, h.child? hroot hf.layered hroot fun _ => hname, Option.or_eq_some_iff]
  refine hfind.imp_right fun ⟨hnone, hfind⟩ => ⟨hnone, ?_⟩
  obtain ⟨added, hadded, -, -⟩ := h.exists_children_root hroot hf.layered
  have hold : (f.children root).flatMap f'.children = (f.children root).flatMap f.children :=
    List.flatMap_congr fun scope hs => h.children hroot (hf.lt_size hs) (hf.ne_root hs)
  have hsame : ((f.children root).flatMap f.children).find? (fun id => f'.name? id == some name) =
      ((f.children root).flatMap f.children).find? fun id => f.name? id == some name := by
    refine List.find?_congr fun leaf hleaf => ?_
    obtain ⟨scope, -, hin⟩ := List.mem_flatMap.mp hleaf
    rw [(h.grows hroot).name? (hf.lt_size hin)]
  rw [hadded, List.flatMap_append, hold, List.find?_append, hsame, hfind, Option.some_or]

variable {start : ScopeId} (hstart : start ∈ f.children root)

include hstart

theorem Annexes.anchor? {id : ScopeId} (hanchor : f.anchor? start name = some id) :
    f'.anchor? start name = some id := by
  have hlt := hf.lt_size hstart
  have hne := hf.ne_root hstart
  have hstart' : start ∈ f'.children root := by
    obtain ⟨added, hadded, -, -⟩ := h.exists_children_root hroot hf.layered
    exact hadded ▸ List.mem_append_left _ hstart
  rw [hf.anchor?_eq hstart, Option.or_eq_some_iff] at hanchor
  rw [hf'.anchor?_eq hstart', h.child? hroot hf.layered hlt fun heq => absurd heq hne,
    h.findAt? hroot hf.layered hlt hne, h.child? hroot hf.layered hroot fun _ => hname,
    Option.or_eq_some_iff]
  exact hanchor.imp_right fun ⟨hnone, hfind⟩ => ⟨hnone, h.findBelow?_root hroot hf hf' hname hfind⟩

/-- What a reference leads to, it goes on leading to. -/
theorem Annexes.lookup? {rest : List String} {found : ScopeId × Nat}
    (hlookup : f.lookup? start (name :: rest) = some found) :
    f'.lookup? start (name :: rest) = some found := by
  obtain ⟨anchor, hanchor, hlookup⟩ := Option.bind_eq_some_iff.mp hlookup
  obtain ⟨further, hdown, hfound⟩ := Option.bind_eq_some_iff.mp hlookup
  refine Option.bind_eq_some_iff.mpr ⟨anchor, h.anchor? hroot hf hf' hname hstart hanchor, ?_⟩
  refine Option.bind_eq_some_iff.mpr ⟨further, ?_, hfound⟩
  exact h.descend? hroot hf.layered (lt_size_of_name? (name?_of_anchor? hanchor))
    (hf.anchor?_ne_root hstart hanchor) hdown

end Lookup

end Pipework.Forest
