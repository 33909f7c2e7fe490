import Pipework.Proofs.Handing

/-!
# Values that come to the same later

What a value comes to may be remembered at two moments, between which scopes are added, nodes are
replaced and values change. It is the same at both if the value itself did not change between them,
nor any that it leads to from reference to reference, and if it leads there by names that a new
scope cannot come to bear.
-/

namespace Pipework

open Step Resolve

namespace Resolve

/-- Where two functions never answer a reference differently, a value comes to the same with both. -/
theorem valueWith_unique {answer answer' : List String → Except ScopeError Value} {raw v w : Value}
    (h : ∀ path ∈ raw.references, ∀ a b, answer path = .ok a → answer' path = .ok b → a = b)
    (hv : valueWith answer raw = .ok v) (hw : valueWith answer' raw = .ok w) : v = w := by
  -- One that answers whatever either of them answers.
  let both : List String → Except ScopeError Value := fun path =>
    match answer path with
    | .ok a => .ok a
    | .error _ => answer' path
  have hfirst : valueWith both raw = .ok v := by
    refine valueWith_mono (fun path _ a ha => ?_) hv
    simp only [both, ha]
  have hsecond : valueWith both raw = .ok w := by
    refine valueWith_mono (fun path hp b hb => ?_) hw
    cases ha : answer path with
    | error e => simp only [both, ha, hb]
    | ok a => simp only [both, ha, h path hp a b ha hb]
  exact Except.ok.inj (hfirst.symm.trans hsecond)

end Resolve

namespace Forest

variable {f f' : Forest} {owner? other? : Option String} {key key' : String}
  {path fields : List String}

/-- A scope of the root by its name, or the root itself. -/
def room? (f : Forest) : Option String → Option ScopeId
  | some owner => f.child? root owner
  | none => some root

/-- The scope of a key there. -/
def place? (f : Forest) (owner? : Option String) (key : String) : Option ScopeId :=
  (f.room? owner?).bind (f.child? · key)

/-- The value of a key there. -/
def entry? (f : Forest) (owner? : Option String) (key : String) : Option Value :=
  (f.place? owner? key).bind f.raw?

theorem entry?_some (f : Forest) (owner key : String) :
    f.entry? (some owner) key = (f.leaf? owner key).bind f.raw? := rfl

/-- A reference in a value of a scope of the root, or of the root itself, leads to a value there, and
goes on with segments that ask for parts. -/
inductive PointsTo (f : Forest) :
    Option String → List String → Option String → String → List String → Prop
  | own {owner? : Option String} {key : String} {fields : List String}
      (hkey : (f.entry? owner? key).isSome) : PointsTo f owner? (key :: fields) owner? key fields
  | shared {owner key : String} {fields : List String} (hfree : f.leaf? owner key = none)
      (hname : owner ≠ key) (hkey : (f.entry? none key).isSome) :
      PointsTo f (some owner) (key :: fields) none key fields
  | named {owner other key : String} {fields : List String}
      (hfree : f.leaf? owner other = none) (hkey : (f.entry? (some other) key).isSome) :
      PointsTo f (some owner) (other :: key :: fields) (some other) key fields

/-- The reference is found where it points. -/
theorem PointsTo.beside (hf : f.Sound) (h : f.PointsTo owner? path other? key fields)
    {start : ScopeId} (hstart : f.room? owner? = some start) :
    ∃ leaf consumed, f.Beside start path leaf consumed ∧ f.place? other? key = some leaf ∧
      (f.raw? leaf).isSome ∧ path.drop consumed = fields := by
  have hfound : ∀ {owner? key}, (f.entry? owner? key).isSome →
      ∃ leaf, f.place? owner? key = some leaf ∧ (f.raw? leaf).isSome := by
    intro owner? key hkey
    obtain ⟨raw, hraw⟩ := Option.isSome_iff_exists.mp hkey
    obtain ⟨leaf, hleaf, hvalue⟩ := Option.bind_eq_some_iff.mp hraw
    exact ⟨leaf, hleaf, Option.isSome_of_eq_some hvalue⟩
  cases h with
  | own hkey =>
    obtain ⟨leaf, hleaf, hraw⟩ := hfound hkey
    refine ⟨leaf, 1, .own ?_, hleaf, hraw, rfl⟩
    rwa [place?, hstart] at hleaf
  | @shared owner key _ hfree hname hkey =>
    have hscope : f.child? root owner = some start := hstart
    rw [leaf?, hscope, Option.bind_some] at hfree
    obtain ⟨leaf, hleaf, hraw⟩ := hfound hkey
    obtain ⟨hmem, hown⟩ := mem_of_child? hscope
    refine ⟨leaf, 1, .shared hfree ?_ (hf.parent _ _ hmem) hleaf, hleaf, hraw, rfl⟩
    rw [hown]
    exact fun heq => hname (Option.some.inj heq)
  | @named owner other key _ hfree hkey =>
    have hscope : f.child? root owner = some start := hstart
    rw [leaf?, hscope, Option.bind_some] at hfree
    obtain ⟨leaf, hleaf, hraw⟩ := hfound hkey
    obtain ⟨scope, hat, hchild⟩ := Option.bind_eq_some_iff.mp hleaf
    obtain ⟨hmem, hown⟩ := mem_of_child? hscope
    refine ⟨leaf, 2, .named hfree (fun hself => ?_) (hf.parent _ _ hmem) hat hchild, hleaf, hraw,
      rfl⟩
    obtain rfl : owner = other := Option.some.inj (hown.symm.trans hself)
    exact Option.some.inj (hat.symm.trans hscope)

/-- A key of its own goes before all else. -/
theorem PointsTo.eq_of_own {owner : String} {rest : List String}
    (hkey : (f.entry? (some owner) key).isSome)
    (h : f.PointsTo (some owner) (key :: rest) other? key' fields) :
    other? = some owner ∧ key' = key := by
  cases h with
  | own _ => exact ⟨rfl, rfl⟩
  | shared hfree _ _ => simp [entry?_some, hfree] at hkey
  | named hfree _ => simp [entry?_some, hfree] at hkey

/-- A value that may not change, and neither may those that its references lead to, nor those that
theirs do. -/
inductive Lasting (f : Forest) (fixed : Option String → String → Prop) :
    Option String → String → Prop
  | intro {owner? : Option String} {key : String} {raw : Value} (hfixed : fixed owner? key)
      (hraw : f.entry? owner? key = some raw)
      (hleads : ∀ path ∈ raw.references, ∃ other? key' fields,
        f.PointsTo owner? path other? key' fields)
      (hlasting : ∀ path ∈ raw.references, ∀ other? key' fields,
        f.PointsTo owner? path other? key' fields → Lasting f fixed other? key') :
      Lasting f fixed owner? key

/-- The value is fixed between the moment that a forest is of and a later one: it is there already,
and keys that are not used later are not used yet. -/
def Fixed (f f' : Forest) (owner? : Option String) (key : String) : Prop :=
  f.entry? owner? key = f'.entry? owner? key ∧
    ∀ owner ∈ owner?, ∀ other, f'.leaf? owner other = none → f.leaf? owner other = none

theorem PointsTo.before (h : f'.PointsTo owner? path other? key' fields)
    (howner : f.Fixed f' owner? key) (hother : f.Fixed f' other? key') :
    f.PointsTo owner? path other? key' fields := by
  cases h with
  | own hkey => exact .own (hother.1 ▸ hkey)
  | shared hfree hname hkey => exact .shared (howner.2 _ rfl _ hfree) hname (hother.1 ▸ hkey)
  | named hfree hkey => exact .named (howner.2 _ rfl _ hfree) (hother.1 ▸ hkey)

end Forest

namespace Resolve

/-- What is remembered of the value of a key in a scope of the root, or in the root itself. -/
def Stored (f : Forest) (m : Memo) (owner? : Option String) (key : String) (v : Value) : Prop :=
  ∃ leaf, f.place? owner? key = some leaf ∧ m.lookup leaf = some v

/-- A reference is answered with what is remembered where it points. -/
theorem stored_of_fromMemory {f : Forest} {m : Memo} (hf : f.Sound) {owner? other? : Option String}
    {path fields : List String} {key : String} (h : f.PointsTo owner? path other? key fields)
    {start : ScopeId} (hstart : f.room? owner? = some start) {w : Value}
    (hw : fromMemory f m start path = .ok w) :
    ∃ v, Stored f m other? key v ∧ FileField.derive v fields (joinPath path) = .ok w := by
  obtain ⟨leaf, consumed, hbeside, hleaf, hraw, rfl⟩ := h.beside hf hstart
  obtain ⟨v, hv, hderive⟩ := exists_lookup_of_fromMemory (hbeside.lookup? hf hraw) hw
  exact ⟨v, ⟨leaf, hleaf, hv⟩, hderive⟩

/-- What is remembered of a value is what it comes to, if its references point to values. -/
theorem valueWith_of_stored {f : Forest} {m : Memo} (hf : f.Sound) (hc : Consistent f m)
    {owner? : Option String} {key : String} {raw v : Value} (hraw : f.entry? owner? key = some raw)
    (hleads : ∀ path ∈ raw.references, ∃ other? key' fields,
      f.PointsTo owner? path other? key' fields) (hv : Stored f m owner? key v) :
    ∃ start, f.room? owner? = some start ∧ valueWith (fromMemory f m start) raw = .ok v := by
  obtain ⟨leaf, hleaf, hlookup⟩ := hv
  obtain ⟨start, hstart, hchild⟩ := Option.bind_eq_some_iff.mp hleaf
  rw [Forest.entry?, hleaf] at hraw
  have hparent := hf.parent start leaf (Forest.mem_of_child? hchild).1
  have hfrom := hc leaf v raw hlookup hraw ⟨start, hparent, fun path hp => ?_⟩
  · rw [hparent, Option.getD_some] at hfrom
    exact ⟨start, hstart, hfrom⟩
  · obtain ⟨other?, key', fields, hpoints⟩ := hleads path hp
    obtain ⟨target, consumed, hbeside, -, hvalue, -⟩ := hpoints.beside hf hstart
    exact ⟨target, consumed, hbeside, hvalue⟩

/-- What is remembered of a lasting value is the same at both moments. The induction follows the
references. -/
theorem stored_unique {f f' : Forest} {m m' : Memo} (hf : f.Sound) (hf' : f'.Sound)
    (hc : Consistent f m) (hc' : Consistent f' m') {fixed : Option String → String → Prop}
    (hfixed : ∀ owner? key, fixed owner? key → f.Fixed f' owner? key) {owner? : Option String}
    {key : String} (h : f'.Lasting fixed owner? key) {v w : Value} (hv : Stored f m owner? key v)
    (hw : Stored f' m' owner? key w) : v = w := by
  induction h generalizing v w with
  | @intro owner? key raw hfix hraw hleads hlasting ih =>
    have hsame := hfixed owner? key hfix
    have hbefore : ∀ path ∈ raw.references, ∀ other? key' fields,
        f'.PointsTo owner? path other? key' fields →
          f.PointsTo owner? path other? key' fields := by
      intro path hp other? key' fields hpoints
      cases hlasting path hp other? key' fields hpoints with
      | intro hfix' => exact hpoints.before hsame (hfixed other? key' hfix')
    obtain ⟨start, hstart, hvalue⟩ := valueWith_of_stored hf hc (hsame.1.trans hraw)
      (fun path hp => by
        obtain ⟨other?, key', fields, hpoints⟩ := hleads path hp
        exact ⟨other?, key', fields, hbefore path hp other? key' fields hpoints⟩) hv
    obtain ⟨start', hstart', hvalue'⟩ := valueWith_of_stored hf' hc' hraw hleads hw
    refine valueWith_unique (fun path hp a b ha hb => ?_) hvalue hvalue'
    obtain ⟨other?, key', fields, hpoints⟩ := hleads path hp
    obtain ⟨u, hu, ha⟩ :=
      stored_of_fromMemory hf (hbefore path hp other? key' fields hpoints) hstart ha
    obtain ⟨u', hu', hb⟩ := stored_of_fromMemory hf' hpoints hstart' hb
    obtain rfl := ih path hp other? key' fields hpoints hu hu'
    exact Except.ok.inj (ha.symm.trans hb)

end Resolve

namespace Graph

/-- The values that do not change any more once all has arrived at a node: those of that node, those
that no edge leads to, and what all nodes share. -/
def Untouched (repeated prepared : Graph) (source : NodeId) : Option String → String → Prop
  | some owner, key => ∃ node ∈ prepared.nodes, node.name = owner ∧
      node.id ∈ repeated.nodes.map (·.id) ∧
      (node.id = source ∨ Unfed repeated.edges node.id key)
  | none, _ => True

theorem Mirrored.entry?_eq {g : Graph} (hm : g.Mirrored) {node : Node} (hn : node ∈ g.nodes)
    (key : String) : g.scope.forest.entry? (some node.name) key = node.configured? key := by
  have hheld := hm.held node hn key
  rw [Forest.held?] at hheld
  rw [Forest.entry?_some]
  cases hleaf : g.scope.forest.leaf? node.name key with
  | none =>
    rw [hleaf] at hheld
    exact (Option.map_eq_none_iff.mp hheld.symm).symm
  | some leaf =>
    rw [hleaf] at hheld
    obtain ⟨raw, hraw, hvalue⟩ := Option.map_eq_some_iff.mp hheld.symm
    rw [Option.bind_some, hraw, hvalue]

theorem Mirrored.leaf?_eq_none {g : Graph} (hm : g.Mirrored) {node : Node} (hn : node ∈ g.nodes)
    {key : String} :
    g.scope.forest.leaf? node.name key = none ↔ node.configured? key = none := by
  have hheld := hm.held node hn key
  rw [Forest.held?] at hheld
  rw [← Option.map_eq_none_iff (f := g.scope.forest.raw?), hheld, Option.map_eq_none_iff]

section Moment

variable {options : CompileOptions} {inner : GraphM Unit} {repeated g filled expanded prepared : Graph}
  {u v : Unit} {later : List Nat} {source : NodeId} (hg : g.Mirrored)
  (hbelow : ∀ id ∈ repeated.nodes.map (·.id), id < filled.nextId)
  (hfilled : Filled repeated.edges later g filled) (hinStep : InStep g filled)
  (harrived : ∀ place ∈ later, ∀ key, ¬ Feeds repeated.edges source key place)
  (hexpand : expandWithin options inner filled = .ok u expanded)
  (hfinalize : finalize expanded = .ok v prepared)

include hg hbelow hfilled hinStep harrived hexpand hfinalize

/-- From the moment on when all has arrived at a node, what is untouched is fixed. -/
theorem fixed_of_untouched (hlast : prepared.Mirrored) {owner? : Option String} {key : String}
    (h : Untouched repeated prepared source owner? key) :
    g.scope.forest.Fixed prepared.scope.forest owner? key := by
  obtain ⟨hm, hkept, hshared⟩ := trans_of InStep hinStep (inStep_expandWithin hexpand) hg
  have hforest := (pending_of_finalize hfinalize).1
  cases owner? with
  | none =>
    refine ⟨?_, fun owner howner => nomatch howner⟩
    rw [hforest]
    exact (hshared key).symm
  | some owner =>
    obtain ⟨node, hn, rfl, hid, htouched⟩ := h
    obtain ⟨middle, hmiddle, hlook, hown⟩ := exists_filled hexpand hfinalize hn (hbelow _ hid)
    obtain ⟨old, hold, houtline, -, hvalues⟩ := Spares.exists_node hfilled hmiddle
    have hboth := hlook.trans houtline
    have hname : node.name = old.name := name_of_outline hboth
    have hspec : node.spec = old.spec := spec_of_outline hboth
    refine ⟨?_, fun owner howner other hnone => ?_⟩
    · rw [hlast.entry?_eq hn, hname, hg.entry?_eq hold, Node.configured?, Node.configured?, hspec,
        hown, hvalues key]
      rintro ⟨place, hplace, hfeeds⟩
      rw [← id_of_outline hboth] at hfeeds
      rcases htouched with rfl | hunfed
      · exact harrived place hplace key hfeeds
      · obtain ⟨edge, hedge, htarget, hfills⟩ := hfeeds
        exact hunfed edge (List.mem_of_getElem? hedge) htarget hfills
    · obtain rfl := Option.some.inj howner
      rw [hlast.leaf?_eq_none hn] at hnone
      rw [hname, hg.leaf?_eq_none hold]
      refine Option.eq_none_iff_forall_ne_some.mpr fun raw hraw => ?_
      obtain ⟨raw', hraw'⟩ := hkept old.name other raw (by rw [hg.held old hold, hraw]; rfl)
      rw [← hforest, ← hname, hlast.held node hn, hnone] at hraw'
      cases hraw'

/-- What a lasting value of a node comes to when all has arrived there is what it comes to in the end. -/
theorem remembers_unique (hlast : prepared.Mirrored) {t : Graph} (hread : SameButMemo g t)
    {owner key : String} (h : prepared.scope.forest.Lasting (Untouched repeated prepared source)
      (some owner) key) {v w : Value} (hv : Remembers t.scope owner key v)
    (hw : Remembers prepared.scope owner key w) : v = w := by
  have ht : t.Mirrored := (hread.inStep hg).1
  obtain ⟨memo, -, rfl⟩ := hread
  obtain ⟨leaf, hleaf, -, hlookup⟩ := hv
  obtain ⟨leaf', hleaf', -, hlookup'⟩ := hw
  refine stored_unique ht.sound hlast.sound ht.consistent hlast.consistent (fun _ _ htouched => ?_) h
    ⟨leaf, hleaf, hlookup⟩ ⟨leaf', hleaf', hlookup'⟩
  exact fixed_of_untouched hg hbelow hfilled hinStep harrived hexpand hfinalize hlast htouched

/-- A lasting value that is read when all has arrived at its node is what it comes to in the end. -/
theorem current_of_lasting (hlast : prepared.Mirrored) {t : Graph} {node : Node} {key : String}
    {current : Option Value} {v : Value} (hn : node ∈ g.nodes)
    (hread : propertyValue node.id key g = .ok current t)
    (h : prepared.scope.forest.Lasting (Untouched repeated prepared source) (some node.name) key)
    (hv : Remembers prepared.scope node.name key v) : current = some v := by
  have hsame : SameButMemo g t := (moves_propertyValue _ _).of_ok hread
  rcases propertyValue_eq_ok (hg.node?_eq_some hn) hread with ⟨-, hno⟩ | ⟨u, rfl, hu⟩
  · cases h with
    | @intro _ _ raw htouched hraw =>
      have hfixed := fixed_of_untouched hg hbelow hfilled hinStep harrived hexpand hfinalize hlast
        htouched
      have hentry : node.configured? key = some raw := by
        rw [← hg.entry?_eq hn, hfixed.1, hraw]
      exact absurd (by rw [hg.held node hn, hentry]; rfl) (hno raw)
  · rw [remembers_unique hg hbelow hfilled hinStep harrived hexpand hfinalize hlast hsame h hu hv]

end Moment

end Graph

end Pipework
