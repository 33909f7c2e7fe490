import Pipework.Proofs.Broadcast
import Pipework.Proofs.Finality
import Pipework.Proofs.Turns

/-!
# What values are read as

The value of a node is read where its scope lies: references to other values of the node lead to
these, and references that name another node lead to the values of that one. What was read once is
remembered and read again, and in a prepared graph each node keeps what was read of its values.
-/

namespace Pipework

open Step Resolve

namespace Graph

/-- What the value of a key in a scope of the root stands for. -/
def resolvedIn? (graph : Graph) (owner key : String) : Option Value :=
  match readProperty owner key graph.scope with
  | .ok value? _ => value?
  | .error _ _ => none

theorem Remembers.resolvedIn? {g : Graph} {owner key : String} {v : Value}
    (h : Remembers g.scope owner key v) : g.resolvedIn? owner key = some v := by
  rw [Graph.resolvedIn?, h.readProperty]

theorem held_of_resolvedIn? {g : Graph} {owner key : String} {v : Value}
    (h : g.resolvedIn? owner key = some v) :
    ∃ raw, g.scope.forest.held? owner key = some (some raw) := by
  rw [resolvedIn?] at h
  cases hread : readProperty owner key g.scope with
  | error e tree => simp [hread] at h
  | ok value? tree =>
    simp only [hread] at h
    obtain ⟨memo, -, rfl⟩ := (moves_readProperty owner key).of_ok hread
    rcases readProperty_eq_ok hread with ⟨rfl, -⟩ | ⟨w, -, leaf, hleaf, hraw, -⟩
    · cases h
    · obtain ⟨raw, hraw⟩ := Option.isSome_iff_exists.mp hraw
      refine ⟨raw, ?_⟩
      rw [Forest.held?, hleaf, Option.map_some, hraw]

theorem Mirrored.isSome_configured? {g : Graph} (hm : g.Mirrored) {node : Node}
    (hn : node ∈ g.nodes) {key : String} {raw : Value}
    (h : g.scope.forest.held? node.name key = some (some raw)) :
    (node.configured? key).isSome := by
  rw [hm.held node hn] at h
  cases hraw : node.configured? key with
  | none => simp [hraw] at h
  | some raw => rfl

section Mirrored

variable {g : Graph} (hm : g.Mirrored) {node : Node} (hn : node ∈ g.nodes) {scope : ScopeId}
  (hs : g.scope.forest.child? Forest.root node.name = some scope)

include hm hn hs

/-- A value of a node lies beside the others. -/
theorem beside_own {key : String} (hkey : (node.configured? key).isSome) :
    ∃ leaf, g.scope.forest.leaf? node.name key = some leaf ∧ (g.scope.forest.raw? leaf).isSome ∧
      ∀ fields, g.scope.forest.Beside scope (key :: fields) leaf 1 := by
  obtain ⟨raw, hraw⟩ := Option.isSome_iff_exists.mp hkey
  have hheld := hm.held node hn key
  rw [hraw, Forest.held?] at hheld
  obtain ⟨leaf, hleaf, hvalue⟩ := Option.map_eq_some_iff.mp hheld
  refine ⟨leaf, hleaf, by rw [hvalue]; rfl, fun fields => .own ?_⟩
  rwa [Forest.leaf?, hs, Option.bind_some] at hleaf

/-- A value in a scope of the root is found under the name of that scope. -/
theorem beside_named {owner key : String} {raw : Value} (hnone : node.configured? owner = none)
    (hheld : g.scope.forest.held? owner key = some (some raw)) :
    ∃ leaf, g.scope.forest.leaf? owner key = some leaf ∧ (g.scope.forest.raw? leaf).isSome ∧
      ∀ fields, g.scope.forest.Beside scope (owner :: key :: fields) leaf 2 := by
  have hfree : g.scope.forest.child? scope owner = none := by
    have hown := hm.held node hn owner
    rw [hnone, Forest.held?, Forest.leaf?, hs] at hown
    simpa using hown
  obtain ⟨leaf, hleaf, hvalue⟩ := Option.map_eq_some_iff.mp hheld
  obtain ⟨other, hother, hchild⟩ := Option.bind_eq_some_iff.mp hleaf
  obtain ⟨hmem, hname⟩ := Forest.mem_of_child? hs
  refine ⟨leaf, hleaf, by rw [hvalue]; rfl, fun fields => ?_⟩
  refine .named hfree (fun hself => ?_) (hm.sound.parent _ _ hmem) hother hchild
  obtain rfl : node.name = owner := Option.some.inj (hname.symm.trans hself)
  exact Option.some.inj (hother.symm.trans hs)

/-- A reference to a value of the node is answered with what is remembered of that. -/
theorem own_of_fromMemory {key : String} {fields : List String}
    (hkey : (node.configured? key).isSome) {w : Value}
    (hw : fromMemory g.scope.forest g.scope.memo scope (key :: fields) = .ok w) :
    ∃ v, Remembers g.scope node.name key v ∧
      FileField.derive v fields (joinPath (key :: fields)) = .ok w := by
  obtain ⟨leaf, hleaf, hraw, hbeside⟩ := beside_own hm hn hs hkey
  obtain ⟨v, hv, hderive⟩ := exists_lookup_of_fromMemory ((hbeside fields).lookup? hm.sound hraw) hw
  exact ⟨v, ⟨leaf, hleaf, hraw, hv⟩, hderive⟩

/-- A reference that names a scope of the root is answered with what is remembered there. -/
theorem named_of_fromMemory {owner key : String} {fields : List String} {raw : Value}
    (hnone : node.configured? owner = none)
    (hheld : g.scope.forest.held? owner key = some (some raw)) {w : Value}
    (hw : fromMemory g.scope.forest g.scope.memo scope (owner :: key :: fields) = .ok w) :
    ∃ v, Remembers g.scope owner key v ∧
      FileField.derive v fields (joinPath (owner :: key :: fields)) = .ok w := by
  obtain ⟨leaf, hleaf, hraw, hbeside⟩ := beside_named hm hn hs hnone hheld
  obtain ⟨v, hv, hderive⟩ := exists_lookup_of_fromMemory ((hbeside fields).lookup? hm.sound hraw) hw
  exact ⟨v, ⟨leaf, hleaf, hraw, hv⟩, hderive⟩

/-- What is remembered of a value is what it comes to, if its references lead to values in scopes of
the root. -/
theorem valueWith_of_remembers {key : String} {raw v : Value}
    (hraw : node.configured? key = some raw) (hv : Remembers g.scope node.name key v)
    (hnear : ∀ path ∈ raw.references, ∃ leaf consumed,
      g.scope.forest.Beside scope path leaf consumed ∧ (g.scope.forest.raw? leaf).isSome) :
    valueWith (fromMemory g.scope.forest g.scope.memo scope) raw = .ok v := by
  obtain ⟨leaf, hleaf, -, hlookup⟩ := hv
  have hheld := hm.held node hn key
  rw [Forest.held?, hleaf, hraw] at hheld
  rw [Forest.leaf?, hs, Option.bind_some] at hleaf
  have hparent := hm.sound.parent scope leaf (Forest.mem_of_child? hleaf).1
  have hfrom := hm.consistent leaf v raw hlookup (Option.some.inj hheld) ⟨scope, hparent, hnear⟩
  rwa [hparent, Option.getD_some] at hfrom

end Mirrored

theorem Remembers.unique {tree : ScopeTree} {owner key : String} {v w : Value}
    (h : Remembers tree owner key v) (h' : Remembers tree owner key w) : v = w := by
  obtain ⟨leaf, hleaf, -, hlookup⟩ := h
  obtain ⟨other, hother, -, hlookup'⟩ := h'
  obtain rfl := Option.some.inj (hleaf.symm.trans hother)
  exact Option.some.inj (hlookup.symm.trans hlookup')

/-- A value without references stands for itself. -/
theorem Mirrored.resolvedIn?_of_not_mayRefer {g : Graph} (hm : g.Mirrored) {node : Node}
    (hn : node ∈ g.nodes) {key : String} {raw : Value} (hraw : node.configured? key = some raw)
    (hrefer : raw.mayRefer = false) : g.resolvedIn? node.name key = some raw := by
  have hheld := hm.held node hn key
  rw [hraw, Forest.held?] at hheld
  obtain ⟨leaf, hleaf, hvalue⟩ := Option.map_eq_some_iff.mp hheld
  obtain ⟨scope, hs, -⟩ := hm.room node hn
  cases hlookup : g.scope.memo.lookup leaf with
  | some v =>
    have hv : Remembers g.scope node.name key v := ⟨leaf, hleaf, by rw [hvalue]; rfl, hlookup⟩
    have hnone := Value.references_of_not_mayRefer hrefer
    have hfrom := valueWith_of_remembers hm hn hs hraw hv (by simp [hnone])
    rw [valueWith_of_not_mayRefer hrefer] at hfrom
    rw [hv.resolvedIn?, Except.ok.inj hfrom]
  | none =>
    have hresolve := scopeValue_of_not_mayRefer hvalue hlookup hrefer
      (g.scope.forest.displayName leaf)
    rw [resolvedIn?, readProperty_of_scopeValue hleaf (by rw [hvalue]; rfl) hresolve]

section Kept

variable {g : Graph} (hm : g.Mirrored) {node : Node} (hn : node ∈ g.nodes) {own : Settings}
  (hown : Recorded g.scope node.name own)

include hm hn hown

/-- A node keeps no values under keys without one. -/
theorem own_of_configured? {key : String} (h : node.configured? key = none) :
    own.get? key = none := by
  refine Option.eq_none_iff_forall_ne_some.mpr fun v hv => ?_
  obtain ⟨leaf, hleaf, -⟩ := hown key v hv
  have hheld := hm.held node hn key
  rw [h, Forest.held?, hleaf] at hheld
  cases hheld

/-- A value without references is kept as it is. -/
theorem own_of_no_references
    (hall : ∀ key, (node.configured? key).isSome → (own.get? key).isSome) {key : String}
    {raw : Value} (hraw : node.configured? key = some raw) (hnone : raw.references = []) :
    own.get? key = some raw := by
  obtain ⟨v, hv⟩ := Option.isSome_iff_exists.mp (hall key (by rw [hraw]; rfl))
  obtain ⟨scope, hs, -⟩ := hm.room node hn
  have hvalue := valueWith_of_remembers hm hn hs hraw (hown key v hv) (by simp [hnone])
  rw [valueWith_of_no_references hnone] at hvalue
  rw [hv, Except.ok.inj hvalue]

theorem own_of_not_mayRefer (hall : ∀ key, (node.configured? key).isSome → (own.get? key).isSome)
    {key : String} {raw : Value} (hraw : node.configured? key = some raw)
    (hrefer : raw.mayRefer = false) : own.get? key = some raw :=
  own_of_no_references hm hn hown hall hraw (Value.references_of_not_mayRefer hrefer)

end Kept

/-- What comes out for a key of a node is remembered. -/
theorem propertyValue_eq_ok {node : Node} {key : String} {value? : Option Value} {g g' : Graph}
    (hnode : g.node? node.id = some node) (h : propertyValue node.id key g = .ok value? g') :
    (value? = none ∧ ∀ raw, g.scope.forest.held? node.name key ≠ some (some raw)) ∨
      ∃ v, value? = some v ∧ Remembers g'.scope node.name key v := by
  obtain ⟨_, _, hget, h⟩ := bind_eq_ok.mp h
  obtain ⟨rfl, rfl⟩ := get_eq_ok.mp hget
  simp only [hnode] at h
  obtain ⟨tree, hread, rfl⟩ := onScope_eq_ok.mp h
  exact readProperty_eq_ok hread

theorem Remembers.of_sameButMemo {g g' : Graph} {owner key : String} {v : Value}
    (h : Remembers g.scope owner key v) (hsame : SameButMemo g g') :
    Remembers g'.scope owner key v := by
  obtain ⟨memo, hlearns, rfl⟩ := hsame
  exact h.mono rfl hlearns.recalls

/-- The lists that a node is repeated for are remembered as its values. -/
theorem listDrivers_spec {node : Node} {linked : List String} {parameters : List Parameter}
    {found : List (String × List Value)} {g g' : Graph} (hnode : g.node? node.id = some node)
    (h : listDrivers node.id linked parameters g = .ok found g') :
    ∀ entry ∈ found, Remembers g'.scope node.name entry.1 (.list entry.2) := by
  induction parameters generalizing found g with
  | nil =>
    obtain ⟨rfl, -⟩ := pure_eq_ok.mp h
    simp
  | cons parameter parameters ih =>
    rw [listDrivers] at h
    split at h
    · exact ih hnode h
    · obtain ⟨current, t, hcurrent, h⟩ := bind_eq_ok.mp h
      obtain ⟨others, t', hothers, h⟩ := bind_eq_ok.mp h
      have hsame := (moves_propertyValue node.id parameter.name).of_ok hcurrent
      have hsame' := (moves_listDrivers node.id linked parameters).of_ok hothers
      have hnode' : t.node? node.id = some node := by
        obtain ⟨memo, -, rfl⟩ := hsame
        exact hnode
      split at h
      next item items =>
        obtain ⟨rfl, rfl⟩ := pure_eq_ok.mp h
        have hrest := ih hnode' hothers
        rcases propertyValue_eq_ok hnode hcurrent with ⟨hno, -⟩ | ⟨v, hv, hremembers⟩
        · cases hno
        · obtain rfl := Option.some.inj hv
          intro entry hentry
          rcases List.mem_cons.mp hentry with rfl | hentry
          · exact hremembers.of_sameButMemo hsame'
          · exact hrest entry hentry
      next =>
        obtain ⟨rfl, rfl⟩ := pure_eq_ok.mp h
        exact ih hnode' hothers

/-- When the turn of a node comes, the graph mirrors its nodes, the node is as it was built, no edge
leads to more of its keys, and its lists are read. -/
theorem planned_eq_ok {pipeline : Pipeline} {built asked : Graph} {job : Node} {plan : Drivers}
    (hbuild : build pipeline = .ok built) (hjob : job ∈ built.nodes)
    (h : planned job.id built = .ok plan asked) : ∃ g t : Graph, t.Mirrored ∧ job ∈ t.nodes ∧
      (∀ key, Unfed built.edges job.id key → Unfed g.edges job.id key) ∧
      listDrivers job.id (g.linkedProperties job.id) job.spec.parameters t = .ok plan.lists asked := by
  obtain ⟨-, hw, -, -⟩ := build_spec hbuild
  obtain ⟨_, _, hget, h⟩ := bind_eq_ok.mp h
  obtain ⟨rfl, rfl⟩ := get_eq_ok.mp hget
  obtain ⟨order, _, hat, h⟩ := bind_eq_ok.mp h
  obtain ⟨horder, rfl⟩ := ofExcept_eq_ok.mp hat
  obtain ⟨_, g, hbefore, hdrivers⟩ := bind_eq_ok.mp h
  have hm : g.Mirrored := forM_keeps (P := Mirrored)
    (fun node _ t v t' ht hstep => (inStep_splitNode hstep ht).1) (mirrored_build hbuild) hbefore
  have hunderway := underway_of_build hbuild horder
    (List.takeWhile_append_dropWhile (p := (·.id != job.id))).symm hbefore
  obtain ⟨_, _, hget, hdrivers⟩ := bind_eq_ok.mp hdrivers
  obtain ⟨rfl, rfl⟩ := get_eq_ok.mp hget
  obtain ⟨found, t, hfold, hdrivers⟩ := bind_eq_ok.mp hdrivers
  obtain ⟨node, _, hat, hdrivers⟩ := bind_eq_ok.mp hdrivers
  obtain ⟨hnode, rfl⟩ := nodeAt_eq_ok.mp hat
  obtain ⟨lists, t', hlists, hdrivers⟩ := bind_eq_ok.mp hdrivers
  obtain ⟨rfl, rfl⟩ := pure_eq_ok.mp hdrivers
  have hplans : Plans g t :=
    (Moves.foldlM (fun found place _ => moves_addDriver found place) _).of_ok hfold
  have ht : t.Mirrored := (hplans.inStep hm).1
  obtain ⟨memo, edges, -, -, rfl⟩ := hplans
  have hid : node.id = job.id := by simpa using List.find?_some hnode
  have hin : node ∈ g.nodes := List.mem_of_find?_eq_some hnode
  have hlt : job.id < built.nextId := hw.below _ (List.mem_map_of_mem hjob)
  have hnew : node.id ∉ (order.takeWhile (·.id != job.id)).map (·.id) := by
    intro hmem
    obtain ⟨other, hother, heq⟩ := List.mem_map.mp hmem
    have hne := List.all_eq_true.mp List.all_takeWhile other hother
    simp [heq, hid] at hne
  obtain rfl : node = job := List.inj_on_of_nodup_map hw.nodup
    (hunderway.waiting node hin (hid ▸ hlt) hnew) hjob hid
  exact ⟨g, _, ht, hin, hunderway.unfed node.id hlt, hlists⟩

/-- What a node is repeated for when its turn comes is read from a graph that mirrors its nodes, and
the lists are remembered as its values. -/
theorem planned_spec {pipeline : Pipeline} {built asked : Graph} {job : Node} {plan : Drivers}
    (hbuild : build pipeline = .ok built) (hjob : job ∈ built.nodes)
    (h : planned job.id built = .ok plan asked) : asked.Mirrored ∧ job ∈ asked.nodes ∧
      ∀ entry ∈ plan.lists, Remembers asked.scope job.name entry.1 (.list entry.2) := by
  obtain ⟨g, t, hm, hin, -, hlists⟩ := planned_eq_ok hbuild hjob h
  have hsame : SameButMemo t asked := (moves_listDrivers job.id _ _).of_ok hlists
  refine ⟨(hsame.inStep hm).1, ?_, listDrivers_spec (hm.node?_eq_some hin) hlists⟩
  obtain ⟨memo, -, rfl⟩ := hsame
  exact hin

/-- Prepared graphs are repeated, values are handed on, nodes are replaced, and values resolved. -/
theorem prepareStages_eq_ok {options : CompileOptions} {prepare : GraphM Unit}
    {built prepared : Graph} {u : Unit} (h : prepareStages options prepare built = .ok u prepared) :
    ∃ repeated filled expanded, split built = .ok () repeated ∧ configure repeated = .ok () filled ∧
      expandWithin options prepare filled = .ok () expanded ∧
      finalize expanded = .ok () prepared := by
  rw [prepareStages_eq] at h
  obtain ⟨_, filled, hspread, h⟩ := bind_eq_ok.mp h
  obtain ⟨_, expanded, hexpand, hfinalize⟩ := bind_eq_ok.mp h
  obtain ⟨_, repeated, hsplit, hconfigure⟩ := bind_eq_ok.mp hspread
  exact ⟨repeated, filled, expanded, hsplit, hconfigure, hexpand, hfinalize⟩

theorem prepare_eq_ok {options : CompileOptions} {built prepared : Graph} {u : Unit}
    (h : prepare options built = .ok u prepared) : ∃ repeated filled expanded,
      split built = .ok () repeated ∧ configure repeated = .ok () filled ∧
      expandWithin options (prepareNested built.depth) filled = .ok () expanded ∧
      finalize expanded = .ok () prepared := prepareStages_eq_ok (prepare_eq options built ▸ h)

/-- A prepared graph mirrors its nodes and keeps what they resolved to, and what the jobs were left
with is still there. -/
theorem settled_of_stages {options : CompileOptions} {prepare : GraphM Unit} {pipeline : Pipeline}
    {built prepared : Graph} {u : Unit} (hbuild : build pipeline = .ok built)
    (h : prepareStages options prepare built = .ok u prepared) :
    prepared.Mirrored ∧ (∀ node ∈ prepared.nodes, prepared.Settled node) ∧
      ∀ job ∈ built.nodes, ∀ key, (job.configured? key).isSome →
        ∃ raw, prepared.scope.forest.held? job.name key = some (some raw) := by
  obtain ⟨repeated, filled, expanded, hsplit, hconfigure, hexpand, hfinalize⟩ := prepareStages_eq_ok h
  have hspread : spread built = .ok () filled := bind_eq_ok.mpr ⟨(), repeated, hsplit, hconfigure⟩
  have hm := mirrored_build hbuild
  obtain ⟨hm₁, hkept₁, -⟩ := inStep_spread hspread hm
  obtain ⟨hm₂, hkept₂, -⟩ := inStep_expandWithin hexpand hm₁
  obtain ⟨hlast, hsettled⟩ := settled_of_finalize hm₂ hfinalize
  refine ⟨hlast, hsettled, fun job hjob key hkey => ?_⟩
  obtain ⟨raw, hraw⟩ := Option.isSome_iff_exists.mp hkey
  obtain ⟨raw₁, h₁⟩ := hkept₁ job.name key raw (by rw [hm.held job hjob, hraw]; rfl)
  obtain ⟨raw₂, h₂⟩ := hkept₂ job.name key raw₁ h₁
  exact ⟨raw₂, (pending_of_finalize hfinalize).1 ▸ h₂⟩

theorem settled_of_prepare {options : CompileOptions} {pipeline : Pipeline} {built prepared : Graph}
    {u : Unit} (hbuild : build pipeline = .ok built) (h : prepare options built = .ok u prepared) :
    prepared.Mirrored ∧ (∀ node ∈ prepared.nodes, prepared.Settled node) ∧
      ∀ job ∈ built.nodes, ∀ key, (job.configured? key).isSome →
        ∃ raw, prepared.scope.forest.held? job.name key = some (some raw) :=
  settled_of_stages hbuild (prepare_eq options built ▸ h)

section Ending

variable {options : CompileOptions} {inner : GraphM Unit} {filled expanded prepared : Graph}
  {u v : Unit} (hexpand : expandWithin options inner filled = .ok u expanded)
  (hfinalize : finalize expanded = .ok v prepared) {node : Node}

include hexpand hfinalize

/-- A node that was there when values had been handed on is the same in the end, but for what it
keeps of what they resolve to. -/
theorem exists_filled (hn : node ∈ prepared.nodes) (hlt : node.id < filled.nextId) :
    ∃ middle ∈ filled.nodes, node.outline = middle.outline ∧
      node.overrides = middle.overrides := by
  have hmem : node.pending ∈ expanded.nodes.map Node.pending :=
    (pending_of_finalize hfinalize).2 ▸ List.mem_map_of_mem hn
  obtain ⟨middle, hmiddle, hsame⟩ := List.mem_map.mp hmem
  refine ⟨middle, mem_of_expandWithin hexpand middle hmiddle ?_,
    (congrArg Node.outline hsame).symm, (congrArg Node.overrides hsame).symm⟩
  rwa [(values_of_pending hsame).1]

/-- A node without a pipeline of its own is still there in the end. -/
theorem exists_last (hids : (filled.nodes.map (·.id)).Nodup) (hn : node ∈ filled.nodes)
    (hplain : options.expandNested → node.spec.nested? = none) :
    ∃ last ∈ prepared.nodes, last.outline = node.outline ∧ last.overrides = node.overrides := by
  have hmem : node.pending ∈ prepared.nodes.map Node.pending :=
    (pending_of_finalize hfinalize).2 ▸
      List.mem_map_of_mem (stays_of_expandWithin hexpand hids hn hplain)
  obtain ⟨last, hlast, hsame⟩ := List.mem_map.mp hmem
  have houtline : last.pending.outline = node.pending.outline := congrArg Node.outline hsame
  have hown : last.pending.overrides = node.pending.overrides := congrArg Node.overrides hsame
  exact ⟨last, hlast, houtline, hown⟩

/-- A node that was there after nodes were repeated is what it was then, and has no other value of
its own where no edge leads to. -/
theorem exists_origin {repeated : Graph} {w : Unit}
    (hbelow : ∀ id ∈ repeated.nodes.map (·.id), id < repeated.nextId)
    (hconfigure : configure repeated = .ok w filled) (hn : node ∈ prepared.nodes)
    (hid : node.id ∈ repeated.nodes.map (·.id)) :
    ∃ origin ∈ repeated.nodes, node.outline = origin.outline ∧ ∀ key,
      Unfed repeated.edges node.id key → node.overrides.get? key = origin.overrides.get? key := by
  have hnext : filled.nextId = repeated.nextId := (moves_configure.of_ok hconfigure).nextId
  obtain ⟨middle, hin, hlook, hown⟩ :=
    exists_filled hexpand hfinalize hn (hnext ▸ hbelow _ hid)
  obtain ⟨origin, horigin, houtline, -, hkeys⟩ := (spares_configure hconfigure).exists_node hin
  refine ⟨origin, horigin, hlook.trans houtline, fun key hunfed => ?_⟩
  rw [hown]
  refine hkeys key fun hfed => hfed ?_
  rwa [← id_of_outline houtline, ← id_of_outline hlook]

end Ending

theorem origin_of_prepare {options : CompileOptions} {built repeated prepared : Graph} {u v : Unit}
    (hbelow : ∀ id ∈ repeated.nodes.map (·.id), id < repeated.nextId)
    (hsplit : split built = .ok u repeated) (h : prepare options built = .ok v prepared)
    {node : Node} (hn : node ∈ prepared.nodes) (hid : node.id ∈ repeated.nodes.map (·.id)) :
    ∃ origin ∈ repeated.nodes, node.outline = origin.outline ∧ ∀ key,
      Unfed repeated.edges node.id key → node.overrides.get? key = origin.overrides.get? key := by
  obtain ⟨other, filled, expanded, hother, hconfigure, hexpand, hfinalize⟩ := prepare_eq_ok h
  obtain rfl : other = repeated := by
    rw [hsplit] at hother
    exact (EStateM.Result.ok.inj hother).2.symm
  exact exists_origin hexpand hfinalize hbelow hconfigure hn hid

/-- What is found about a pipeline by building, repeating and preparing its graph. -/
theorem exists_prepared (options : CompileOptions) (pipeline : Pipeline)
    (P : Graph → Graph → Graph → Prop)
    [∀ built repeated prepared, Decidable (P built repeated prepared)]
    (h : (match build pipeline with
      | .error _ => false
      | .ok built => match split built, prepare options built with
        | .ok _ repeated, .ok _ prepared => decide (P built repeated prepared)
        | _, _ => false) = true) :
    ∃ built repeated prepared, build pipeline = .ok built ∧ split built = .ok () repeated ∧
      prepare options built = .ok () prepared ∧ P built repeated prepared := by
  split at h
  next => cases h
  next built hbuild =>
    split at h
    next _ repeated _ prepared hsplit hprepare =>
      exact ⟨built, repeated, prepared, hbuild, hsplit, hprepare, of_decide_eq_true h⟩
    next => cases h

end Graph

end Pipework
