import Pipework.Proofs.KeptReceivers
import Pipework.Proofs.Portions

/-!
# No scalar is lost and none is made up

If no job is repeated and none has a pipeline or a working directory of its own, then a kept value of
a job has in the end the scalars that it stands for in the graph as it is built.
-/

namespace Pipework

open Step Resolve

namespace Graph

section Prepared

variable {options : CompileOptions} {pipeline : Pipeline} {built repeated prepared : Graph}
  {u w : Unit} (hbuild : build pipeline = .ok built) (hsplit : split built = .ok u repeated)
  (hprepare : prepare options built = .ok w prepared) (hnames : built.Distinct)
  (hfree : ∀ node ∈ built.nodes, node.configured? workingDirKey = none)
  (hflat : ∀ node ∈ built.nodes, node.spec.nested? = none)
  (hwhole : ∀ node ∈ built.nodes, node.id ∈ repeated.nodes.map (·.id))

include hbuild hsplit hprepare hnames hfree hflat hwhole

/-- Preparing leaves kept values intact and each node in its place. -/
theorem intact_of_prepare : ∃ places, Intact built places prepared ∧
    (∀ (place : Nat) edge, built.edges[place]? = some edge → place ∈ places) ∧
    ∀ node ∈ built.nodes, ∃ last ∈ prepared.nodes, last.outline = node.outline := by
  obtain ⟨-, hwBuilt, hlinked, -⟩ := build_spec hbuild
  have hw : repeated.WellFormed := (orderly_split hwBuilt hlinked
    (fun node hn => (nodes_of_build hbuild node hn).1) hsplit).wellFormed
  have hun : Unmoved built repeated := unmoved_of_split hbuild hnames hsplit hwhole
  obtain ⟨other, filled, expanded, hother, hconfigure, hexpand, hfinalize⟩ := prepare_eq_ok hprepare
  obtain rfl : other = repeated := by
    rw [hsplit] at hother
    exact (EStateM.Result.ok.inj hother).2.symm
  obtain ⟨places, hintact, hmid, hall⟩ := intact_of_configure hbuild hnames hfree hun hw hconfigure
  have hplain : ∀ node ∈ filled.nodes, node.spec.nested? = none := by
    intro node hn
    obtain ⟨old, hold, houtline⟩ := exists_built hun hmid hn
    rw [spec_of_outline houtline]
    exact hflat old hold
  -- No node is to be replaced by a pipeline of its own.
  have hsame : expanded = filled := by
    have hcase := expandWithin_eq_ok hexpand
    split at hcase
    · have hnone : filled.nestedIds = [] := by
        rw [nestedIds, List.map_eq_nil_iff, List.filter_eq_nil_iff]
        intro node hn
        simp [hplain node hn]
      rw [hnone] at hcase
      exact (pure_eq_ok.mp hcase).2.symm
    · exact hcase
  subst hsame
  refine ⟨places, hintact.of_forest (pending_of_finalize hfinalize).1
    (truthful_of_finalize hintact.truthful hfinalize), hall, fun node hn => ?_⟩
  have hmem : node.outline ∈ expanded.nodes.map Node.outline := by
    rw [(moves_configure.of_ok hconfigure).retains.nodes, hun.retains.nodes]
    exact List.mem_map_of_mem hn
  obtain ⟨now, hnow, houtline⟩ := List.mem_map.mp hmem
  obtain ⟨last, hlast, hlook, -⟩ :=
    exists_last hexpand hfinalize hmid.mirrored.ids hnow fun _ => hplain now hnow
  exact ⟨last, hlast, hlook.trans houtline⟩

/-- What a kept value of a job ends up as has the scalars that the value stood for when the graph was
built: none of them is lost and none is made up. -/
theorem leaves_of_prepare {job : Node} (hjob : job ∈ built.nodes) {key : String} {leaf : ScopeId}
    (hleaf : built.scope.forest.leaf? job.name key = some leaf) {kept : Value}
    (hkept : built.Kept leaf kept) :
    ∃ direct final, built.resolvedIn? job.name key = some direct ∧
      prepared.outcome? job.id key = some final ∧ ∀ y, y ∈ final.leaves ↔ y ∈ direct.leaves := by
  have hm := mirrored_build hbuild
  obtain ⟨places, hintact, hall, hlast⟩ :=
    intact_of_prepare hbuild hsplit hprepare hnames hfree hflat hwhole
  obtain ⟨hmirror, hsettled, -⟩ := settled_of_prepare hbuild hprepare
  obtain ⟨last, hin, houtline⟩ := hlast job hjob
  have hname : last.name = job.name := name_of_outline houtline
  have hleaf' : prepared.scope.forest.leaf? last.name key = some leaf := by
    rw [hintact.alike.leaf?, hname, hleaf]
  obtain ⟨own, hown, hrecorded, hvalues⟩ := hsettled last hin
  obtain ⟨final, hfinal⟩ : ∃ final, own.get? key = some final := by
    refine Option.isSome_iff_exists.mp (hvalues key ?_)
    rw [hmirror.configured?_of_leaf? hin hleaf', hintact.alike.holds]
    exact hkept.isSome_raw?
  refine ⟨kept, final, (truthful_build hbuild).resolvedIn?_of_means hleaf hkept.means, ?_, fun y => ?_⟩
  · rw [outcome?, ← id_of_outline houtline, hmirror.node?_eq_some hin, Option.bind_some, hown,
      Option.bind_some, hfinal]
  · have hmeans := hintact.truthful.means (hrecorded key final hfinal) hleaf'
    exact hintact.leaves hbuild hkept (fun _ _ _ place edge hedge _ => hall place edge hedge) hmeans y

end Prepared

/-- A value that cannot be taken for a reference is exact where no edge leads to it. -/
theorem exact_of_not_mayRefer {g : Graph} {id : ScopeId} {raw : Value}
    (hraw : g.scope.forest.raw? id = some raw) (hplain : raw.mayRefer = false)
    (hunfed : ∀ node ∈ g.nodes, ∀ p ∈ node.spec.parameters,
      g.scope.forest.leaf? node.name p.name = some id → Unfed g.edges node.id p.name)
    (hsingle : g.HoldsSingle id → raw.isList = false) : g.Exact id raw :=
  .stands (m := []) nofun ⟨⟨hraw, valueWith_of_not_mayRefer hplain⟩, hunfed, hsingle⟩

/-- A reference that consists of the names of an output and of its node calls for it. -/
theorem calls_of_leaf? {g : Graph} (hm : g.Mirrored) {node other : Node} (ho : other ∈ g.nodes)
    (hne : other.id ≠ node.id) {p : Parameter} {key : String} (hp : other.parameter? key = some p)
    (hout : p.isOutput) {leaf start : ScopeId} (hleaf : g.scope.forest.leaf? other.name key = some leaf)
    (hlookup : g.scope.forest.lookup? start [other.name, key] = some (leaf, 2)) {text : String}
    (hsingle : Template.singleReference? text = some [other.name, key]) :
    g.Calls node start (.str text) [other.name, key] ⟨other, p, leaf⟩ := by
  have hkey : p.name = key := by simpa using List.find?_some hp
  exact ⟨text, rfl, hsingle, ⟨by rw [hlookup, Option.bind_some, outputOwner?_eq hm ho hp hout hleaf], hne⟩,
    hlookup, [], by rw [hkey]⟩

/-- A list gathers what comes to it if each of its elements calls for an output that comes to something
that cannot be taken for a reference, or cannot be taken for one itself. -/
theorem gathers_of_elements {g : Graph} {node : Node} {p : Parameter} {id : ScopeId} {raw v : Value}
    {m : Memo} (hcomes : g.Comes id raw v m) (hn : node ∈ g.nodes) (hp : p ∈ node.spec.parameters)
    (hleaf : g.scope.forest.leaf? node.name p.name = some id) (hmany : p.isList = true)
    (heach : ∀ x ∈ raw.toList, (∃ path owner w, g.Calls node (g.scope.forest.seat id) x path owner ∧
      fromMemory g.scope.forest m (g.scope.forest.seat id) path = .ok w ∧ w.mayRefer = false) ∨
        x.mayRefer = false)
    (hzeros : ∀ a ∈ v.leaves, ∀ b ∈ v.leaves, Value.sameScalar a b = true → a = b) :
    g.Gathers node p id raw v m := by
  have hrests : ∀ {x : Value}, x.mayRefer = false → g.Rests node (g.scope.forest.seat id) x :=
    fun hplain path hpath => by
      rw [Value.references_of_not_mayRefer hplain] at hpath
      cases hpath
  refine ⟨hcomes, hn, hp, hleaf, hmany, fun x hx => ?_, fun x hx hrest l hl => ?_,
    fun x hx path owner hcalls w hw => ?_, fun _ _ _ _ _ _ y hy hrest => ?_, hzeros⟩
  · obtain ⟨path, owner, w, hcalls, -, -⟩ | hplain := heach x hx
    · exact .inl ⟨path, owner, hcalls⟩
    · exact .inr (hrests hplain)
  · obtain ⟨path, owner, w, hcalls, -, -⟩ | hplain := heach x hx
    · exact absurd hrest hcalls.not_rests
    · refine .inl fun path hpath => ?_
      rw [Value.references_of_not_mayRefer (Value.mayRefer_of_mem_leaves hplain hl)] at hpath
      cases hpath
  · obtain ⟨path', owner', w', hcalls', hw', hclear⟩ | hplain := heach x hx
    · have hpaths : [path'] = [path] := hcalls'.references.symm.trans hcalls.references
      obtain rfl : path' = path := by simpa using hpaths
      exact Except.ok.inj (hw'.symm.trans hw) ▸ hclear
    · exact absurd (hrests hplain) hcalls.not_rests
  · obtain ⟨path, owner, w, hcalls, -, -⟩ | hplain := heach y hy
    · exact absurd hrest hcalls.not_rests
    · exact hplain

/-- The job has an output that holds a value without references, that no edge leads to, and that is found
by its name and that of the job. -/
def Offers (g : Graph) (start : ScopeId) (job : Node) (p : Parameter) (leaf : ScopeId) (v : Value) :
    Prop :=
  (p.isOutput = true ∧ job.parameter? p.name = some p ∧
    g.scope.forest.leaf? job.name p.name = some leaf ∧ g.scope.forest.raw? leaf = some v ∧
    g.scope.forest.lookup? start [job.name, p.name] = some (leaf, 2)) ∧
  v.mayRefer = false ∧ (g.HoldsSingle leaf → v.isList = false) ∧
  ∀ node ∈ g.nodes, ∀ q ∈ node.spec.parameters,
    g.scope.forest.leaf? node.name q.name = some leaf → Unfed g.edges node.id q.name

instance (g : Graph) (start : ScopeId) (job : Node) (p : Parameter) (leaf : ScopeId) (v : Value) :
    Decidable (g.Offers start job p leaf v) :=
  inferInstanceAs (Decidable ((_ ∧ _ ∧ _ ∧ _ ∧ _) ∧ _ ∧ _ ∧ _))

section Offers

variable {g : Graph} {start : ScopeId} {job : Node} {p : Parameter} {leaf : ScopeId} {v : Value}
  (h : g.Offers start job p leaf v)

include h

theorem Offers.kept : g.Kept leaf v := by
  obtain ⟨⟨-, -, -, hraw, -⟩, hplain, hsingle, hunfed⟩ := h
  exact .exact (exact_of_not_mayRefer hraw hplain hunfed hsingle)

/-- A text that is the reference by name calls for the output and comes to its value. -/
theorem Offers.calls (hm : g.Mirrored) (hjob : job ∈ g.nodes) {node : Node} (hne : job.id ≠ node.id)
    {text : String} (hsingle : Template.singleReference? text = some [job.name, p.name]) {m : Memo}
    (hv : m.lookup leaf = some v) : ∃ path owner w, g.Calls node start (.str text) path owner ∧
      fromMemory g.scope.forest m start path = .ok w ∧ w.mayRefer = false := by
  obtain ⟨⟨hout, hp, hleaf, -, hlookup⟩, hplain, -, -⟩ := h
  exact ⟨_, _, v, calls_of_leaf? hm hjob hne hp hout hleaf hlookup hsingle,
    fromMemory_eq_ok.mpr ⟨leaf, 2, v, hlookup, hv, rfl⟩, hplain⟩

end Offers

/-- A tray is laid with a roll that is baked, two pots that are filled, and jam. -/
def breakfast : Pipeline where
  jobs := [
    { id := "bake"
      parameters := [{ name := "roll", isOutput := true }]
      configuration := .ofList [("roll", .str "rye")] },
    { id := "fill"
      parameters := [{ name := "pots", isOutput := true, isList := true }]
      configuration := .ofList [("pots", .list [.str "tea", .str "jam"])] },
    { id := "lay"
      parameters := [{ name := "tray", isList := true }]
      configuration := .ofList [("tray",
        .list [.str "$\x7bbake.roll\x7d", .str "jam", .str "$\x7bfill.pots\x7d"])] }]

set_option synthInstance.maxSize 2000 in
/-- All that the tray is to hold is on it, the jam only once. -/
theorem tray_is_laid : ∃ built repeated prepared, build breakfast = .ok built ∧
    split built = .ok () repeated ∧ prepare {} built = .ok () prepared ∧
    ∃ job ∈ built.nodes, built.resolvedIn? job.name "tray" =
        some (.list [.str "rye", .str "jam", .str "tea", .str "jam"]) ∧
      ∃ final, prepared.outcome? job.id "tray" = some final ∧
        ∀ y, y ∈ final.leaves ↔ y ∈ [.str "rye", .str "jam", .str "tea", .str "jam"] := by
  let m : Memo := [(2, .str "rye"), (4, .list [.str "tea", .str "jam"])]
  let raw : Value := .list [.str "$\x7bbake.roll\x7d", .str "jam", .str "$\x7bfill.pots\x7d"]
  let tray : Parameter := { name := "tray", isList := true }
  obtain ⟨built, repeated, prepared, hbuild, hsplit, hprepare, ⟨hnames, hfree, hflat, hwhole⟩, bake,
      hbake, fill, hfill, lay, hlay, ⟨hbakeName, hfillName, hbakeNe, hfillNe⟩, hroll, hpots, hseat, htray,
      hleaf, hraw, hdirect, hvalue⟩ :=
    exists_prepared {} breakfast (fun built repeated _ => (built.Distinct ∧
        (∀ node ∈ built.nodes, node.configured? workingDirKey = none) ∧
        (∀ node ∈ built.nodes, node.spec.nested?.isNone) ∧
        ∀ node ∈ built.nodes, node.id ∈ repeated.nodes.map Node.id) ∧
      ∃ bake ∈ built.nodes, ∃ fill ∈ built.nodes, ∃ lay ∈ built.nodes,
        (bake.name = "bake" ∧ fill.name = "fill" ∧ bake.id ≠ lay.id ∧ fill.id ≠ lay.id) ∧
        built.Offers 5 bake { name := "roll", isOutput := true } 2 (.str "rye") ∧
        built.Offers 5 fill { name := "pots", isOutput := true, isList := true } 4
          (.list [.str "tea", .str "jam"]) ∧
        built.scope.forest.seat 6 = 5 ∧ tray ∈ lay.spec.parameters ∧
        built.scope.forest.leaf? lay.name "tray" = some 6 ∧ built.scope.forest.raw? 6 = some raw ∧
        built.resolvedIn? lay.name "tray" =
          some (.list [.str "rye", .str "jam", .str "tea", .str "jam"]) ∧
        valueWith (fromMemory built.scope.forest m 5) raw =
          .ok (.list [.str "rye", .str "jam", .str "tea", .str "jam"])) (by decide +kernel)
  have hm := mirrored_build hbuild
  have hmemory : ∀ other u, m.lookup other = some u → built.Kept other u := by
    intro other u hu
    obtain ⟨before, after, hmem, -⟩ := List.lookup_eq_some_iff.mp hu
    have hin : (other, u) ∈ m := by simp [hmem]
    simp only [m, List.mem_cons, Prod.mk.injEq, List.not_mem_nil, or_false] at hin
    obtain ⟨rfl, rfl⟩ | ⟨rfl, rfl⟩ := hin
    · exact hroll.kept
    · exact hpots.kept
  -- The tray gathers the roll and the pots, and the jam rests.
  have hgathers : built.Gathers lay tray 6 raw
      (.list [.str "rye", .str "jam", .str "tea", .str "jam"]) m := by
    refine gathers_of_elements ⟨hraw, hseat ▸ hvalue⟩ hlay htray hleaf rfl (fun x hx => ?_) (by decide)
    rw [hseat]
    simp only [raw, Value.toList, List.mem_cons, List.not_mem_nil, or_false] at hx
    obtain rfl | rfl | rfl := hx
    · exact .inl (hroll.calls hm hbake hbakeNe (by rw [hbakeName]; decide +kernel) rfl)
    · exact .inr (by decide)
    · exact .inl (hpots.calls hm hfill hfillNe (by rw [hfillName]; decide +kernel) rfl)
  obtain ⟨direct, final, hread, hfinal, hsame⟩ := leaves_of_prepare hbuild hsplit hprepare hnames
    hfree (fun node hn => Option.isNone_iff_eq_none.mp (hflat node hn)) hwhole hlay hleaf
    (.gathers hmemory hgathers)
  obtain rfl := Option.some.inj (hdirect.symm.trans hread)
  exact ⟨built, repeated, prepared, hbuild, hsplit, hprepare, lay, hlay, hdirect, final, hfinal, hsame⟩

/-- A tray is laid with a roll that is baked and a spread that all jobs share. -/
def spreading : Pipeline where
  jobs := [
    { id := "bake"
      parameters := [{ name := "roll", isOutput := true }]
      configuration := .ofList [("roll", .str "rye")] },
    { id := "lay"
      parameters := [{ name := "tray", isList := true }]
      configuration := .ofList [("tray", .list [.str "$\x7bspread\x7d", .str "$\x7bbake.roll\x7d"])] }]
  configuration := .ofList [("spread", .str "honey")]

theorem honey_is_left_off : ∃ built repeated prepared, build spreading = .ok built ∧
    split built = .ok () repeated ∧ prepare {} built = .ok () prepared ∧ built.Distinct ∧
    (∀ node ∈ built.nodes, node.configured? workingDirKey = none) ∧
    (∀ node ∈ built.nodes, node.spec.nested? = none) ∧
    (∀ node ∈ built.nodes, node.id ∈ repeated.nodes.map (·.id)) ∧
    ∃ job ∈ built.nodes, ∃ p ∈ job.spec.parameters, p.isList ∧ (job.configured? p.name).isSome ∧
      ∃ direct final, built.resolvedIn? job.name p.name = some direct ∧
        prepared.outcome? job.id p.name = some final ∧ ∃ y ∈ direct.leaves, y ∉ final.leaves := by
  obtain ⟨built, repeated, prepared, hbuild, hsplit, hprepare, hnames, hfree, hflat, hwhole, job, hjob,
      p, hp, hlist, hgiven, hdirect, hfinal⟩ :=
    exists_prepared {} spreading (fun built repeated prepared => built.Distinct ∧
      (∀ node ∈ built.nodes, node.configured? workingDirKey = none) ∧
      (∀ node ∈ built.nodes, node.spec.nested?.isNone) ∧
      (∀ node ∈ built.nodes, node.id ∈ repeated.nodes.map Node.id) ∧
      ∃ job ∈ built.nodes, ∃ p ∈ job.spec.parameters, p.isList ∧ (job.configured? p.name).isSome ∧
        built.resolvedIn? job.name p.name = some (.list [.str "honey", .str "rye"]) ∧
        prepared.outcome? job.id p.name = some (.list [.str "rye"])) (by decide +kernel)
  exact ⟨built, repeated, prepared, hbuild, hsplit, hprepare, hnames, hfree,
    fun node hn => Option.isNone_iff_eq_none.mp (hflat node hn), hwhole, job, hjob, p, hp, hlist, hgiven,
    _, _, hdirect, hfinal, .str "honey", by decide, by decide⟩

end Graph

end Pipework
