import Pipework.Proofs.Adoption
import Pipework.Proofs.Allotment
import Pipework.Proofs.Transplant

/-!
# Single values

A parameter that takes a single value ends up with a scalar or an empty list, if what leads to several
values is dealt with in one way only. Either no edge leads there and what its value leads to is, in
the end, what it was when its job had its turn: had there been several values, they would have been
dealt out. Or the references that are left in its value lead to single values, and what edges hand on
as a whole comes from parameters of which the same holds.
-/

namespace Pipework

open Step Resolve Value

/-- No parameter of this name takes a list. -/
def Job.TakesOne (job : Job) (key : String) : Prop :=
  ∀ p ∈ job.parameters, p.name = key → p.isList = false

instance (job : Job) (key : String) : Decidable (job.TakesOne key) :=
  inferInstanceAs (Decidable (∀ p ∈ job.parameters, _))

/-- Where a scope of one name goes by another. -/
def renamed (name other : String) (owner? : Option String) : Option String :=
  if owner? = some name then some other else owner?

namespace Graph

/-- A parameter of a node takes a single value, and several values do not meet there in different
ways. What is asked for at a moment concerns values that do not change any more from then on. -/
inductive Unmixed (built repeated : Graph) (late : Forest) :
    (Option String → String → Prop) → Node → String → Prop
  /-- What its value leads to is the same in the end as when its job had its turn. -/
  | declared {fixed : Option String → String → Prop} {node job : Node} {key : String}
      {plan : Drivers} {asked : Graph}
      (hone : ∃ p ∈ node.spec.parameters, p.name = key ∧ p.isList = false)
      (hunfed : Unfed repeated.edges node.id key) (hown : node.overrides.get? key = none)
      (hjob : job ∈ built.nodes) (hspec : node.spec = job.spec)
      (hbefore : Unfed built.edges job.id key) (hplanned : planned job.id built = .ok plan asked)
      (hlasts : late.Lasting (fun owner? other => fixed owner? other ∧
        asked.scope.forest.Echoes late (renamed node.name job.name) owner? other)
        (some node.name) key) : Unmixed built repeated late fixed node key
  /-- The references left in its value lead to single values, it is not a list of the definition, and
  what edges hand on as a whole is unmixed. -/
  | single {fixed : Option String → String → Prop} {node : Node} {key : String} {raw : Value}
      (hone : node.spec.TakesOne key) (hfixed : fixed (some node.name) key)
      (hraw : late.entry? (some node.name) key = some raw)
      (hleads : late.LeadsTo (late.Lasting fun owner? other => fixed owner? other ∧
        late.Single owner? other) (some node.name) raw)
      (hplain : Unfed repeated.edges node.id key → node.overrides.get? key = none →
        raw.isSeveral = false)
      (hwhole : ∀ edge ∈ repeated.edges, edge.target = node.id → ∀ link, edge.kind = .data link →
        link.targetProperty = key → link.splitIndex? = none → ∀ source ∈ repeated.nodes,
          source.id = edge.source →
            Unmixed built repeated late (Delivered repeated source.id) source link.sourceProperty) :
      Unmixed built repeated late fixed node key

theorem Unmixed.stands {built repeated : Graph} {late : Forest}
    {fixed : Option String → String → Prop} {node : Node} {key : String}
    (h : Unmixed built repeated late fixed node key) :
    fixed (some node.name) key ∧ (late.entry? (some node.name) key).isSome := by
  cases h with
  | declared _ _ _ _ _ _ _ hlasts =>
    cases hlasts with
    | intro hfixed hraw => exact ⟨hfixed.1, Option.isSome_of_eq_some hraw⟩
  | single _ hfixed hraw => exact ⟨hfixed, Option.isSome_of_eq_some hraw⟩

theorem not_takesMany {g : Graph} (hids : (g.nodes.map (·.id)).Nodup) {node : Node}
    (hn : node ∈ g.nodes) {key : String} (hone : node.spec.TakesOne key) :
    ¬ g.TakesMany node.id key := by
  rintro ⟨other, ho, hid, p, hp, hname, hlist⟩
  obtain rfl := List.inj_on_of_nodup_map hids ho hn hid
  rw [hone p hp hname] at hlist
  cases hlist

theorem Remembers.stored {tree : ScopeTree} {owner key : String} {v : Value}
    (h : Remembers tree owner key v) : Stored tree.forest tree.memo (some owner) key v := by
  obtain ⟨leaf, hleaf, -, hlookup⟩ := h
  exact ⟨leaf, hleaf, hlookup⟩

/-- Jobs of a pipeline have different names. -/
theorem eq_of_spec {pipeline : Pipeline} {built : Graph} (hbuild : build pipeline = .ok built)
    {first second : Node} (hf : first ∈ built.nodes) (hs : second ∈ built.nodes)
    (hspec : first.spec = second.spec) : first = second := by
  refine List.inj_on_of_nodup_map (mirrored_build hbuild).names hf hs ?_
  rw [(nodes_of_build hbuild first hf).2.1, (nodes_of_build hbuild second hs).2.1, hspec]

/-- What is read of a value that is there is remembered. -/
theorem remembers_of_entry {g t : Graph} (hm : g.Mirrored) {node : Node} (hn : node ∈ g.nodes)
    {key : String} {current : Option Value} (h : propertyValue node.id key g = .ok current t)
    (hentry : (g.scope.forest.entry? (some node.name) key).isSome) :
    ∃ v, current = some v ∧ Remembers t.scope node.name key v := by
  refine (propertyValue_eq_ok (hm.node?_eq_some hn) h).resolve_left fun hnone => ?_
  obtain ⟨raw, hraw⟩ := Option.isSome_iff_exists.mp hentry
  rw [hm.entry?_eq hn] at hraw
  exact hnone.2 raw (by rw [hm.held node hn, hraw, Option.map_some])

section Declared

variable {pipeline : Pipeline} {built repeated asked : Graph} {u : Unit}
  (hbuild : build pipeline = .ok built) (hsplit : split built = .ok u repeated)

include hbuild hsplit

/-- A value that the definition gives is remembered when the job has its turn, and is a single one
where the node has nothing of its own. -/
theorem exists_asked {node job : Node} {key : String} {plan : Drivers} (hn : node ∈ repeated.nodes)
    (hone : ∃ p ∈ node.spec.parameters, p.name = key ∧ p.isList = false)
    (hown : node.overrides.get? key = none) (hjob : job ∈ built.nodes)
    (hspec : node.spec = job.spec) (hbefore : Unfed built.edges job.id key)
    (hplanned : planned job.id built = .ok plan asked) (hvalue : (job.configured? key).isSome) :
    ∃ v, Remembers asked.scope job.name key v ∧ v.isSeveral = false := by
  obtain ⟨p, hp, rfl, hscalar⟩ := hone
  obtain ⟨v, hv, hseveral⟩ := remembers_of_planned hbuild hjob hplanned (hspec ▸ hp) hscalar hbefore
    hvalue
  refine ⟨v, hv, Bool.eq_false_iff.mpr fun hmany => ?_⟩
  obtain ⟨job', hjob', hspec', plan', asked', hplanned', hallotted⟩ :=
    allotted_of_split hbuild hsplit node hn
  obtain rfl := eq_of_spec hbuild hjob' hjob (hspec'.symm.trans hspec)
  obtain ⟨rfl, -⟩ := EStateM.Result.ok.inj (hplanned.symm.trans hplanned')
  have hsome := hallotted p.name (hseveral hmany)
  rw [hown] at hsome
  cases hsome

end Declared

section Prepared

variable {options : CompileOptions} {pipeline : Pipeline} {inner : GraphM Unit}
  {built repeated filled expanded prepared : Graph} {u v w x : Unit}
  (hpipeline : pipeline.Flat) (hbuild : build pipeline = .ok built)
  (hsplit : split built = .ok u repeated) (hconfigure : configure repeated = .ok v filled)
  (hexpand : expandWithin options inner filled = .ok w expanded)
  (hfinalize : finalize expanded = .ok x prepared)

include hpipeline hbuild hsplit hconfigure hexpand hfinalize

omit hpipeline hbuild hsplit hconfigure in
/-- When all has arrived at the source of an edge, an unmixed value is read there, and from then on
nothing changes that it asks for. -/
theorem Unmixed.exists_found (hm₀ : repeated.Mirrored) {edge : Edge} {g t : Graph}
    (hmoment : Moment repeated filled edge.source g) (hm : g.Mirrored) {source old : Node}
    (hs : source ∈ g.nodes) (hsource : old.id = edge.source)
    (hname : old.name = source.name) {property : String}
    (h : Unmixed built repeated prepared.scope.forest (Delivered repeated old.id) old property)
    {current : Option Value} (hread : propertyValue source.id property g = .ok current t) :
    ∃ found, current = some found ∧ t.Mirrored ∧
      (∀ owner? other, Delivered repeated old.id owner? other →
        t.scope.forest.Fixed prepared.scope.forest owner? other) ∧
      Stored t.scope.forest t.scope.memo (some old.name) property found := by
  have hlate : ∀ owner? other, Delivered repeated old.id owner? other →
      g.scope.forest.Fixed prepared.scope.forest owner? other := fun owner? other hdelivered =>
    (hsource ▸ hmoment).fixed hm₀ hexpand hfinalize hdelivered
  obtain ⟨hdelivered, hthere⟩ := h.stands
  rw [← (hlate _ _ hdelivered).1, hname] at hthere
  obtain ⟨found, hfound, hremembers⟩ := remembers_of_entry hm hs hread hthere
  have hsame : SameButMemo g t := (moves_propertyValue _ _).of_ok hread
  have hmt : t.Mirrored := (hsame.inStep hm).1
  obtain ⟨memo, -, rfl⟩ := hsame
  exact ⟨found, hfound, hmt, hlate, hname ▸ hremembers.stored⟩

/-- At a moment from which on nothing changes that is asked for, an unmixed value comes to a single
one. The induction goes along the edges that hand on whole values. -/
theorem Unmixed.isSeveral {fixed : Option String → String → Prop} {node : Node} {key : String}
    (h : Unmixed built repeated prepared.scope.forest fixed node key) (hn : node ∈ repeated.nodes)
    {g : Graph} (hm : g.Mirrored)
    (hfixed : ∀ owner? other, fixed owner? other →
      g.scope.forest.Fixed prepared.scope.forest owner? other)
    {value : Value} (hv : Stored g.scope.forest g.scope.memo (some node.name) key value) :
    value.isSeveral = false := by
  have hfitting := fitting_of_split hpipeline hbuild hsplit
  have hm₀ : repeated.Mirrored := hfitting.level.mirrored
  have hw : repeated.WellFormed := (orderly_of_split hbuild hsplit).wellFormed
  induction h generalizing g value with
  | @declared fixed node job key plan asked hone hunfed hown hjob hspec hbefore hplanned hlasts =>
    obtain ⟨hasked, hin, -⟩ := planned_spec hbuild hjob hplanned
    have hhome : renamed node.name job.name (some node.name) = some job.name := if_pos rfl
    have hvalue : (job.configured? key).isSome := by
      cases hlasts with
      | intro hslot hraw =>
        have hentry := hslot.2.1
        rw [hhome, hasked.entry?_eq hin, hraw] at hentry
        exact Option.isSome_of_eq_some hentry
    obtain ⟨asked', hremembers, hsingle⟩ :=
      exists_asked hbuild hsplit hn hone hown hjob hspec hbefore hplanned hvalue
    have hsame : asked' = value := stored_of_echoes hm.sound hm.consistent
      (fun owner? other h => hfixed owner? other h.1) hasked.sound hasked.consistent
      (fun _ _ h => h.2) hlasts (hhome.symm ▸ hremembers.stored) hv
    exact hsame ▸ hsingle
  | @single fixed node key raw hone hslot hraw hleads hplain hwhole ih =>
    have hsingle : raw.isSeveral = false := by
      by_cases hunfed : Unfed repeated.edges node.id key
      · have hsame := (fixed_of_unfed hw hm₀ hconfigure hexpand hfinalize hn hunfed).1
        rw [hm₀.entry?_eq hn, hraw] at hsame
        cases hown : node.overrides.get? key with
        | none => exact hplain hunfed hown
        | some own =>
          rw [Node.configured?, hown, Option.some_or] at hsame
          obtain rfl := Option.some.inj hsame
          exact isSeveral_of_scalar (hfitting.level.own node hn key own hown)
      · obtain ⟨edge, he, htarget, hfills, t, t', hhanded, hmoment, hmt, hflat, hname, hlast⟩ :=
          exists_last_handed hw hm₀ hconfigure hexpand hfinalize hfitting.level.flat hfitting.edges hn
            hunfed
        have hwholes : ∀ link, edge.kind = .data link → link.splitIndex? = none → ∀ source ∈ t.nodes,
            source.id = edge.source → ∀ current t₁,
              propertyValue source.id link.sourceProperty t = .ok current t₁ →
                ∃ found, current = some found ∧ found.isSeveral = false := by
          intro link hk hplace source hs hid current t₁ hread
          have hkey : link.targetProperty = key := Edge.Fills.unique ⟨link, hk, rfl⟩ hfills
          -- All has arrived at the source, where what is handed on is unmixed.
          obtain ⟨old, hold, hsame, hname⟩ := hmoment.exists_node hs
          have hsource : old.id = edge.source := hsame.trans hid
          obtain ⟨found, hfound, hmt₁, hlate, hstored⟩ :=
            (hwhole edge he htarget link hk hkey hplace old hold hsource).exists_found hexpand hfinalize
              hm₀ hmoment hmt hs hsource hname hread
          exact ⟨found, hfound, ih edge he htarget link hk hkey hplace old hold hsource hold hmt₁ hlate
            hstored⟩
        obtain ⟨target, ht, raw', hraw', hfew⟩ := hhanded.single hmt hflat (hfitting.edges edge he)
          hfills (htarget ▸ not_takesMany hm₀.ids hn hone) hwholes
        rw [hname target ht, hlast.1, hraw] at hraw'
        exact Option.some.inj hraw' ▸ hfew
    have hlasts : prepared.scope.forest.Lasting (fun owner? other => fixed owner? other ∧
        prepared.scope.forest.Single owner? other) (some node.name) key :=
      .of_leadsTo ⟨hslot, raw, hraw, hsingle⟩ hraw hleads
    exact isSeveral_of_stored hm.sound hm.consistent (fun owner? other h => hfixed owner? other h.1)
      (fun _ _ h => h.2) hlasts hv

end Prepared

/-- The value of a key of the node of this name is unmixed in a prepared graph. If the node comes from
a pipeline inside a job, it was unmixed there and came to something without references. -/
inductive Tidy : Nat → CompileOptions → Graph → Graph → String → String → Prop
  | own {depth : Nat} {options : CompileOptions} {built repeated prepared : Graph} {node : Node}
      {key : String} (hsplit : split built = .ok () repeated) (hn : node ∈ repeated.nodes)
      (h : Unmixed built repeated prepared.scope.forest (fun _ _ => True) node key) :
      Tidy depth options built prepared node.name key
  | adopted {depth : Nat} {options : CompileOptions} {built filled prepared built' inner : Graph}
      {owner old : Node} {pipeline : Pipeline} {key : String} (hon : options.expandNested = true)
      (hspread : spread built = .ok () filled)
      (hhouses : Houses (prepareNested (depth + 1)) filled owner pipeline)
      (hbuild : build pipeline = .ok built')
      (hprepare : prepareNested (depth + 1) built' = .ok () inner) (hold : old ∈ inner.nodes)
      (h : Tidy depth {} built' inner old.name key)
      (hfree : ∀ v, inner.outcome? old.id key = some v → v.references = []) :
      Tidy (depth + 1) options built prepared (owner.name ++ "_" ++ old.name) key

/-- The pipeline inside a node has no list in a list if the definitions have none. -/
theorem Houses.flat {prepare : GraphM Unit} {filled : Graph} {owner : Node} {pipeline : Pipeline}
    (h : Houses prepare filled owner pipeline) (hprepare : Finishes prepare)
    (hstart : Unfolding filled filled) (hids : ∀ id ∈ filled.nestedIds, id < filled.nextId)
    (hnested : ∀ owner ∈ filled.nodes, ∀ nested ∈ owner.spec.nested?,
      Pipeline.FlatThroughout nested) : pipeline.FlatThroughout := by
  obtain ⟨before, behind, g, t, nested, settings, heq, hbefore, hn, hsome, hsettings, rfl⟩ := h
  have hg : Unfolding filled g := hstart.forM hprepare
    (fun id hid => hids id (heq ▸ List.mem_append_left _ hid)) hnested hbefore
  have hlt : owner.id < filled.nextId := hids owner.id (heq ▸ by simp)
  exact (hnested owner (hg.older owner (id_of_node? hn).1 hlt) nested hsome).overlay
    (flat_of_configuration hg.flat hg.unresolved hsettings)

/-- A node that was taken over has what its values came to in the pipeline that it comes from. -/
theorem outcome_of_adopted {inner prepared : Graph} (hinner : inner.Mirrored)
    (hsettled : ∀ node ∈ inner.nodes, inner.Settled node) (hm : prepared.Mirrored) {owner : String}
    {old node : Node} (hold : old ∈ inner.nodes)
    (hn : node ∈ prepared.nodes) (hadopted : AdoptedFor owner old node) {key : String} {raw : Value}
    (hraw : prepared.scope.forest.entry? (some node.name) key = some raw) :
    inner.outcome? old.id key = some raw ∧ Remembers inner.scope old.name key raw := by
  rw [hm.entry?_eq hn, Node.configured?, hadopted.overrides, hadopted.spec] at hraw
  obtain ⟨hvalue, hremembers⟩ := (hsettled old hold).resolved hraw
  exact ⟨by rw [outcome?, hinner.node?_eq_some hold, Option.bind_some, hvalue], hremembers⟩

/-- A value without references comes to several values only if it is several. -/
theorem isSeveral_of_no_references {g : Graph} (hm : g.Mirrored) {owner key : String} {raw v : Value}
    (hraw : g.scope.forest.entry? (some owner) key = some raw) (hrefs : raw.references = [])
    (hsingle : raw.isSeveral = false) (hv : Remembers g.scope owner key v) : v.isSeveral = false := by
  have hlasts : g.scope.forest.Lasting g.scope.forest.Single (some owner) key :=
    .of_leadsTo ⟨raw, hraw, hsingle⟩ hraw (.of_no_references hrefs)
  exact isSeveral_of_stored hm.sound hm.consistent (fun _ _ _ => ⟨rfl, fun _ _ _ h => h⟩)
    (fun _ _ h => h) hlasts hv.stored

/-- A tidy value comes to a single one. The induction goes into the pipelines inside jobs. -/
theorem Tidy.isSeveral {depth : Nat} {options : CompileOptions} {built prepared : Graph}
    {name key : String} (h : Tidy depth options built prepared name key) {pipeline : Pipeline} {u : Unit}
    (hpipeline : pipeline.FlatThroughout) (hbuild : build pipeline = .ok built)
    (hprepare : prepareStages options (prepareNested depth) built = .ok u prepared) {v : Value}
    (hv : Remembers prepared.scope name key v) : v.isSeveral = false := by
  induction h generalizing pipeline u v with
  | @own depth options built repeated prepared node key hsplit hn hunmixed =>
    have hm := (finishes_prepareStages (finishes_prepareNested depth) _ _ _ _ hpipeline hbuild
      hprepare).mirrored
    rw [prepareStages_eq] at hprepare
    obtain ⟨_, filled, hspread, hprepare⟩ := bind_eq_ok.mp hprepare
    obtain ⟨_, expanded, hexpand, hfinalize⟩ := bind_eq_ok.mp hprepare
    obtain ⟨_, repeated', hsplit', hconfigure⟩ := bind_eq_ok.mp hspread
    obtain ⟨-, rfl⟩ := EStateM.Result.ok.inj (hsplit.symm.trans hsplit')
    cases hpipeline with
    | intro hflat _ =>
      exact hunmixed.isSeveral hflat hbuild hsplit hconfigure hexpand hfinalize hn hm
        (fun _ _ _ => ⟨rfl, fun _ _ _ h => h⟩) hv.stored
  | @adopted depth options built filled prepared built' inner owner old nested key hon hspread hhouses
    hbuilt hinner hold htidy hfree ih =>
    have hfinishes := finishes_prepareNested (depth + 1)
    have hm := (finishes_prepareStages hfinishes _ _ _ _ hpipeline hbuild hprepare).mirrored
    rw [prepareStages_eq] at hprepare
    obtain ⟨_, filled', hspread', hprepare⟩ := bind_eq_ok.mp hprepare
    obtain ⟨_, expanded, hexpand, hfinalize⟩ := bind_eq_ok.mp hprepare
    obtain ⟨-, rfl⟩ := EStateM.Result.ok.inj (hspread.symm.trans hspread')
    obtain ⟨hstart, hnested, hids⟩ := unfolding_of_spread hpipeline hbuild hspread
    have hrun := expandWithin_eq_ok hexpand
    rw [if_pos hon] at hrun
    have hflat := hhouses.flat hfinishes hstart hids hnested
    obtain ⟨_, _, _, hbuilt', hinner', htransplanted⟩ := hhouses.transplanted
      (preparesAcyclic_prepareNested _) (awaits_of_spread hbuild hspread) hrun hfinalize
    obtain rfl := Except.ok.inj (hbuilt.symm.trans hbuilt')
    obtain ⟨-, rfl⟩ := EStateM.Result.ok.inj (hinner.symm.trans hinner')
    obtain ⟨last, hlast, hadopted, -⟩ := htransplanted.nodes old hold
    rw [← hadopted.name] at hv
    have hraw : (prepared.scope.forest.entry? (some last.name) key).isSome := by
      obtain ⟨leaf, hleaf, hisSome, -⟩ := hv
      rwa [Forest.entry?_some, hleaf, Option.bind_some]
    obtain ⟨raw, hraw⟩ := Option.isSome_iff_exists.mp hraw
    have hfinished := hfinishes _ _ _ _ hflat hbuilt hinner
    obtain ⟨houtcome, hremembers⟩ :=
      outcome_of_adopted hfinished.mirrored hfinished.settled hm hold hlast hadopted hraw
    have hstages : prepareStages {} (prepareNested depth) built' = .ok () inner :=
      prepareNested_succ depth ▸ hinner
    exact isSeveral_of_no_references hm hraw (hfree raw houtcome) (ih hflat hbuilt hstages hremembers) hv

/-- **Single values.** Where no list holds a list, a tidy value of a prepared graph, if it comes to
anything, comes to a scalar or an empty list. -/
theorem single_of_prepare {options : CompileOptions} {pipeline : Pipeline} {built prepared : Graph}
    {u : Unit} (hpipeline : pipeline.FlatThroughout) (hbuild : build pipeline = .ok built)
    (hprepare : prepare options built = .ok u prepared) :
    ∀ node ∈ prepared.nodes, ∀ key, Tidy built.depth options built prepared node.name key →
      ∀ v, prepared.outcome? node.id key = some v → v.isList = false ∨ v = .list [] := by
  intro node hn key htidy v hv
  obtain ⟨hm, hsettled, -⟩ := settled_of_prepare hbuild hprepare
  obtain ⟨other, ho, hid, hremembers⟩ := remembers_of_outcome? hsettled hv
  obtain rfl := List.inj_on_of_nodup_map hm.ids ho hn hid
  obtain ⟨_, _, hget, hprepare⟩ := bind_eq_ok.mp hprepare
  obtain ⟨rfl, rfl⟩ := get_eq_ok.mp hget
  rw [prepareWithin_eq] at hprepare
  exact isSeveral_eq_false.mp (htidy.isSeveral hpipeline hbuild hprepare hremembers)

/-- A value of the definition whose only reference leads to one of the same node that has none is unmixed
once all has arrived at the node, if both are, in the end, what they were when the job had its turn. -/
theorem unmixed_of_own_reference {built repeated asked : Graph} {late : Forest} (hm : repeated.Mirrored)
    {node job : Node} (hn : node ∈ repeated.nodes) {key other : String} {plan : Drivers}
    (hone : ∃ p ∈ node.spec.parameters, p.name = key ∧ p.isList = false)
    (hunfed : Unfed repeated.edges node.id key) (hown : node.overrides.get? key = none)
    (hjob : job ∈ built.nodes) (hspec : node.spec = job.spec) (hname : job.name = node.name)
    (hbefore : Unfed built.edges job.id key) (hplanned : planned job.id built = .ok plan asked)
    (hhouse : (repeated.scope.forest.child? Forest.root node.name).isSome) {raw plain : Value}
    (hraw : late.entry? (some node.name) key = some raw) (hrefs : raw.references = [[other]])
    (hplain : late.entry? (some node.name) other = some plain) (hnone : plain.references = [])
    (hasked : asked.scope.forest.entry? (some node.name) key = some raw ∧
      asked.scope.forest.entry? (some node.name) other = some plain) :
    Unmixed built repeated late (Delivered repeated node.id) node key := by
  obtain ⟨haskedRaw, haskedPlain⟩ := hasked
  have hdelivered : ∀ key, Delivered repeated node.id (some node.name) key := fun key =>
    ⟨hhouse, fun twin ht htwin => .inl (congrArg _ (List.inj_on_of_nodup_map hm.names ht hn htwin))⟩
  have hhome : renamed node.name job.name (some node.name) = some node.name := by
    rw [renamed, if_pos rfl, hname]
  refine .declared hone hunfed hown hjob hspec hbefore hplanned ?_
  have hlasts : late.Lasting (fun owner? key => Delivered repeated node.id owner? key ∧
      asked.scope.forest.Echoes late (renamed node.name job.name) owner? key) (some node.name) other := by
    refine .of_leadsTo ⟨hdelivered other, ?_, fun found hfound path hp => ?_⟩ hplain
      (.of_no_references hnone)
    · rw [hhome, haskedPlain, hplain]
    · obtain rfl := Option.some.inj (hplain.symm.trans hfound)
      simp [hnone] at hp
  refine .of_leadsTo ⟨hdelivered key, ?_, fun found hfound path hp other? key' fields hpoints => ?_⟩
    hraw (.of_own hrefs (by rw [hplain]; rfl) hlasts)
  · rw [hhome, haskedRaw, hraw]
  · obtain rfl := Option.some.inj (hraw.symm.trans hfound)
    obtain rfl : path = [other] := by simpa [hrefs] using hp
    obtain ⟨rfl, rfl⟩ := hpoints.eq_of_own (by rw [hplain]; rfl)
    cases hpoints with
    | own _ =>
      rw [hhome]
      exact .own (by rw [haskedPlain]; rfl)

/-- A pot is filled, and a cup of it is given to each of two. -/
def serving : Pipeline where
  jobs := [
    { id := "fill"
      parameters := [{ name := "leaf" }, { name := "pot", isOutput := true }]
      configuration := .ofList [("leaf", .str "green"), ("pot", .str "$\x7bleaf\x7d tea")] },
    { id := "drink"
      parameters := [{ name := "who" }, { name := "cup" }]
      configuration := .ofList [("who", .list [.str "ann", .str "bob"]),
        ("cup", .str "$\x7bfill.pot\x7d for $\x7bwho\x7d")] }]

set_option synthInstance.maxSize 2000 in
theorem bob_has_one_cup : ∃ built prepared, serving.FlatThroughout ∧ build serving = .ok built ∧
    prepare {} built = .ok () prepared ∧ ∃ node ∈ prepared.nodes,
      Tidy built.depth {} built prepared node.name "cup" ∧
      prepared.outcome? node.id "cup" = some (.str "green tea for bob") ∧
      ∀ v, prepared.outcome? node.id "cup" = some v → v.isList = false ∨ v = .list [] := by
  have hserving : serving.FlatThroughout :=
    Pipeline.Flat.throughout ⟨by decide, by decide, by decide, by decide⟩ (by decide)
  obtain ⟨built, repeated, prepared, hbuild, hsplit, hprepare, ⟨source, hs, node, hn,
      ⟨hfill, hjob, hpot, hunfed, hown⟩, hname, hone, hfed, hedges⟩, hhouse, hjobs,
      ⟨last, hlast, hcalled, houtcome⟩, hcup, hwho, htea, hleaf⟩ :=
    exists_prepared {} serving (fun built repeated prepared =>
      (∃ source ∈ repeated.nodes, ∃ node ∈ repeated.nodes,
        (source.name = "fill" ∧ source.spec.id = "fill" ∧
          (∃ p ∈ source.spec.parameters, p.name = "pot" ∧ p.isList = false) ∧
          Unfed repeated.edges source.id "pot" ∧ source.overrides.get? "pot" = none) ∧
        node.name = "drink_split_1" ∧ node.spec.TakesOne "cup" ∧
        ¬ Unfed repeated.edges node.id "cup" ∧
        ∀ edge ∈ repeated.edges, edge.target = node.id → edge.source = source.id ∧
          edge.kind = .data ⟨.oneToOne, "pot", "cup", .str "green tea", none⟩) ∧
      (repeated.scope.forest.child? Forest.root "fill").isSome ∧
      (∀ job ∈ built.nodes, job.name = "fill" → Unfed built.edges job.id "pot" ∧
        (match planned job.id built with
          | .ok _ asked => decide (asked.scope.forest.entry? (some "fill") "pot" =
              some (.str "$\x7bleaf\x7d tea") ∧
              asked.scope.forest.entry? (some "fill") "leaf" = some (.str "green"))
          | .error _ _ => false) = true) ∧
      (∃ last ∈ prepared.nodes, last.name = "drink_split_1" ∧
        prepared.outcome? last.id "cup" = some (.str "green tea for bob")) ∧
      prepared.scope.forest.entry? (some "drink_split_1") "cup" =
        some (.str "green tea for $\x7bwho\x7d") ∧
      prepared.scope.forest.entry? (some "drink_split_1") "who" = some (.str "bob") ∧
      prepared.scope.forest.entry? (some "fill") "pot" = some (.str "$\x7bleaf\x7d tea") ∧
      prepared.scope.forest.entry? (some "fill") "leaf" = some (.str "green"))
      (by decide +kernel)
  have hm : repeated.Mirrored := (inStep_split hsplit (mirrored_build hbuild)).1
  have hteaRefs : (Value.str "$\x7bleaf\x7d tea").references = [["leaf"]] := by decide +kernel
  have hcupRefs : (Value.str "green tea for $\x7bwho\x7d").references = [["who"]] := by decide +kernel
  have hbobRefs : (Value.str "bob").references = [] := by decide +kernel
  obtain ⟨job, hj, hspec, plan, asked, hplanned, -⟩ := allotted_of_split hbuild hsplit source hs
  have hjname : job.name = "fill" := by rw [(nodes_of_build hbuild job hj).2.1, ← hspec, hjob]
  -- When all has arrived where the pot is filled, nothing changes there any more.
  have hpour : Unmixed built repeated prepared.scope.forest (Delivered repeated source.id) source
      "pot" := by
    obtain ⟨hbefore, hthen⟩ := hjobs job hj hjname
    rw [hplanned] at hthen
    rw [← hfill] at hhouse htea hleaf hthen
    exact unmixed_of_own_reference hm hs hpot hunfed hown hj hspec (hjname.trans hfill.symm) hbefore
      hplanned hhouse htea hteaRefs hleaf (by decide +kernel) (of_decide_eq_true hthen)
  have hunmixed : Unmixed built repeated prepared.scope.forest (fun _ _ => True) node "cup" := by
    refine .single hone trivial (hname ▸ hcup) ?_ (fun h _ => absurd h hfed) ?_
    · rw [hname]
      exact .of_own hcupRefs (by rw [hwho]; rfl)
        (.of_leadsTo ⟨trivial, _, hwho, rfl⟩ hwho (.of_no_references hbobRefs))
    · intro edge he htarget link hk _ _ other ho hid
      obtain ⟨hfrom, hdata⟩ := hedges edge he htarget
      obtain rfl := List.inj_on_of_nodup_map hm.ids ho hs (hid.trans hfrom)
      obtain rfl := EdgeKind.data.inj (hdata.symm.trans hk)
      exact hpour
  have htidy : Tidy built.depth {} built prepared last.name "cup" :=
    hcalled ▸ hname ▸ .own hsplit hn hunmixed
  exact ⟨built, prepared, hserving, hbuild, hprepare, last, hlast, htidy, houtcome,
    single_of_prepare hserving hbuild hprepare last hlast "cup" htidy⟩

/-- Two sizes are given to all jobs, and what is asked for has a size and comes along an edge. -/
def sizing : Pipeline where
  jobs := [
    { id := "fill"
      parameters := [{ name := "pot", isOutput := true }]
      configuration := .ofList [("pot", .str "tea")] },
    { id := "drink"
      parameters := [{ name := "cup" }]
      configuration := .ofList [("cup", .str "$\x7bsize\x7d $\x7bfill.pot\x7d")] }]
  configuration := .ofList [("size", .list [.str "small", .str "large"])]

/-- Cups are put on a tray only after the job that takes what is on it had its turn. -/
def tasting : Pipeline where
  jobs := [
    { id := "taste"
      parameters := [{ name := "sip" }]
      configuration := .ofList [("sip", .str "$\x7btray.cups\x7d")] },
    { id := "tray"
      parameters := [{ name := "cups", isList := true }]
      configuration := .ofList [("cups", .str "$\x7bpour.cup\x7d")] },
    { id := "pour"
      parameters := [{ name := "half" }, { name := "cup", isOutput := true, isFile := true }]
      configuration := .ofList [("half", .list [.str "left", .str "right"]), ("cup", .str "cup")] }]

theorem cups_come_to_lists :
    (sizing.FlatThroughout ∧ ∃ built repeated prepared, build sizing = .ok built ∧
      split built = .ok () repeated ∧ prepare {} built = .ok () prepared ∧
      ∃ node ∈ prepared.nodes, node.spec.parameters = [{ name := "cup" }] ∧
        prepared.outcome? node.id "cup" = some (.list [.str "small tea", .str "large tea"])) ∧
    (tasting.FlatThroughout ∧ ∃ built repeated prepared, build tasting = .ok built ∧
      split built = .ok () repeated ∧ prepare {} built = .ok () prepared ∧
      ∃ node ∈ prepared.nodes, node.spec.parameters = [{ name := "sip" }] ∧
        prepared.outcome? node.id "sip" = some (.list [.str "cup.split_0", .str "cup.split_1"])) :=
  ⟨⟨Pipeline.Flat.throughout ⟨by decide, by decide, by decide, by decide⟩ (by decide),
      exists_prepared {} sizing _ (by decide +kernel)⟩,
    Pipeline.Flat.throughout ⟨by decide, by decide, by decide, by decide⟩ (by decide),
    exists_prepared {} tasting _ (by decide +kernel)⟩

end Graph

end Pipework
