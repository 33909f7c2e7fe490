import Pipework.Proofs.Reading

/-!
# Repetitions go by their own values

A template in a repetition is evaluated where the repetition stands: references to other values
of the job stand for those of the repetition itself, and references that name the job stand for
what the job was left with. Only a template that came to a list when the job was to be repeated is
settled then: each repetition has the element at its place for good, also where other values of
it are changed after that.
-/

namespace Pipework

open Step Resolve

/-- The reference names a key of the node, by itself or together with an owner under whose name
the node has no value. -/
def Node.Names (node : Node) (owner : String) (path : List String) (key : String) : Prop :=
  ∃ fields, path = key :: fields ∨
    path = owner :: key :: fields ∧ node.configured? owner = none

/-- A reference in a value of a repetition that leads to a value of the repetition itself, or, named
with the job, to one of the job. -/
def Node.Knows (replica job : Node) (path : List String) : Prop :=
  ∃ key fields, path = key :: fields ∧ (replica.configured? key).isSome ∨
    path = job.name :: key :: fields ∧ replica.configured? job.name = none ∧
      (job.configured? key).isSome

/-- The value that a reference in a repetition of a job leads to, and the segments behind it. Keys
stand for values of the repetition's `own`, and those named with the job for `named` ones. -/
def referent? (job : String) (own named : String → Option Value) :
    List String → Option (Value × List String)
  | [] => none
  | first :: rest =>
    match own first, rest with
    | some v, fields => some (v, fields)
    | none, key :: fields => if first = job then (named key).map (·, fields) else none
    | none, [] => none

/-- What references in a repetition of a job stand for. -/
def answers (job : String) (own named : String → Option Value) (path : List String) :
    Except ScopeError Value :=
  match referent? job own named path with
  | some (v, fields) => FileField.derive v fields (joinPath path)
  | none => .error (.unresolvedReference (joinPath path))

section Answers

variable {job key : String} {own named : String → Option Value} {v : Value}

/-- A reference to a value of the repetition itself stands for that. -/
theorem answers_own (hv : own key = some v) (fields : List String) :
    answers job own named (key :: fields) =
      FileField.derive v fields (joinPath (key :: fields)) := by
  simp only [answers, referent?, hv]

/-- A reference that names the job stands for what the job was left with. -/
theorem answers_named (hnone : own job = none) (hv : named key = some v) (fields : List String) :
    answers job own named (job :: key :: fields) =
      FileField.derive v fields (joinPath (job :: key :: fields)) := by
  simp only [answers, referent?, hnone, hv, if_true, Option.map_some]

end Answers

namespace Graph

section Replica

variable {g : Graph} (hm : g.Mirrored) {replica job : Node} (hr : replica ∈ g.nodes)
  (hjob : ∀ key, (job.configured? key).isSome →
    ∃ raw, g.scope.forest.held? job.name key = some (some raw))
  {own : Settings} (hown : Recorded g.scope replica.name own)
  (hall : ∀ key, (replica.configured? key).isSome → (own.get? key).isSome)

include hm hr hjob hown hall

/-- References that a repetition knows are answered with what the nodes keep. -/
theorem answers_of_fromMemory {scope : ScopeId}
    (hs : g.scope.forest.child? Forest.root replica.name = some scope) {path : List String}
    (h : replica.Knows job path) {w : Value}
    (hw : fromMemory g.scope.forest g.scope.memo scope path = .ok w) :
    answers job.name own.get? (g.resolvedIn? job.name) path = .ok w := by
  obtain ⟨key, fields, ⟨rfl, hkey⟩ | ⟨rfl, hnone, hkey⟩⟩ := h
  · obtain ⟨v, hv, hderive⟩ := own_of_fromMemory hm hr hs hkey hw
    obtain ⟨v', hv'⟩ := Option.isSome_iff_exists.mp (hall key hkey)
    rw [answers_own (hv'.trans (congrArg some ((hown key v' hv').unique hv)))]
    exact hderive
  · obtain ⟨raw, hheld⟩ := hjob key hkey
    obtain ⟨v, hv, hderive⟩ := named_of_fromMemory hm hr hs hnone hheld hw
    rw [answers_named (own_of_configured? hm hr hown hnone) hv.resolvedIn?]
    exact hderive

/-- What a value of a repetition resolved to is what it comes to with known references answered. -/
theorem valueWith_answers {key : String} {raw : Value} (hraw : replica.configured? key = some raw)
    (hknown : ∀ path ∈ raw.references, replica.Knows job path) :
    ∃ v, own.get? key = some v ∧
      valueWith (answers job.name own.get? (g.resolvedIn? job.name)) raw = .ok v := by
  obtain ⟨v, hv⟩ := Option.isSome_iff_exists.mp (hall key (by rw [hraw]; rfl))
  obtain ⟨scope, hs, -⟩ := hm.room replica hr
  refine ⟨v, hv, valueWith_mono (fun path hp w hw => answers_of_fromMemory hm hr hjob hown hall hs
    (hknown path hp) hw) (valueWith_of_remembers hm hr hs hraw (hown key v hv) fun path hp => ?_)⟩
  obtain ⟨key, fields, ⟨rfl, hkey⟩ | ⟨rfl, hnone, hkey⟩⟩ := hknown path hp
  · obtain ⟨leaf, -, hleaf, hbeside⟩ := beside_own hm hr hs hkey
    exact ⟨leaf, 1, hbeside fields, hleaf⟩
  · obtain ⟨raw, hheld⟩ := hjob key hkey
    obtain ⟨leaf, -, hleaf, hbeside⟩ := beside_named hm hr hs hnone hheld
    exact ⟨leaf, 2, hbeside fields, hleaf⟩

end Replica

/-- What a repetition has under a key is its share of the value that the job had there when it was
to be repeated: of a list its element, and else the same. It is a scalar. -/
def Carried (asked : Graph) (job : String) (place : Nat) (own : Settings) (key : String) : Prop :=
  ∃ v, asked.resolvedIn? job key = some v ∧ own.get? key = some (v.elementAt place) ∧
    (v.elementAt place).isList = false

/-- A scalar that the job had is carried if the repetition has it, too. -/
theorem carried_of_scalar {asked : Graph} {job key : String} {place : Nat} {own : Settings} {v : Value}
    (h : asked.resolvedIn? job key = some v) (hown : own.get? key = some v) (hscalar : v.isList = false) :
    asked.Carried job place own key := by
  refine ⟨v, h, ?_, ?_⟩ <;> rwa [Value.elementAt_of_not_isList hscalar]

/-- A list that the job had is carried if the repetition has the scalar at its place in the list. -/
theorem carried_of_element {asked : Graph} {job key : String} {place : Nat} {own : Settings}
    {items : List Value} {item : Value} (h : asked.resolvedIn? job key = some (.list items))
    (hitem : items[place]? = some item) (hown : own.get? key = some item) (hscalar : item.isList = false) :
    asked.Carried job place own key := by
  refine ⟨.list items, h, ?_, ?_⟩ <;> rwa [Value.elementAt_list hitem]

section Asked

variable {asked : Graph} (hm : asked.Mirrored) {replica job : Node} (hjob : job ∈ asked.nodes)
  {own : Settings}
  (hfree : replica.configured? job.name = none →
    job.configured? job.name = none ∧ own.get? job.name = none)
  {scope : ScopeId} (hs : asked.scope.forest.child? Forest.root job.name = some scope)

include hm hjob hfree hs

/-- A reference to a key that a repetition carries is answered in it with the share of what the job
had there. -/
theorem answers_of_carried {place : Nat} {path : List String} {key : String}
    (hname : replica.Names job.name path key) (hkey : asked.Carried job.name place own key)
    {w : Value} (hw : fromMemory asked.scope.forest asked.scope.memo scope path = .ok w) :
    answers job.name own.get? own.get? path = .ok (w.elementAt place) ∧
      (w.elementAt place).isList = false := by
  obtain ⟨v, hv, hown, hscalar⟩ := hkey
  obtain ⟨raw, hheld⟩ := held_of_resolvedIn? hv
  obtain ⟨fields, rfl | ⟨rfl, hnone⟩⟩ := hname
  · have hsome := hm.isSome_configured? hjob hheld
    obtain ⟨v', hv', hderive⟩ := own_of_fromMemory hm hjob hs hsome hw
    obtain rfl := Option.some.inj (hv'.resolvedIn?.symm.trans hv)
    have hshare := FileField.derive_elementAt hderive place
    exact ⟨(answers_own hown fields).trans hshare, FileField.isList_of_derive hscalar hshare⟩
  · obtain ⟨hfree, hbare⟩ := hfree hnone
    obtain ⟨v', hv', hderive⟩ := named_of_fromMemory hm hjob hs hfree hheld hw
    obtain rfl := Option.some.inj (hv'.resolvedIn?.symm.trans hv)
    have hshare := FileField.derive_elementAt hderive place
    exact ⟨(answers_named hbare hown fields).trans hshare,
      FileField.isList_of_derive hscalar hshare⟩

/-- The element that a repetition gets of a list that a template came to is what the template comes
to in it, if it carries all that the template refers to. -/
theorem valueWith_carried {key text : String} {items : List Value} {place : Nat} {item : Value}
    (hraw : job.configured? key = some (.str text))
    (hlist : Remembers asked.scope job.name key (.list items)) (hitem : items[place]? = some item)
    (hcarried : ∀ path ∈ Template.references text, ∃ key, replica.Names job.name path key ∧
      asked.Carried job.name place own key) :
    valueWith (answers job.name own.get? own.get?) (.str text) = .ok item := by
  have hfrom := valueWith_of_remembers hm hjob hs hraw hlist fun path hp => ?near
  case near =>
    obtain ⟨key, ⟨fields, hpath⟩, v, hv, -, -⟩ := hcarried path hp
    obtain ⟨raw, hheld⟩ := held_of_resolvedIn? hv
    rcases hpath with rfl | ⟨rfl, hnone⟩
    · have hsome := hm.isSome_configured? hjob hheld
      obtain ⟨leaf, -, hleaf, hbeside⟩ := beside_own hm hjob hs hsome
      exact ⟨leaf, 1, hbeside fields, hleaf⟩
    · obtain ⟨leaf, -, hleaf, hbeside⟩ := beside_named hm hjob hs (hfree hnone).1 hheld
      exact ⟨leaf, 2, hbeside fields, hleaf⟩
  have hnarrow := valueWith_narrowed hfrom hitem fun path hp w hw => by
    obtain ⟨key, hname, hkey⟩ := hcarried path hp
    exact (answers_of_carried hm hjob hfree hs hname hkey hw).2
  refine valueWith_mono (fun path hp w hw => ?_) hnarrow
  obtain ⟨u, hu, rfl⟩ := narrowed_eq_ok.mp hw
  obtain ⟨key, hname, hkey⟩ := hcarried path hp
  exact (answers_of_carried hm hjob hfree hs hname hkey hu).1

end Asked

/-- No edge leads to the key in the job or in its repetition, and it is no path of which each
repetition gets one of its own. -/
def Quiet (built repeated : Graph) (job replica : Node) (key : String) : Prop :=
  ¬ job.spec.IsPath key ∧ Unfed built.edges job.id key ∧ Unfed repeated.edges replica.id key

instance (built repeated : Graph) (job replica : Node) (key : String) :
    Decidable (Quiet built repeated job replica key) :=
  inferInstanceAs (Decidable (_ ∧ _))

/-- A repetition in a prepared graph was given values when the turn of its job came, and has kept
them where nothing else reaches. -/
theorem shared_of_prepare {options : CompileOptions} {pipeline : Pipeline}
    {built repeated prepared : Graph} {u v : Unit} (hbuild : build pipeline = .ok built)
    (hsplit : split built = .ok u repeated) (hprepare : prepare options built = .ok v prepared)
    {job replica : Node} (hjob : job ∈ built.nodes) (hr : replica ∈ prepared.nodes)
    (hmade : replica.id ∈ repeated.nodes.map (·.id)) (hreplica : replica.isReplica)
    (hspec : replica.spec.id = job.name) :
    replica.spec = job.spec ∧ ∃ plan asked serial place, planned job.id built = .ok plan asked ∧
      replica.name = job.name ++ "_" ++ replicaSuffix serial place ∧
      ∀ key, Quiet built repeated job replica key → Shared job plan place key replica := by
  have hnodes := nodes_of_build hbuild
  have hw : repeated.WellFormed := (orderly_of_split hbuild hsplit).wellFormed
  obtain ⟨origin, horigin, houtline, hown⟩ :=
    origin_of_prepare hw.below hsplit hprepare hr hmade
  have hrepeated : Repeated built origin := repeated_of_split hbuild hsplit origin horigin (by
    rwa [← isReplica_of_outline houtline])
  obtain ⟨other, hother, plan, asked, serial, place, hplanned, hsame, hname, -, hshared⟩ :=
    hrepeated
  rw [← spec_of_outline houtline] at hsame
  rw [← name_of_outline houtline] at hname
  obtain rfl : other = job := List.inj_on_of_nodup_map (mirrored_build hbuild).names hother hjob (by
    rw [(hnodes other hother).2.1, ← hsame, hspec])
  refine ⟨hsame, plan, asked, serial, place, hplanned, hname, ?_⟩
  rintro key ⟨hpath, hunfed, hunfed'⟩
  rw [Shared, hown key hunfed']
  exact hshared key hpath hunfed

/-- In a prepared graph a template of a job that was repeated, for a quiet key, is in each repetition
what it comes to with the values of the repetition itself for references to values of the job, and
with what the job was left with for references that name the job. Only if it came to a list when
the job was to be repeated, the repetition has the element at its place, which is what the
template comes to in either spelling if the repetition carries all that it refers to; and a
repetition carries what is quiet and was a list of plain scalars then, or is a plain scalar in the
definition. -/
theorem replica_agrees {options : CompileOptions} {pipeline : Pipeline}
    {built repeated prepared : Graph} {u v : Unit} (hbuild : build pipeline = .ok built)
    (hsplit : split built = .ok u repeated) (hprepare : prepare options built = .ok v prepared)
    {job replica : Node} (hjob : job ∈ built.nodes) (hr : replica ∈ prepared.nodes)
    (hmade : replica.id ∈ repeated.nodes.map (·.id)) (hreplica : replica.isReplica)
    (hspec : replica.spec.id = job.name) :
    ∃ plan asked own serial place, planned job.id built = .ok plan asked ∧
      replica.name = job.name ++ "_" ++ replicaSuffix serial place ∧ replica.resolved? = some own ∧
      (∀ key text, job.configured? key = some (.str text) → Quiet built repeated job replica key →
        (∀ path ∈ Template.references text, replica.Knows job path) →
        (key ∉ plan.lists.map (·.1) ∧ ∃ v, own.get? key = some v ∧
          valueWith (answers job.name own.get? (prepared.resolvedIn? job.name)) (.str text) =
            .ok v) ∨
        ∃ item, plan.Deals place key item ∧ replica.configured? key = some item ∧
          (item.mayRefer = false → own.get? key = some item) ∧
          ((∀ path ∈ Template.references text, ∃ other, replica.Names job.name path other ∧
            asked.Carried job.name place own other) →
          valueWith (answers job.name own.get? own.get?) (.str text) = .ok item)) ∧
      ∀ key value, Quiet built repeated job replica key → value.isList = false →
        value.mayRefer = false → (plan.Deals place key value ∨ job.configured? key = some value) →
        asked.Carried job.name place own key := by
  obtain ⟨hsame, plan, asked, serial, place, hplanned, hname, hshared⟩ :=
    shared_of_prepare hbuild hsplit hprepare hjob hr hmade hreplica hspec
  obtain ⟨hm, hsettled, hleft⟩ := settled_of_prepare hbuild hprepare
  obtain ⟨own, hresolved, hrecorded, hkeys⟩ := hsettled replica hr
  obtain ⟨hasked, hin, hlists⟩ := planned_spec hbuild hjob hplanned
  have hbare : job.overrides = ∅ := (nodes_of_build hbuild job hjob).2.2.1
  have hfree : replica.configured? job.name = none →
      job.configured? job.name = none ∧ own.get? job.name = none := by
    intro hnone
    refine ⟨?_, own_of_configured? hm hr hrecorded hnone⟩
    rw [Node.configured?, hsame, Option.or_eq_none_iff] at hnone
    rw [Node.configured?, hbare, Settings.get?_empty, Option.none_or, hnone.2]
  have hdealt : ∀ {key item}, replica.overrides.get? key = some item →
      replica.configured? key = some item ∧
        (item.mayRefer = false → own.get? key = some item) := by
    intro key item hvalue
    have hraw : replica.configured? key = some item := by
      rw [Node.configured?, hvalue, Option.some_or]
    exact ⟨hraw, own_of_not_mayRefer hm hr hrecorded hkeys hraw⟩
  have hkept : ∀ {key raw}, job.configured? key = some raw →
      replica.overrides.get? key = job.overrides.get? key → replica.configured? key = some raw := by
    intro key raw hraw hvalue
    rwa [Node.configured?, hvalue, hsame]
  refine ⟨plan, asked, own, serial, place, hplanned, hname, hresolved, ?_, ?_⟩
  · intro key text hraw hquiet hknown
    rcases hshared key hquiet with ⟨hno, hvalue⟩ | ⟨item, hdeals, hvalue⟩
    · exact .inl ⟨hno,
        valueWith_answers hm hr (hleft job hjob) hrecorded hkeys (hkept hraw hvalue) hknown⟩
    · refine .inr ⟨item, hdeals, (hdealt hvalue).1, (hdealt hvalue).2, ?_⟩
      intro hcarried
      obtain ⟨scope, hs, -⟩ := hasked.room job hin
      obtain ⟨items, hmem, hitem⟩ := hdeals
      exact valueWith_carried hasked hin hfree hs hraw (hlists _ hmem) hitem hcarried
  · intro key value hquiet hscalar hplain hvalue
    rcases hshared key hquiet with ⟨hno, hkeep⟩ | ⟨item, ⟨items, hmem, hitem⟩, hgiven⟩
    · rcases hvalue with ⟨items, hmem, -⟩ | hraw
      · exact absurd (List.mem_map_of_mem hmem) hno
      · exact carried_of_scalar (hasked.resolvedIn?_of_not_mayRefer hin hraw hplain)
          (own_of_not_mayRefer hm hr hrecorded hkeys (hkept hraw hkeep) hplain) hscalar
    · have hlist := hlists _ hmem
      rcases hvalue with ⟨items', hmem', hitem'⟩ | hraw
      · obtain rfl : items' = items := Value.list.inj ((hlists _ hmem').unique hlist)
        obtain rfl := Option.some.inj (hitem.symm.trans hitem')
        exact carried_of_element hlist.resolvedIn? hitem ((hdealt hgiven).2 hplain) hscalar
      · have hself := hasked.resolvedIn?_of_not_mayRefer hin hraw hplain
        obtain rfl := Option.some.inj (hself.symm.trans hlist.resolvedIn?)
        cases hscalar

/-- A job that fetches the parts of a page, writes each to a file, and names a log, a title and a
note after the file. -/
def paging : Pipeline where
  jobs := [
    { id := "fetch"
      parameters := [{ name := "part" }, { name := "out", isOutput := true, isFile := true },
        { name := "log" }, { name := "title" }, { name := "note" }]
      configuration := .ofList [("part", .list [.str "head", .str "tail"]),
        ("out", .str "page.txt"), ("log", .str "$\x7bout\x7d.log"),
        ("title", .str "parts of $\x7bfetch.out\x7d"),
        ("note", .str "$\x7bpart\x7d of $\x7bout\x7d")] }]

theorem log_agrees_in_paging : ∃ built repeated prepared, build paging = .ok built ∧
    split built = .ok () repeated ∧ prepare {} built = .ok () prepared ∧
    ∃ job ∈ built.nodes, ∃ replica ∈ prepared.nodes, ∃ own, replica.resolved? = some own ∧
      own.get? "log" = some (.str "page.split_0.txt.log") ∧
      valueWith (answers job.name own.get? (prepared.resolvedIn? job.name))
        (.str "$\x7bout\x7d.log") = .ok (.str "page.split_0.txt.log") := by
  obtain ⟨built, repeated, prepared, hbuild, hsplit, hprepare, job, hjob, replica, hr, hmade,
      hreplica, hspec, hraw, hquiet, hout, hlog, hlists⟩ :=
    exists_prepared {} paging (fun built repeated prepared =>
      ∃ job ∈ built.nodes, ∃ replica ∈ prepared.nodes,
        replica.id ∈ repeated.nodes.map (·.id) ∧ replica.isReplica ∧ replica.spec.id = job.name ∧
        job.configured? "log" = some (.str "$\x7bout\x7d.log") ∧
        Quiet built repeated job replica "log" ∧ (replica.configured? "out").isSome ∧
        (replica.resolved?.bind (·.get? "log")) = some (.str "page.split_0.txt.log") ∧
        (match planned job.id built with
          | .ok plan _ => decide ("log" ∉ plan.lists.map (·.1))
          | .error _ _ => false) = true) (by decide +kernel)
  refine ⟨built, repeated, prepared, hbuild, hsplit, hprepare, job, hjob, replica, hr, ?_⟩
  obtain ⟨plan, asked, own, serial, place, hplanned, -, hown, htemplates, -⟩ :=
    replica_agrees hbuild hsplit hprepare hjob hr hmade hreplica hspec
  rw [hown, Option.bind_some] at hlog
  have href : Template.references "$\x7bout\x7d.log" = [["out"]] := by decide +kernel
  have hknown : ∀ path ∈ Template.references "$\x7bout\x7d.log", replica.Knows job path := by
    rw [href]
    intro path hp
    rw [List.mem_singleton.mp hp]
    exact ⟨"out", [], .inl ⟨rfl, hout⟩⟩
  rcases htemplates "log" _ hraw hquiet hknown with ⟨-, v, hv, hvalue⟩ | ⟨item, ⟨items, hmem, -⟩, -⟩
  · obtain rfl := Option.some.inj (hv.symm.trans hlog)
    exact ⟨own, hown, hlog, hvalue⟩
  · rw [hplanned] at hlists
    exact absurd (List.mem_map_of_mem hmem) (of_decide_eq_true hlists)

theorem title_and_note_stay_behind : ∃ built repeated prepared, build paging = .ok built ∧
    split built = .ok () repeated ∧ prepare {} built = .ok () prepared ∧
    ∃ job ∈ built.nodes, ∃ replica ∈ prepared.nodes, ∃ own ∈ replica.resolved?,
      replica.id ∈ repeated.nodes.map (·.id) ∧ replica.isReplica ∧ replica.spec.id = job.name ∧
      ∀ entry ∈ [("title", "parts of $\x7bfetch.out\x7d"),
          ("note", "$\x7bpart\x7d of $\x7bout\x7d")],
        job.configured? entry.1 = some (.str entry.2) ∧
        Quiet built repeated job replica entry.1 ∧ ∃ v ∈ own.get? entry.1,
        valueWith (answers job.name own.get? own.get?) (.str entry.2) ≠ .ok v :=
  exists_prepared {} paging _ (by decide +kernel)
end Graph

end Pipework
