import Pipework.Proofs.Chaining
import Pipework.Proofs.ConsumersAndProducers
import Pipework.Proofs.ReferenceCycles

/-!
# Values are carried along chains of repetitions

When a job is repeated serially, a parameter of each repetition may take over what another parameter of
the one before comes to. The edge that carries the value is the last one to the parameter, and when it
has its turn all has arrived at the repetition before. So along the whole chain a parameter ends up with
what the other one of the repetition before comes to, as long as this reads no values of other nodes
that change later, and nothing is left in it that would be looked into once more.
-/

namespace Pipework

open Step Resolve

/-- A parameter that is the only one of its name is found by it. -/
theorem Job.parameter?_of_lone {job : Job} {name : String} {parameter : Parameter}
    (h : job.parameters.filter (·.name == name) = [parameter]) :
    job.parameter? name = some parameter := by
  rw [Job.parameter?, ← List.head?_filter, h]
  rfl

/-- What is there is no text that speaks of the output, or is nothing but a reference to it. -/
def Merge.GivesWay (property : String) (names : List String) (existing? : Option Value) : Prop :=
  ∀ text, existing? = some (.str text) →
    (∀ path ∈ Template.references text, fieldsOf? property names path = none) ∨
      ∃ path, Template.singleReference? text = some path ∧ fieldsOf? property names path = some []

theorem Merge.GivesWay.yields {link : DataLink} {names : List String} {existing? : Option Value}
    (h : GivesWay link.sourceProperty names existing?) : Yields link names existing? := by
  cases existing? with
  | none => exact fun _ => rfl
  | some existing =>
    cases existing with
    | str text =>
      rcases h text rfl with hnone | ⟨path, hsingle, hfields⟩
      · exact Graph.yields_of_references hnone
      · exact Graph.yields_of_singleReference? hsingle hfields
    | bool _ | int _ | float _ | list _ => exact fun _ => rfl

/-- The scope is that of a value that all nodes share, or of a value of this one. -/
def Forest.Near (f : Forest) (owner : String) (id : ScopeId) : Prop :=
  ∃ key, f.place? none key = some id ∨ f.leaf? owner key = some id

namespace Graph

/-- What is near a node stands when nothing leads there any more. -/
theorem standing_of_near {repeated : Graph} (hm : repeated.Mirrored) {node : Node}
    (hn : node ∈ repeated.nodes) {waiting : List Nat}
    (hno : ∀ place ∈ waiting, ∀ key, ¬ Feeds repeated.edges node.id key place) {late : Forest}
    {id : ScopeId} (h : late.Near node.name id) : repeated.Standing waiting late id := by
  obtain ⟨key, hshared | hown⟩ := h
  · exact ⟨none, key, hshared, by simp⟩
  · refine ⟨some node.name, key, hown, fun owner howner => ?_⟩
    obtain rfl := Option.some.inj howner
    obtain ⟨scope, hscope, -⟩ := hm.room node hn
    refine ⟨by rw [hscope]; rfl, ?_⟩
    rintro ⟨other, ho, hname, place, hplace, hfeeds⟩
    obtain rfl := List.inj_on_of_nodup_map hm.names ho hn hname
    exact hno place hplace key hfeeds

section Ending

variable {options : CompileOptions} {prepare : GraphM Unit} {pipeline : Pipeline}
  {built repeated filled expanded prepared : Graph} {u v w : Unit}
  (hbuild : build pipeline = .ok built) (hsplit : split built = .ok u repeated)
  (hconfigure : configure repeated = .ok v filled)
  (hexpand : expandWithin options prepare filled = .ok w expanded)
  (hfinalize : finalize expanded = .ok () prepared)

include hbuild hsplit hconfigure hexpand hfinalize

/-- A node that is there in the end looks as it did when nodes had been repeated. -/
theorem outline_of_repeated {first last : Node} (hfirst : first ∈ repeated.nodes)
    (hlast : last ∈ prepared.nodes) (hid : last.id = first.id) : last.outline = first.outline := by
  have hw : repeated.WellFormed := (orderly_of_split hbuild hsplit).wellFormed
  obtain ⟨origin, horigin, houtline, -⟩ := exists_origin hexpand hfinalize hw.below hconfigure hlast
    (hid ▸ List.mem_map_of_mem hfirst)
  obtain rfl := List.inj_on_of_nodup_map hw.nodup horigin hfirst
    ((id_of_outline houtline).symm.trans hid)
  exact houtline

/-- If one of the nodes of a job is there in the end, so are the others. -/
theorem exists_last_of_job {first other last : Node} (hfirst : first ∈ repeated.nodes)
    (ho : other ∈ repeated.nodes) (hspec : first.spec = other.spec) (hlast : last ∈ prepared.nodes)
    (hid : last.id = first.id) : ∃ target ∈ prepared.nodes, target.outline = other.outline := by
  have hfilled : filled.Mirrored :=
    (inStep_spread (bind_eq_ok.mpr ⟨u, repeated, hsplit, hconfigure⟩) (mirrored_build hbuild)).1
  obtain ⟨old, -, -, -, hplain⟩ := exists_repeated hbuild hsplit hconfigure hexpand hfinalize hlast
    (hid ▸ List.mem_map_of_mem hfirst)
  have hlook := outline_of_repeated hbuild hsplit hconfigure hexpand hfinalize hfirst hlast hid
  have hsame : last.spec = first.spec := spec_of_outline hlook
  obtain ⟨middle, hmiddle, hspared⟩ := exists_of_mem_left (spares_configure hconfigure) ho
  obtain ⟨target, ht, htarget, -⟩ := exists_last hexpand hfinalize hfilled.ids hmiddle fun hon => by
    rw [spec_of_outline hspared.outline, ← hspec, ← hsame]
    exact hplain hon
  exact ⟨target, ht, htarget.trans hspared.outline⟩

end Ending

section Prepared

variable {options : CompileOptions} {pipeline : Pipeline} {built repeated prepared : Graph} {u w : Unit}
  (hbuild : build pipeline = .ok built) (hsplit : split built = .ok u repeated)
  (hprepare : prepare options built = .ok w prepared)

include hbuild hsplit hprepare

/-- **Values are carried along.** A parameter by which a repetition asks for a value of the one before
is handed that value last, if there was one when the job was repeated. And it ends up with what the
value comes to, provided that what the parameter has by then gives way, that the value reads nothing
of other nodes that becomes another one, and that no references are left in it. -/
theorem carried_along {previous current : Node} (hp : previous ∈ repeated.nodes)
    (hc : current ∈ repeated.nodes) {place : Nat} {parameter : Parameter} {property : String}
    (hasks : current.Asks previous place parameter property)
    (hlone : current.spec.parameters.filter (·.name == parameter.name) = [parameter])
    (hfile : parameter.isFile = false) (hgiven : (previous.configured? property).isSome) :
    (∃ value g, repeated.LastTurn current.id parameter.name
      (carryEdge previous.id current.id property parameter.name value) g) ∧
    ∀ edge g, repeated.LastTurn current.id parameter.name edge g →
      (∀ now ∈ g.nodes, now.id = current.id → Merge.GivesWay property
        [previous.name, previous.spec.id] (now.configured? parameter.name)) →
      (∀ leaf, prepared.scope.forest.leaf? previous.name property = some leaf →
        prepared.scope.forest.Reads (fun id => prepared.scope.forest.Near previous.name id ∨
          g.scope.forest.raw? id = prepared.scope.forest.raw? id) leaf) →
      ∀ value, prepared.outcome? previous.id property = some value →
        value.references = [] → prepared.outcome? current.id parameter.name = some value := by
  obtain ⟨earlier, carried, hfed⟩ := fed_of_repetitions hbuild hsplit hp hc hasks hlone hgiven
  obtain ⟨other, filled, expanded, hother, hconfigure, hexpanded, hfinalize⟩ := prepare_eq_ok hprepare
  obtain ⟨-, rfl⟩ := EStateM.Result.ok.inj (hsplit.symm.trans hother)
  obtain ⟨hlast, hsettled, -⟩ := settled_of_prepare hbuild hprepare
  have hw : repeated.WellFormed := (orderly_of_split hbuild hsplit).wellFormed
  have hm : repeated.Mirrored := (inStep_split hsplit (mirrored_build hbuild)).1
  obtain ⟨g₀, hturn₀⟩ := exists_lastTurn hw hm hconfigure hfed
  refine ⟨⟨carried, g₀, hturn₀⟩, fun edge g hturn hway hreads value houtcome hplain => ?_⟩
  obtain ⟨rfl, rfl⟩ := hturn.unique hturn₀
  obtain ⟨source, hs, hid, leaf, hleaf, -⟩ := remembers_of_outcome? hsettled houtcome
  have hspec : previous.spec = current.spec := by
    obtain ⟨-, -, -, hjobs⟩ := build_spec hbuild
    have hspecs := (orderly_of_split hbuild hsplit).specs
    exact List.inj_on_of_nodup_map hjobs (hspecs previous hp) (hspecs current hc) hasks.job
  obtain ⟨target, ht, htarget⟩ :=
    exists_last_of_job hbuild hsplit hconfigure hexpanded hfinalize hp hc hspec hs hid
  have hlook := outline_of_repeated hbuild hsplit hconfigure hexpanded hfinalize hp hs hid
  have hname : source.name = previous.name := name_of_outline hlook
  have hsame : source.spec = previous.spec := spec_of_outline hlook
  have htargetId : target.id = current.id := id_of_outline htarget
  have htakes : ∀ p ∈ target.parameter? parameter.name, p.isFile = false := fun p hp => by
    rw [Node.parameter?, spec_of_outline htarget,
      Job.parameter?_of_lone hlone] at hp
    exact Option.some.inj hp ▸ hfile
  -- All has arrived at the repetition before, so what is near it does not change any more.
  rw [← htargetId] at hturn hway ⊢
  obtain ⟨done, spot, waiting, -, -, -, -, hdone, hrest, -, -, -, -, harrived⟩ :=
    hturn.moment hw hm hconfigure
  have hstands := (hreads leaf (hname ▸ hleaf)).mono
    (Q := fun id => g.scope.forest.raw? id = prepared.scope.forest.raw? id) fun id hthis hvalued =>
      hthis.elim (fun hnear => (standing_of_near hm hp harrived hnear).raw?_eq hbuild hsplit hdone
        hrest hexpanded hfinalize hvalued) fun hsame => hsame
  have hkind : (carryEdge previous.id target.id property parameter.name carried).kind =
      .data ⟨.oneToOne, property, parameter.name, carried, none⟩ := rfl
  obtain ⟨found, hfound, hhanded⟩ := hturn.hands_on hbuild hsplit hconfigure hexpanded hfinalize hkind
    rfl hs hid ht htakes hlast hsettled hleaf hstands fun now hnow hthis => by
      rw [hname, hsame]
      exact (hway now hnow hthis).yields
  obtain rfl := Option.some.inj (hfound.symm.trans (hid ▸ houtcome))
  rw [Merge.pick_of_whole rfl] at hhanded
  exact outcome_of_no_references hlast hsettled ht hhanded hplain

end Prepared

/-- Each row of a scarf is knitted onto the one below. -/
def knitting : Pipeline where
  jobs := [
    { id := "row"
      parameters := [
        { name := "stitch", expandMode := .serial },
        { name := "edge", isOutput := true },
        { name := "below", expandValue? := some "$\x7bedge\x7d" }]
      configuration := .ofList [("stitch", .list [.str "plain", .str "purl"]),
        ("edge", .str "$\x7bcolour\x7d $\x7byarn\x7d"), ("colour", .str "red")] }]
  configuration := .ofList [("yarn", .str "wool")]

set_option synthInstance.maxSize 2000 in
theorem rows_hold_on : ∃ built repeated prepared, build knitting = .ok built ∧
    split built = .ok () repeated ∧ prepare {} built = .ok () prepared ∧
    ∃ previous ∈ repeated.nodes, ∃ current ∈ repeated.nodes, ∃ parameter,
      current.Asks previous 0 parameter "edge" ∧ parameter.name = "below" ∧
      prepared.outcome? previous.id "edge" = some (.str "red wool") ∧
      prepared.outcome? current.id parameter.name = some (.str "red wool") := by
  obtain ⟨built, repeated, prepared, hbuild, hsplit, hprepare, previous, hp, current, hc, edge, -,
      parameter, -, hname, hasks, hlone, hfile, hgiven, hcalled, happlied, hedge, hinto, happlies, hbare,
      houtcome, hleaf, htext, hcolour, hred, hyarn, hwool, hfirst, hsecond⟩ :=
    exists_prepared {} knitting (fun _ repeated prepared => ∃ previous ∈ repeated.nodes,
      ∃ current ∈ repeated.nodes, ∃ edge ∈ repeated.edges, ∃ parameter ∈ current.spec.parameters,
        parameter.name = "below" ∧ current.Asks previous 0 parameter "edge" ∧
        current.spec.parameters.filter (·.name == parameter.name) = [parameter] ∧
        parameter.isFile = false ∧ (previous.configured? "edge").isSome ∧ previous.name = "row_seq_0" ∧
        repeated.topologicalOrder.toOption.map repeated.applicationOrder = some [0, 1] ∧
        repeated.edges[1]? = some edge ∧ edge.into current.id parameter.name = true ∧
        (outcome (applyEdge 0 repeated)).isOk = true ∧
        (∀ now ∈ (left (applyEdge 0 repeated)).nodes, now.id = current.id →
          now.configured? parameter.name = none) ∧
        prepared.outcome? previous.id "edge" = some (.str "red wool") ∧
        prepared.scope.forest.leaf? "row_seq_0" "edge" = some 8 ∧
        prepared.scope.forest.raw? 8 = some (.str "$\x7bcolour\x7d $\x7byarn\x7d") ∧
        prepared.scope.forest.leaf? "row_seq_0" "colour" = some 7 ∧
        prepared.scope.forest.raw? 7 = some (.str "red") ∧
        prepared.scope.forest.place? none "yarn" = some 1 ∧
        prepared.scope.forest.raw? 1 = some (.str "wool") ∧
        prepared.scope.forest.lookup? ((prepared.scope.forest.parent? 8).getD 8) ["colour"] =
          some (7, 1) ∧
        prepared.scope.forest.lookup? ((prepared.scope.forest.parent? 8).getD 8) ["yarn"] =
          some (1, 1)) (by decide +kernel)
  obtain ⟨order, horder, hturns⟩ : ∃ order, repeated.topologicalOrder = .ok order ∧
      repeated.applicationOrder order = [0] ++ 1 :: [] := by
    cases horder : repeated.topologicalOrder with
    | error e => simp [horder, Except.toOption] at happlied
    | ok order => exact ⟨order, rfl, by simpa [horder, Except.toOption] using happlied⟩
  obtain ⟨g, hg⟩ : ∃ g, applyEdge 0 repeated = .ok () g := by
    cases hstep : applyEdge 0 repeated with
    | ok u g => exact ⟨g, rfl⟩
    | error e g =>
      rw [hstep] at happlies
      cases happlies
  have hlast : repeated.LastTurn current.id parameter.name edge g :=
    ⟨order, [0], 1, [], horder, hturns, hedge, ⟨edge, hedge, Edge.into_iff.mp hinto⟩, by simp,
      bind_eq_ok.mpr ⟨(), g, hg, rfl⟩⟩
  refine ⟨built, repeated, prepared, hbuild, hsplit, hprepare, previous, hp, current, hc, parameter,
    hasks, hname, houtcome, (carried_along hbuild hsplit hprepare hp hc hasks hlone hfile hgiven).2 edge
      g hlast (fun now hnow hid text htaken => ?_) (fun leaf hat => ?_) _ houtcome (by decide +kernel)⟩
  · -- Nothing was there before.
    rw [hg] at hbare
    rw [hbare now hnow hid] at htaken
    cases htaken
  · -- An edge is made of a colour of its own and of yarn for all.
    rw [hcalled] at hat ⊢
    obtain rfl := Option.some.inj (hat.symm.trans hleaf)
    have hrefs : (Value.str "$\x7bcolour\x7d $\x7byarn\x7d").references = [["colour"], ["yarn"]] := by
      decide +kernel
    have hown : prepared.scope.forest.Near "row_seq_0" 8 := ⟨"edge", .inr hleaf⟩
    refine .intro (.inl hown) htext (fun path hpath => ?_) fun path hpath other consumed hother => ?_
    · rw [hrefs, List.mem_pair] at hpath
      rcases hpath with rfl | rfl
      · exact Option.isSome_of_eq_some hfirst
      · exact Option.isSome_of_eq_some hsecond
    · rw [hrefs, List.mem_pair] at hpath
      rcases hpath with rfl | rfl
      · obtain ⟨rfl, -⟩ := Prod.mk.inj (Option.some.inj (hfirst.symm.trans hother))
        exact .of_plain (.inl ⟨"colour", .inr hcolour⟩) hred (by decide +kernel)
      · obtain ⟨rfl, -⟩ := Prod.mk.inj (Option.some.inj (hsecond.symm.trans hother))
        exact .of_plain (.inl ⟨"yarn", .inl hyarn⟩) hwool (by decide +kernel)

/-- What a runner has taken is found out only when batons are handed on. -/
def relay : Pipeline where
  jobs := [
    { id := "lap"
      parameters := [
        { name := "runner", expandMode := .serial },
        { name := "baton", isOutput := true },
        { name := "taken", expandValue? := some "baton" },
        { name := "shown", expandValue? := some "taken" }]
      configuration := .ofList
        [("runner", .list [.str "ann", .str "ben", .str "cleo"]), ("baton", .str "stick")] }]

/-- A text says where the lid of the box below comes in. -/
def stacking : Pipeline where
  jobs := [
    { id := "box"
      parameters := [
        { name := "size", expandMode := .serial },
        { name := "lid", isOutput := true },
        { name := "floor", expandValue? := some "lid" }]
      configuration := .ofList [("size", .list [.str "large", .str "small"]), ("lid", .str "oak"),
        ("floor", .str "on $\x7bbox.lid\x7d")] }]

/-- The page that each chapter leads to is found only after all have been read. -/
def leafing : Pipeline where
  jobs := [
    { id := "read"
      parameters := [
        { name := "chapter", expandMode := .serial },
        { name := "entry", isOutput := true },
        { name := "seen", expandValue? := some "entry" }]
      configuration := .ofList
        [("chapter", .list [.str "one", .str "two"]), ("entry", .str "$\x7bcard.page\x7d")] },
    { id := "scan"
      parameters := [{ name := "sheet", isOutput := true }]
      configuration := .ofList [("sheet", .str "tea"), ("working_dir", .str "/book")] },
    { id := "card"
      after := ["read"]
      parameters := [{ name := "page", isFile := true }]
      configuration := .ofList [("page", .str "$\x7bscan.sheet\x7d")] }]

/-- What is told says what else to look into. -/
def whispering : Pipeline where
  jobs := [
    { id := "tell"
      parameters := [
        { name := "ear", expandMode := .serial },
        { name := "said", isOutput := true },
        { name := "heard", expandValue? := some "said" }]
      configuration := .ofList
        [("ear", .list [.str "left", .str "right"]), ("said", .str "$\x7bsign\x7d$\x7bname\x7d")] }]
  configuration := .ofList [("sign", .str "$"), ("name", .str "\x7bleaf\x7d"), ("leaf", .str "green")]

/-- Two things are to be taken with the same hand. -/
def juggling : Pipeline where
  jobs := [
    { id := "throw"
      parameters := [
        { name := "height", expandMode := .serial },
        { name := "ball" },
        { name := "club" },
        { name := "caught", expandValue? := some "ball" },
        { name := "caught", expandValue? := some "club" }]
      configuration := .ofList [("height", .list [.str "low", .str "high"]), ("ball", .str "red"),
        ("club", .str "white")] }]

/-- A parameter of a job asks for the value of another one of it, and the repetition behind this place
ends up with the one, whereas the other comes to this. -/
def TakesUp (repeated prepared : Graph) (place : Nat) (key property : String) (answer? : Option Value)
    (value : Value) : Prop :=
  ∃ previous ∈ repeated.nodes, ∃ current ∈ repeated.nodes, ∃ parameter ∈ current.spec.parameters,
    current.Asks previous place parameter property ∧ parameter.name = key ∧
    parameter.isList = false ∧ parameter.isFile = false ∧ (current.parameter? property).isSome ∧
    prepared.outcome? current.id key = answer? ∧ prepared.outcome? previous.id property = some value

instance (repeated prepared : Graph) (place : Nat) (key property : String) (answer? : Option Value)
    (value : Value) : Decidable (repeated.TakesUp prepared place key property answer? value) :=
  inferInstanceAs (Decidable (∃ previous ∈ repeated.nodes, _))

/-- What there was not yet is not carried along, and what is may be put into a text, may become another
one where it comes from, or may say more where it comes to. And the last that is asked for is taken. -/
theorem carried_values_differ :
    (∃ built repeated prepared, build relay = .ok built ∧ split built = .ok () repeated ∧
      prepare {} built = .ok () prepared ∧
      repeated.TakesUp prepared 1 "shown" "taken" none (.str "stick")) ∧
    (∃ built repeated prepared, build stacking = .ok built ∧ split built = .ok () repeated ∧
      prepare {} built = .ok () prepared ∧
      repeated.TakesUp prepared 0 "floor" "lid" (some (.str "on oak")) (.str "oak")) ∧
    (∃ built repeated prepared, build leafing = .ok built ∧ split built = .ok () repeated ∧
      prepare {} built = .ok () prepared ∧
      repeated.TakesUp prepared 0 "seen" "entry" (some (.str "tea")) (.str "/book/tea")) ∧
    (∃ built repeated prepared, build whispering = .ok built ∧ split built = .ok () repeated ∧
      prepare {} built = .ok () prepared ∧
      repeated.TakesUp prepared 0 "heard" "said" (some (.str "green")) (.str "$\x7bleaf\x7d")) ∧
    ∃ built repeated prepared, build juggling = .ok built ∧ split built = .ok () repeated ∧
      prepare {} built = .ok () prepared ∧
      repeated.TakesUp prepared 0 "caught" "ball" (some (.str "white")) (.str "red") :=
  ⟨exists_prepared {} relay _ (by decide +kernel), exists_prepared {} stacking _ (by decide +kernel),
    exists_prepared {} leafing _ (by decide +kernel),
    exists_prepared {} whispering _ (by decide +kernel),
    exists_prepared {} juggling _ (by decide +kernel)⟩

end Graph

end Pipework
