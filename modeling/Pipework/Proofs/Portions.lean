import Pipework.Proofs.KeptShares
import Pipework.Proofs.LastingValues

/-!
# The portions that repetitions end up with

A job that is repeated for the elements of a list has in each repetition, when all is prepared, the
element that the list has at its place in the end. Only where the list has become too short for that
by then, the repetition keeps the element that there was when the job was repeated.
-/

namespace Pipework

open Step

namespace Graph

/-- What the value of a key of a node was resolved to. -/
def outcome? (graph : Graph) (id : NodeId) (key : String) : Option Value :=
  (graph.node? id).bind fun node => node.resolved?.bind (·.get? key)

/-- What a settled node has as its outcome is remembered. -/
theorem remembers_of_outcome? {g : Graph} (hsettled : ∀ node ∈ g.nodes, g.Settled node) {id : NodeId}
    {key : String} {v : Value} (h : g.outcome? id key = some v) :
    ∃ node ∈ g.nodes, node.id = id ∧ Remembers g.scope node.name key v := by
  obtain ⟨node, hat, hvalue⟩ := Option.bind_eq_some_iff.mp h
  obtain ⟨own, hown, hkey⟩ := Option.bind_eq_some_iff.mp hvalue
  obtain ⟨hn, hid⟩ := id_of_node? hat
  obtain ⟨resolved, hresolved, hrecorded, -⟩ := hsettled node hn
  obtain rfl := Option.some.inj (hown.symm.trans hresolved)
  exact ⟨node, hn, hid, hrecorded key v hkey⟩

section Settled

variable {g : Graph} (hm : g.Mirrored) (hsettled : ∀ node ∈ g.nodes, g.Settled node) {node : Node}
  (hn : node ∈ g.nodes) {key : String}

include hm hsettled hn

/-- What has a value has an outcome. -/
theorem exists_outcome (hvalue : (node.configured? key).isSome) :
    ∃ v, g.outcome? node.id key = some v ∧ Remembers g.scope node.name key v := by
  obtain ⟨resolved, hresolved, hrecorded, hall⟩ := hsettled node hn
  obtain ⟨v, hv⟩ := Option.isSome_iff_exists.mp (hall key hvalue)
  refine ⟨v, ?_, hrecorded key v hv⟩
  rw [outcome?, hm.node?_eq_some hn, Option.bind_some, hresolved, Option.bind_some, hv]

/-- A value without references is its own outcome. -/
theorem outcome_of_no_references {raw : Value} (hraw : node.configured? key = some raw)
    (hplain : raw.references = []) : g.outcome? node.id key = some raw := by
  obtain ⟨resolved, hresolved, hrecorded, hall⟩ := hsettled node hn
  rw [outcome?, hm.node?_eq_some hn, Option.bind_some, hresolved, Option.bind_some]
  exact own_of_no_references hm hn hrecorded hall hraw hplain

end Settled

/-- A node that was built and is still there when nodes have been repeated is still called the same. -/
theorem exists_of_split {pipeline : Pipeline} {built repeated : Graph} {u : Unit}
    (hbuild : build pipeline = .ok built) (hsplit : split built = .ok u repeated) {node : Node}
    (hn : node ∈ built.nodes) (hstays : node.id ∈ repeated.nodes.map (·.id)) :
    ∃ now ∈ repeated.nodes, now.id = node.id ∧
      ∀ other : Node, other.outline = now.outline → other.name = node.name := by
  obtain ⟨-, hw, hlinked, -⟩ := build_spec hbuild
  obtain ⟨order, horder, hturns⟩ := split_eq_ok hsplit
  have ho := orderly_of_topologicalOrder hw hlinked (fun node hn => (nodes_of_build hbuild node hn).1)
    horder
  obtain ⟨now, hnow, hid⟩ := List.mem_map.mp hstays
  obtain ⟨old, hold, hsame⟩ := (older_of_turns ho hturns).2 now hnow
    (hid ▸ hw.below _ (List.mem_map_of_mem hn))
  obtain rfl := List.inj_on_of_nodup_map hw.nodup hold hn ((id_of_outline hsame).trans hid)
  exact ⟨now, hnow, hid, fun other ho => name_of_outline (ho.trans hsame.symm)⟩

section Prepared

variable {options : CompileOptions} {pipeline : Pipeline} {built repeated prepared : Graph}
  {u w : Unit} (hbuild : build pipeline = .ok built) (hsplit : split built = .ok u repeated)
  (hprepare : prepare options built = .ok w prepared) {job source : Node}
  (hs : source ∈ built.nodes) (hstays : source.id ∈ repeated.nodes.map (·.id)) {key out : String}
  {items finals : List Value} (hfinals : prepared.outcome? source.id out = some (.list finals))
  (hplain : ∀ v ∈ items ++ finals, v.references = [])
  (hlasting : prepared.scope.forest.Lasting (Untouched repeated prepared source.id)
    (some source.name) out)
  (hpipeline : options.expandNested → job.spec.nested? = none)

include hbuild hsplit hprepare hs hstays hfinals hplain hlasting hpipeline

/-- A repetition that was dealt an element ends up with the one at its place in the end, or keeps its
own if there is none. -/
theorem outcome_of_dealt (hd : Dealt job key source.id out items repeated)
    (hfile : ∀ parameter ∈ job.spec.parameter? key, parameter.isFile = false) {place : Nat}
    {replica : Node} (hreplica : (repeated.nodesOf job.spec.id)[place]? = some replica) :
    ∃ item, items[place]? = some item ∧
      prepared.outcome? replica.id key = some (finals[place]?.getD item) := by
  have hw : repeated.WellFormed := (orderly_of_split hbuild hsplit).wellFormed
  have hm : repeated.Mirrored := (inStep_split hsplit (mirrored_build hbuild)).1
  obtain ⟨other, filled, expanded, hother, hconfigure, hexpand, hfinalize⟩ := prepare_eq_ok hprepare
  obtain rfl : other = repeated := by
    rw [hsplit] at hother
    exact (EStateM.Result.ok.inj hother).2.symm
  obtain ⟨hlast, hsettled, -⟩ := settled_of_prepare hbuild hprepare
  obtain ⟨item, g, t, current, before, later, hitem, hmid, hread, hfilled, hinStep, harrived,
    hhanded⟩ := handed_of_dealt hw hm hd hconfigure hfile
      (fun item hitem => hplain item (List.mem_append_left _ hitem)) hreplica
  have hg := hmid.mirrored
  have hnext : filled.nextId = other.nextId := (moves_configure.of_ok hconfigure).nextId
  -- The source when its value is read, and in the end.
  obtain ⟨middle, hmiddle, hid, hname⟩ := exists_of_split hbuild hsplit hs hstays
  obtain ⟨now, hnow, hspared⟩ := exists_of_mem_left hmid.filled hmiddle
  have hnowName := hname now hspared.outline
  have hnowId : now.id = source.id := (id_of_outline hspared.outline).trans hid
  obtain ⟨last, hin, hlastId, hremembers⟩ := remembers_of_outcome? hsettled hfinals
  obtain ⟨origin, horigin, houtline, -⟩ :=
    origin_of_prepare hw.below hsplit hprepare hin (hlastId ▸ hstays)
  obtain rfl := List.inj_on_of_nodup_map hw.nodup horigin hmiddle
    ((id_of_outline houtline).symm.trans (hlastId.trans hid.symm))
  have hcurrent : current = some (.list finals) := by
    refine current_of_lasting hg (fun id hid => hnext ▸ hm.below id hid) hfilled hinStep harrived
      hexpand hfinalize hlast hnow (hnowId ▸ hread) (hnowName ▸ hlasting) ?_
    rwa [hnowName, ← hname last houtline]
  -- What the repetition is handed stays with it.
  obtain ⟨-, -, hspec, -⟩ := hd.share place replica hreplica
  obtain ⟨node, hn, hspared'⟩ := exists_of_mem_left (spares_configure hconfigure)
    (List.mem_of_mem_filter (List.mem_of_getElem? hreplica))
  obtain ⟨houtline, hgiven⟩ := hhanded node hn (id_of_outline hspared'.outline)
  obtain ⟨final, hfinal, hlook, hkept⟩ := exists_last hexpand hfinalize (hinStep hg).1.ids hn
    fun hon => by
      rw [spec_of_outline houtline, hspec]
      exact hpipeline hon
  have hpicked : final.configured? key = some (finals[place]?.getD item) := by
    rw [Node.configured?, hkept, hgiven, hcurrent, Option.some_or]
    rfl
  have hrefs : (finals[place]?.getD item).references = [] := by
    cases hat : finals[place]? with
    | none => exact hplain item (List.mem_append_left _ (List.mem_of_getElem? hitem))
    | some v => exact hplain v (List.mem_append_right _ (List.mem_of_getElem? hat))
  refine ⟨item, hitem, ?_⟩
  rw [← id_of_outline (hlook.trans houtline)]
  exact outcome_of_no_references hlast hsettled hfinal hpicked hrefs

/-- A job that is repeated for a list, which one of its parameters is declared to be an element of,
has in each repetition the element that the list has at its place in the end, or the one that it was
dealt if the list is too short for that by then. So if the list is as long as it was, the repetitions
have its elements in order. -/
theorem portions_of_prepare (hjob : job ∈ built.nodes) (hne : source.id ≠ job.id) {text : String}
    {parameter output : Parameter}
    (hparams : job.spec.parameters.filter (·.name == key) = [parameter])
    (hscalar : parameter.isList = false) (hfile : parameter.isFile = false)
    (hvalue : parameter.expandValue? = none) (hraw : job.configured? key = some (.str text))
    (hsingle : Template.singleReference? text = some [source.name, out])
    (hfree : job.configured? source.name = none) (houtput : source.parameter? out = some output)
    (hout : output.isOutput) (hlist : output.isList) (hgiven : (source.configured? out).isSome)
    {plan : Drivers} {asked : Graph} (hplanned : planned job.id built = .ok plan asked)
    (hitems : asked.resolvedIn? source.name out = some (.list items)) (hmany : 1 < items.length) :
    (repeated.nodesOf job.spec.id).map (fun replica => prepared.outcome? replica.id key) =
        items.zipIdx.map (fun entry => some (finals[entry.2]?.getD entry.1)) ∧
      (finals.length = items.length →
        (repeated.nodesOf job.spec.id).map (fun replica => prepared.outcome? replica.id key) =
          finals.map some) ∧
      ∀ (place : Nat) replica, (repeated.nodesOf job.spec.id)[place]? = some replica →
        ∃ serial, replica.name = job.name ++ "_" ++ replicaSuffix serial place := by
  have hrefs : (Value.str text).references = [[source.name, out]] :=
    Template.references_of_singleReference? hsingle
  have honly : ∀ p ∈ job.spec.parameters, p.name = key → p = parameter := fun p hp hname =>
    List.mem_singleton.mp (hparams ▸ List.mem_filter.mpr ⟨hp, by simpa using hname⟩)
  obtain ⟨v, hfed⟩ := fed_build hparams hraw (by rw [hrefs]; exact List.cons_ne_nil _ _) hne houtput
    hout hgiven hfree (fun path hp => ⟨[], by simpa [hrefs] using hp⟩) hbuild hjob hs
  have hd : Dealt job key source.id out items repeated := by
    refine dealt_of_split hbuild hsplit hjob hs hfed rfl rfl (by rw [hlist, hscalar]; rfl) hstays
      (fun p hp hname => honly p hp hname ▸ hvalue) ?_ hplanned hitems hmany
    rintro ⟨p, hp, hname, -, hpath, -⟩
    rw [honly p hp hname, hfile] at hpath
    cases hpath
  have hat : ∀ (place : Nat) replica, (repeated.nodesOf job.spec.id)[place]? = some replica →
      ∃ item, items[place]? = some item ∧
        prepared.outcome? replica.id key = some (finals[place]?.getD item) := by
    refine fun place replica hreplica => outcome_of_dealt hbuild hsplit hprepare hs hstays hfinals
      hplain hlasting hpipeline hd (fun p hp => ?_) hreplica
    obtain ⟨hname, hin⟩ : p.name = key ∧ p ∈ job.spec.parameters :=
      ⟨by simpa using List.find?_some hp, List.mem_of_find?_eq_some hp⟩
    exact honly p hin hname ▸ hfile
  have hwhole : (repeated.nodesOf job.spec.id).map (fun replica => prepared.outcome? replica.id key) =
      items.zipIdx.map (fun entry => some (finals[entry.2]?.getD entry.1)) := by
    refine List.ext_getElem? fun place => ?_
    rw [List.getElem?_map, List.getElem?_map, List.getElem?_zipIdx]
    cases hreplica : (repeated.nodesOf job.spec.id)[place]? with
    | none =>
      have hnone : items[place]? = none := by
        rw [List.getElem?_eq_none_iff, ← hd.length]
        exact List.getElem?_eq_none_iff.mp hreplica
      simp [hnone]
    | some replica =>
      obtain ⟨item, hitem, houtcome⟩ := hat place replica hreplica
      simp [hitem, houtcome]
  refine ⟨hwhole, fun hlength => ?_, fun place replica hreplica => ?_⟩
  · refine hwhole.trans (List.ext_getElem (by simp [hlength]) fun place hitem hfinal => ?_)
    simp [List.getElem?_eq_getElem (List.length_map (f := some) ▸ hfinal : place < finals.length)]
  · obtain ⟨-, -, -, hname, -⟩ := hd.share place replica hreplica
    exact hname

end Prepared

/-- A pot is poured into two cups of a tray, each of which is drunk. -/
def pouring : Pipeline where
  parameters := [{ name := "tray" }]
  jobs := [
    { id := "pour"
      parameters := [{ name := "out", isOutput := true, isList := true }]
      configuration := .ofList [("out", .list [.str "$\x7btray\x7d/left", .str "$\x7btray\x7d/right"])] },
    { id := "drink"
      parameters := [{ name := "cup" }]
      configuration := .ofList [("cup", .str "$\x7bpour.out\x7d")] }]
  configuration := .ofList [("tray", .str "silver")]

theorem cups_are_drunk_in_order : ∃ built repeated prepared, build pouring = .ok built ∧
    split built = .ok () repeated ∧ prepare {} built = .ok () prepared ∧
    (repeated.nodesOf "drink").map (fun replica => prepared.outcome? replica.id "cup") =
      [some (.str "silver/left"), some (.str "silver/right")] := by
  obtain ⟨built, repeated, prepared, hbuild, hsplit, hprepare, job, hjob, source, hs, hname, hne,
      hfree, hspec, hvalue, hsource, hgiven, hstays, hfinals, hplanned, hout, htray, htouched, hnone⟩ :=
    exists_prepared {} pouring (fun built repeated prepared =>
      ∃ job ∈ built.nodes, ∃ source ∈ built.nodes, source.name = "pour" ∧ source.id ≠ job.id ∧
        job.configured? "pour" = none ∧
        (job.spec.id = "drink" ∧ job.spec.parameters = [{ name := "cup" }] ∧
          job.spec.nested? = none) ∧
        job.configured? "cup" = some (.str "$\x7bpour.out\x7d") ∧
        source.parameter? "out" = some { name := "out", isOutput := true, isList := true } ∧
        (source.configured? "out").isSome ∧ source.id ∈ repeated.nodes.map (·.id) ∧
        prepared.outcome? source.id "out" = some (.list [.str "silver/left", .str "silver/right"]) ∧
        (match planned job.id built with
          | .ok _ asked => decide (asked.resolvedIn? "pour" "out" =
              some (.list [.str "silver/left", .str "silver/right"]))
          | .error _ _ => false) = true ∧
        prepared.scope.forest.entry? (some "pour") "out" =
          some (.list [.str "$\x7btray\x7d/left", .str "$\x7btray\x7d/right"]) ∧
        prepared.scope.forest.entry? none "tray" = some (.str "silver") ∧
        (∃ node ∈ prepared.nodes, node.name = "pour" ∧ node.id ∈ repeated.nodes.map (·.id) ∧
          node.id = source.id) ∧
        prepared.scope.forest.leaf? "pour" "tray" = none) (by decide +kernel)
  obtain ⟨hdrink, hparams, hnested⟩ := hspec
  obtain ⟨plan, asked, hrun, hitems⟩ : ∃ plan asked, planned job.id built = .ok plan asked ∧
      asked.resolvedIn? "pour" "out" =
        some (.list [.str "silver/left", .str "silver/right"]) := by
    split at hplanned
    next plan asked hrun => exact ⟨plan, asked, hrun, of_decide_eq_true hplanned⟩
    next => cases hplanned
  obtain ⟨node, hn, hcalled, hin, hid⟩ := htouched
  -- The list leads to the tray, and that leads nowhere else.
  have hlasting : prepared.scope.forest.Lasting (Untouched repeated prepared source.id)
      (some source.name) "out" := by
    have hrefs : (Value.list [.str "$\x7btray\x7d/left", .str "$\x7btray\x7d/right"]).references =
        [["tray"], ["tray"]] := by decide +kernel
    rw [hname]
    refine .intro ⟨node, hn, hcalled, hin, .inl hid⟩ hout (fun path hp => ?_) fun path hp => ?_
    · obtain rfl : path = ["tray"] := by simpa [hrefs] using hp
      exact ⟨none, "tray", [], .shared hnone (by decide) (by rw [htray]; rfl)⟩
    · obtain rfl : path = ["tray"] := by simpa [hrefs] using hp
      intro other? key fields hpoints
      cases hpoints with
      | own hkey => simp [Forest.entry?_some, hnone] at hkey
      | shared _ _ _ =>
        have hplain : (Value.str "silver").references = [] := by decide +kernel
        refine .intro trivial htray (fun path hp => ?_) fun path hp => ?_
        · simp [hplain] at hp
        · simp [hplain] at hp
  refine ⟨built, repeated, prepared, hbuild, hsplit, hprepare, ?_⟩
  obtain ⟨-, hsame, -⟩ := portions_of_prepare hbuild hsplit hprepare hs hstays hfinals
    (by decide +kernel) hlasting (fun _ => hnested) hjob hne (by rw [hparams]; rfl) rfl rfl rfl hvalue
    (by rw [hname]; decide +kernel) (hname ▸ hfree) hsource rfl rfl hgiven hrun (hname ▸ hitems)
    (by decide)
  exact hdrink ▸ hsame rfl

/-- A pot is filled up by a job before, and one of three cups is poured twice. -/
def spilling : Pipeline where
  jobs := [
    { id := "fill"
      parameters := [{ name := "pot", isOutput := true }]
      configuration := .ofList [("pot", .str "tea")] },
    { id := "pour"
      parameters := [{ name := "out", isOutput := true, isList := true }]
      configuration := .ofList
        [("out", .list [.str "$\x7bfill.pot\x7d", .str "milk", .str "milk"])] },
    { id := "drink"
      parameters := [{ name := "cup" }]
      configuration := .ofList [("cup", .str "$\x7bpour.out\x7d")] }]

theorem milk_is_drunk_twice : ∃ built repeated prepared, build spilling = .ok built ∧
    split built = .ok () repeated ∧ prepare {} built = .ok () prepared ∧
    ∃ job ∈ built.nodes, ∃ source ∈ built.nodes, job.spec.parameters = [{ name := "cup" }] ∧
      job.configured? "cup" = some (.str (formatReference [source.name, "out"])) ∧
      source.parameter? "out" = some { name := "out", isOutput := true, isList := true } ∧
      source.id ∈ repeated.nodes.map (·.id) ∧ 1 < (repeated.nodesOf job.spec.id).length ∧
      prepared.outcome? source.id "out" = some (.list [.str "milk", .str "tea"]) ∧
      (repeated.nodesOf job.spec.id).map (fun replica => prepared.outcome? replica.id "cup") =
        [some (.str "milk"), some (.str "tea"), some (.str "milk")] :=
  exists_prepared {} spilling _ (by decide +kernel)

end Graph

end Pipework
