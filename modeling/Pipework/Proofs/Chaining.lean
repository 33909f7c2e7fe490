import Pipework.Proofs.Alignment
import Pipework.Proofs.KeptShares

/-!
# Edges along chains of repetitions

Repetitions that wait for each other may take over values. What there is to take over is found out when
the job is repeated: if the repetition before has a value by then, an edge is made that hands it on, and
it stands behind all others to its parameter. It stays there while other nodes are repeated, as those
that feed the repetitions have had their turns.
-/

namespace Pipework

open Step

/-- A node is the repetition behind another one, for which it waits, and takes over a value of that. -/
structure Node.Asks (current previous : Node) (place : Nat) (parameter : Parameter)
    (property : String) : Prop where
  /-- Both have the same job. -/
  job : previous.spec.id = current.spec.id
  /-- Repetitions of it wait for each other. -/
  serial : Graph.isSerial current = .ok true
  /-- The other one is at this place. -/
  before : previous.IsRepetition place
  /-- The node is at the next. -/
  behind : current.IsRepetition (place + 1)
  /-- Its parameter names the value. -/
  asked : parameter.expandValue?.map Graph.carriedProperty = some property

theorem Node.asks_iff {current previous : Node} {place : Nat} {parameter : Parameter}
    {property : String} : current.Asks previous place parameter property ↔
      previous.spec.id = current.spec.id ∧ (Graph.isSerial current).toOption = some true ∧
      previous.IsRepetition place ∧ current.IsRepetition (place + 1) ∧
      parameter.expandValue?.map Graph.carriedProperty = some property := by
  constructor
  · rintro ⟨hjob, hserial, hbefore, hbehind, hasked⟩
    exact ⟨hjob, by rw [hserial]; rfl, hbefore, hbehind, hasked⟩
  · rintro ⟨hjob, hserial, hbefore, hbehind, hasked⟩
    refine ⟨hjob, ?_, hbefore, hbehind, hasked⟩
    cases hat : Graph.isSerial current with
    | error e =>
      rw [hat] at hserial
      cases hserial
    | ok serial =>
      rw [hat] at hserial
      rw [Option.some.inj hserial]

instance (current previous : Node) (place : Nat) (parameter : Parameter) (property : String) :
    Decidable (current.Asks previous place parameter property) :=
  decidable_of_iff _ Node.asks_iff.symm

namespace Graph

theorem into_carryEdge (previous current : NodeId) (property key : String) (value : Value) :
    (carryEdge previous current property key value).into current key :=
  Edge.into_iff.mpr ⟨rfl, _, rfl, rfl⟩

section Carrying

variable {parameter : Parameter} {text : String} {previous : Node} {raw : Value} {current : NodeId}
  {t t' : Graph} {edges : List Edge} (hexpand : parameter.expandValue? = some text)
  (hnode : t.node? previous.id = some previous)
  (hheld : t.scope.forest.held? previous.name (carriedProperty text) = some (some raw))

include hexpand hnode hheld

/-- If the repetition before has a value that a parameter asks for, one edge is made that carries it. -/
theorem filter_carryEdges {parameters : List Parameter}
    (hlone : parameters.filter (·.name == parameter.name) = [parameter])
    (h : carryEdges previous.id current parameters t = .ok edges t') :
    ∃ value, edges.filter (Edge.into current parameter.name) =
      [carryEdge previous.id current (carriedProperty text) parameter.name value] := by
  induction parameters generalizing t t' edges with
  | nil => cases hlone
  | cons first parameters ih =>
    obtain ⟨own, others, u, rfl, hu, hothers, hown⟩ := carryEdges_cons_eq_ok h
    rw [List.filter_append]
    by_cases hname : first.name == parameter.name
    · rw [List.filter_cons, if_pos hname] at hlone
      obtain ⟨rfl, hlone⟩ := List.cons.inj hlone
      obtain ⟨hnone, -⟩ | ⟨text', value?, hexpand', hread, rfl⟩ := hown
      · rw [hexpand] at hnone
        cases hnone
      · obtain rfl := Option.some.inj (hexpand.symm.trans hexpand')
        obtain ⟨value, rfl, -⟩ := (propertyValue_eq_ok hnode hread).resolve_left fun hnone =>
          hnone.2 raw hheld
        -- No other parameter has the name.
        have hnone : others.filter (Edge.into current first.name) = [] := by
          refine List.filter_eq_nil_iff.mpr fun edge he hinto => ?_
          obtain ⟨p, hp, hsame, -⟩ := fills_of_carryEdges hothers edge he (Edge.into_iff.mp hinto).2
          have hmem : p ∈ parameters.filter (·.name == first.name) :=
            List.mem_filter.mpr ⟨hp, by simpa using hsame⟩
          rw [hlone] at hmem
          cases hmem
        refine ⟨value, ?_⟩
        rw [hnone, List.append_nil]
        exact List.filter_cons_of_pos (into_carryEdge ..)
    · rw [List.filter_cons, if_neg hname] at hlone
      obtain ⟨value, hfilter⟩ := ih ((hu.node?_eq _).trans hnode) (hu.forest ▸ hheld) hlone hothers
      refine ⟨value, ?_⟩
      rw [hfilter, List.filter_eq_nil_iff.mpr, List.nil_append]
      intro edge he hinto
      obtain ⟨-, rfl⟩ | ⟨text', value?, -, -, rfl⟩ := hown
      · cases he
      · obtain ⟨value', -, rfl⟩ := Option.map_eq_some_iff.mp (Option.mem_toList.mp he)
        have hsame := Edge.Fills.unique ⟨_, rfl, rfl⟩ (Edge.into_iff.mp hinto).2
        exact hname (by simpa using hsame)

/-- It stands behind all others that lead to the parameter. -/
theorem filter_ownEdges_of_serial {node : Node} {plan : Drivers} {incoming outgoing : List Nat}
    {place : Nat} (hlone : node.spec.parameters.filter (·.name == parameter.name) = [parameter])
    (h : ownEdges node plan true incoming outgoing place (some previous.id) current t = .ok edges t') :
    ∃ earlier value, edges.filter (Edge.into current parameter.name) =
      earlier ++ [carryEdge previous.id current (carriedProperty text) parameter.name value] := by
  obtain ⟨shares, strands, kept, outward, chain, t₁, t₂, t₃, t₄, rfl, -, -, -, -, hchain, -, -, -,
    hread⟩ := ownEdges_eq_ok h
  obtain ⟨carried, _, hcarried, hpure⟩ := bind_eq_ok.mp hchain
  obtain ⟨rfl, -⟩ := pure_eq_ok.mp hpure
  obtain ⟨value, hfilter⟩ := filter_carryEdges hexpand ((hread.node?_eq _).trans hnode)
    (hread.forest ▸ hheld) hlone hcarried
  refine ⟨(shares ++ strands ++ kept ++ outward).filter (Edge.into current parameter.name), value, ?_⟩
  rw [List.filter_append, List.filter_cons_of_neg, hfilter]
  exact fun hinto => Edge.not_fills_of_after rfl _ (Edge.into_iff.mp hinto).2

end Carrying

/-- A repetition that is there after the turn of its job is fed last by the one before. -/
theorem fed_of_chain {g t g' : Graph} {job : Node} {plan : Drivers} {count place : Nat} {u : Unit}
    (hw : g.WellFormed) (hf : Traced g.edges job.id plan) (hr : Retains g t)
    (h : replicate job plan count t = .ok u g') (hm : g'.Mirrored) (hserial : isSerial job = .ok true)
    {previous : Node} (hp : previous ∈ g'.nodes) (hprevious : previous.id = t.nextId + place)
    (hplace : place + 1 < count) {parameter : Parameter}
    (hlone : job.spec.parameters.filter (·.name == parameter.name) = [parameter]) {text : String}
    (hexpand : parameter.expandValue? = some text)
    (hgiven : (previous.configured? (carriedProperty text)).isSome) : ∃ earlier value,
      g'.fed (t.nextId + (place + 1)) parameter.name = earlier ++
        [carryEdge previous.id (t.nextId + (place + 1)) (carriedProperty text) parameter.name
          value] := by
  obtain ⟨serial, t₂, v, v', own, hserial', -, hnodes, hforest, hread, hrun, hfed⟩ :=
    exists_own_of_replicate hw hf hr h hplace
  obtain rfl := Except.ok.inj (hserial'.symm.trans hserial)
  have hbefore : previousOf none (List.range' t.nextId count) (place + 1) = some previous.id := by
    rw [previousOf, List.getElem?_eq_getElem (by simp; omega), List.getElem_range', hprevious,
      Nat.one_mul]
  rw [hbefore] at hrun
  -- When the edges are made it has what it has in the end.
  have hnode : t₂.node? previous.id = some previous := by
    have hat := hm.node?_eq_some hp
    rw [node?, hnodes, List.find?_filter] at hat
    rw [node?, ← hat]
    congr 1
    funext other
    have hne : previous.id ≠ job.id := by
      rw [hnodes] at hp
      exact of_decide_eq_true (List.mem_filter.mp hp).2
    by_cases heq : other.id = previous.id
    · simp [heq, hne]
    · simp [heq]
  obtain ⟨raw, hraw⟩ := Option.isSome_iff_exists.mp hgiven
  have hheld : t₂.scope.forest.held? previous.name (carriedProperty text) = some (some raw) := by
    rw [← hforest, hm.held previous hp, hraw, Option.map_some]
  obtain ⟨earlier, value, hfilter⟩ := filter_ownEdges_of_serial hexpand
    ((hread.node?_eq _).trans hnode) (hread.forest ▸ hheld) hlone hrun
  exact ⟨earlier, value, (hfed parameter.name).trans hfilter⟩

namespace Cut

variable {jobs : List Job} {built g g' repeated : Graph} {before behind : List Node} {job : Node}
  (h : Cut jobs built before g job g' behind repeated)

include h

/-- The nodes of the job are those that it has after its turn. -/
theorem nodesOf_eq : repeated.nodesOf job.spec.id = g'.nodesOf job.spec.id :=
  nodesOf_of_turns h.orderly' h.later (fun _ ho => h.below' ho) fun _ ho => h.apart' ho

/-- Those behind a job are still to come when it had its turn. -/
theorem queued : Queued (behind.map (·.id)) g' := by
  have hw := h.first.wellFormed
  obtain ⟨hordered, hids, -⟩ := ordered_of_topologicalOrder hw.closed h.order
  rw [List.map_append, List.map_cons] at hordered hids
  exact (Queued.of_turns ⟨hordered, fun id hid => hw.below id ((hids id).mp hid)⟩ h.earlier).splitNode
    h.turn

/-- Edges to its nodes stay as they are then, since those that feed them had their turns. -/
theorem fed_eq {node : Node} (hn : node ∈ g'.nodesOf job.spec.id) (key : String) :
    repeated.fed node.id key = g'.fed node.id key := by
  obtain ⟨hnode, hjob⟩ := List.mem_filter.mp hn
  have hnew : node.id ∉ behind.map (·.id) := fun hmem => by
    obtain ⟨other, ho, hsame⟩ := List.mem_map.mp hmem
    exact h.apart' ho node hnode hsame.symm (by simpa using hjob)
  have hw := h.orderly'.wellFormed
  refine fed_of_turns h.orderly' h.later (fun other ho hsame => ?_)
    (hw.below _ (List.mem_map_of_mem hnode)) fun edge he => ?_
  · exact hnew (hsame ▸ List.mem_map_of_mem ho)
  · obtain ⟨he, hinto⟩ := List.mem_filter.mp he
    refine stays_of_turns h.orderly' h.later (hw.closed edge he).1 fun other ho hsame => hnew ?_
    exact (h.queued.ordered.idxOf_lt (hsame ▸ List.mem_map_of_mem ho)
      ⟨edge, he, rfl, (Edge.into_iff.mp hinto).1⟩).1

/-- If the job has more than one node then, it was replaced by repetitions, which are numbered. -/
theorem exists_replicated {place : Nat} {second : Node}
    (hsecond : (g'.nodesOf job.spec.id)[place + 1]? = some second) :
    ∃ plan t count u, Traced g.edges job.id plan ∧ Retains g t ∧
      replicate job plan count t = .ok u g' ∧ ∀ spot node,
        (g'.nodesOf job.spec.id)[spot]? = some node → spot < count ∧ node.id = t.nextId + spot := by
  have hids : ∀ {spot : Nat} {node : Node}, (g'.nodesOf job.spec.id)[spot]? = some node →
      (g'.idsOf job.spec.id)[spot]? = some node.id := fun hspot => by
    rw [idsOf, List.getElem?_map, hspot, Option.map_some]
  have hsole : g.idsOf job.spec.id = [job.id] := by rw [idsOf, h.sole, List.map_singleton]
  have hretained : ¬ Retains g g' := fun hr => by
    have hspot := hids hsecond
    rw [hr.idsOf, hsole] at hspot
    cases hspot
  cases turned_of_splitNode h.turn with
  | absent hn => exact absurd (refl_of Retains g) hretained
  | idle _ hf _ => exact absurd ((moves_drivers _).of_ok hf).retains hretained
  | collapsed _ hf _ hc =>
    exact absurd (trans_of Retains ((moves_drivers _).of_ok hf).retains
      ((moves_collapse _ _).of_ok hc)) hretained
  | @replaced node plan t _ count hn hf _ _ hr =>
    obtain ⟨hnode, hid⟩ := id_of_node? hn
    obtain rfl : job = node :=
      List.inj_on_of_nodup_map h.orderly.wellFormed.nodup h.mem hnode hid.symm
    have hretains := ((moves_drivers _).of_ok hf).retains
    obtain ⟨serial, added, parts, -, hadded, hreplicated⟩ := replicated_of_replicate
      (h.orderly.wellFormed.below _ (List.mem_map_of_mem hnode)) (traced_of_drivers hf) hretains hr
    obtain rfl : count = added.length := by simpa using hadded.length_eq
    refine ⟨plan, t, added.length, _, traced_of_drivers hf, hretains, hr, fun spot node hspot => ?_⟩
    have hrange := hids hspot
    rw [hreplicated.idsOf_self hsole, hreplicated.ids, ← hretains.nextId] at hrange
    obtain ⟨hbound, hrange⟩ := List.getElem?_eq_some_iff.mp hrange
    rw [List.getElem_range', Nat.one_mul] at hrange
    exact ⟨by simpa using hbound, hrange.symm⟩

end Cut

section Split

variable {pipeline : Pipeline} {built repeated : Graph} {u : Unit}
  (hbuild : build pipeline = .ok built) (hsplit : split built = .ok u repeated)

include hbuild hsplit

/-- A repetition stands among the nodes of its job at its place. -/
theorem getElem?_of_isRepetition {node : Node} (hn : node ∈ repeated.nodes) {place : Nat}
    (h : node.IsRepetition place) : (repeated.nodesOf node.spec.id)[place]? = some node := by
  obtain ⟨-, hplaces⟩ := (single_or_repetitions hbuild hsplit hn).resolve_left fun hone => hone.2 h.1
  obtain ⟨spot, hspot⟩ := List.mem_iff_getElem?.mp
    (List.mem_filter.mpr ⟨hn, beq_self_eq_true _⟩ : node ∈ repeated.nodesOf node.spec.id)
  rwa [← place_of_isRepetition (hplaces spot node hspot) h]

/-- A parameter by which a repetition asks for a value of the one before is fed last by that, if there
is a value. -/
theorem fed_of_repetitions {previous current : Node} (hp : previous ∈ repeated.nodes)
    (hc : current ∈ repeated.nodes) {place : Nat} {parameter : Parameter} {property : String}
    (hasks : current.Asks previous place parameter property)
    (hlone : current.spec.parameters.filter (·.name == parameter.name) = [parameter])
    (hgiven : (previous.configured? property).isSome) : ∃ earlier value,
      repeated.fed current.id parameter.name = earlier ++
        [carryEdge previous.id current.id property parameter.name value] := by
  obtain ⟨text, hexpand, rfl⟩ := Option.map_eq_some_iff.mp hasks.asked
  obtain ⟨hall, -⟩ := build_spec hbuild
  obtain ⟨job, hin, heq⟩ := exists_of_mem_left hall ((orderly_of_split hbuild hsplit).specs current hc)
  have hspec : job.spec = current.spec := by
    rw [heq]
    rfl
  obtain ⟨before, g, g', behind, hcut⟩ := cut_of_split hbuild hsplit hin
  have hm : g'.Mirrored := (inStep_splitNode hcut.turn (forM_keeps
    (fun _ _ _ _ _ ht hstep => (inStep_splitNode hstep ht).1) (mirrored_build hbuild)
      hcut.earlier)).1
  have hfirst := getElem?_of_isRepetition hbuild hsplit hp hasks.before
  have hsecond := getElem?_of_isRepetition hbuild hsplit hc hasks.behind
  rw [hasks.job, ← hspec, hcut.nodesOf_eq] at hfirst
  rw [← hspec, hcut.nodesOf_eq] at hsecond
  obtain ⟨plan, t, count, v, htraced, hretains, hreplicate, hnumbered⟩ := hcut.exists_replicated hsecond
  obtain ⟨hplace, hid⟩ := hnumbered _ _ hsecond
  rw [hcut.fed_eq (List.mem_of_getElem? hsecond), hid]
  exact fed_of_chain hcut.orderly.wellFormed htraced hretains hreplicate hm
    (isSerial_of_spec hasks.serial hspec) (List.mem_of_mem_filter (List.mem_of_getElem? hfirst))
    (hnumbered _ _ hfirst).2 hplace (hspec ▸ hlone) hexpand hgiven

end Split

end Graph

end Pipework
