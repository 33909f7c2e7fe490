import Pipework.Proofs.KeptShares
import Pipework.Proofs.Strands

/-!
# What it takes to repeat a node

When the turn of a node comes, what it is repeated for is found out from the edges to it and from its
own values. A parameter that takes a single value is brought the elements of the lists that come in
for it, in the order of the edges. Without an edge to it, it is brought those of the list that it has.
And several edges from one output of a job bring one value each. A list without elements brings
nothing, and its edge stands for the order only from then on.
-/

namespace Pipework

open Step Resolve

namespace Graph

/-- What the value of a key of a node stands for. -/
def valueOf? (graph : Graph) (id : NodeId) (key : String) : Option Value :=
  (graph.node? id).bind fun node => graph.resolvedIn? node.name key

/-- What was read of the values of a node is still remembered in a later graph. -/
structure Recollects (last : Graph) (id : NodeId) (t : Graph) : Prop where
  /-- The node is there if it was. -/
  node : last.node? id = t.node? id
  /-- The scopes are the same. -/
  forest : last.scope.forest = t.scope.forest
  /-- No value was forgotten. -/
  memo : Recalls t.scope.memo last.scope.memo

/-- What was read before is remembered later. -/
theorem SameButMemo.recollects {t last : Graph} (h : SameButMemo t last) (id : NodeId) :
    Recollects last id t := by
  obtain ⟨memo, hlearns, rfl⟩ := h
  exact ⟨rfl, rfl, hlearns.recalls⟩

/-- Reading more leaves what is remembered of a node. -/
theorem Recollects.of_sameButMemo {last t u : Graph} {id : NodeId} (h : Recollects last id t)
    (hsame : SameButMemo u t) : Recollects last id u := by
  have hu := hsame.recollects id
  exact ⟨h.node.trans hu.node, h.forest.trans hu.forest, hu.memo.trans h.memo⟩

/-- What was read of a value is what it stands for as long as it is remembered. -/
theorem Recollects.valueOf? {last t t' : Graph} {id : NodeId} {key : String}
    {value? : Option Value} (hlast : Recollects last id t')
    (h : propertyValue id key t = .ok value? t') : last.valueOf? id key = value? := by
  have hsame : SameButMemo t t' := (moves_propertyValue id key).of_ok h
  rw [Graph.valueOf?, hlast.node, hsame.node?_eq]
  cases hfound : t.node? id with
  | none =>
    obtain ⟨_, _, hget, h⟩ := bind_eq_ok.mp h
    obtain ⟨rfl, rfl⟩ := get_eq_ok.mp hget
    simp only [hfound] at h
    exact (pure_eq_ok.mp h).1
  | some node =>
    obtain ⟨-, rfl⟩ := id_of_node? hfound
    rcases propertyValue_eq_ok hfound h with ⟨rfl, hno⟩ | ⟨v, rfl, hv⟩
    · refine Option.eq_none_iff_forall_ne_some.mpr fun v hv => ?_
      obtain ⟨raw, hraw⟩ := held_of_resolvedIn? hv
      rw [hlast.forest, hsame.forest] at hraw
      exact hno raw hraw
    · exact (hv.mono hlast.forest hlast.memo).resolvedIn?

/-- What was read of a node is remembered while it is found out what another one is repeated for. -/
theorem Plans.recollects {t last : Graph} (h : Plans t last) (id : NodeId) :
    Recollects last id t := by
  obtain ⟨memo, edges, hlearns, -, rfl⟩ := h
  exact ⟨rfl, rfl, hlearns.recalls⟩

/-- The elements that an edge brings when a list goes out at its source. -/
def offered (asked : Graph) (edge : Edge) (link : DataLink) : List Value :=
  ((asked.valueOf? edge.source link.sourceProperty).getD link.value).toList

/-- The elements that the edge at a place brings to a parameter which takes a single value. -/
def supplied (asked : Graph) (key : String) (entry : Edge × Nat) : List Share :=
  match entry.1.kind with
  | .after => []
  | .data link =>
    if link.cardinality = .manyToOne ∧ link.targetProperty = key then
      sharesAt entry.2 entry.1.source link.sourceProperty (asked.offered entry.1 link)
    else []

/-- An edge that brings a list without elements stands for the order only. -/
def relieved (asked : Graph) (edge : Edge) : Edge :=
  match edge.kind with
  | .after => edge
  | .data link =>
    if link.cardinality = .manyToOne ∧ asked.offered edge link = [] then { edge with kind := .after }
    else edge

/-- The list with elements that a key of a node stands for. -/
def listOf? (asked : Graph) (id : NodeId) (key : String) : Option (List Value) :=
  match asked.valueOf? id key with
  | some (.list (item :: items)) => some (item :: items)
  | _ => none

/-- The edges that end at a node, with their places. -/
def arrivals (graph : Graph) (id : NodeId) : List (Edge × Nat) :=
  graph.edges.zipIdx.filter (·.1.target == id)

/-- The places of the edges to a node are those of its arrivals. -/
theorem incoming_eq (g : Graph) (id : NodeId) : g.incoming id = (g.arrivals id).map (·.2) :=
  placesWhere_eq g (·.target == id)

/-- An edge arrives at a node, with its place, if it stands there and leads to the node. -/
theorem mem_arrivals {g : Graph} {id : NodeId} {edge : Edge} {place : Nat} :
    (edge, place) ∈ g.arrivals id ↔ g.edges[place]? = some edge ∧ edge.target = id := by
  rw [arrivals, List.mem_filter, List.mem_zipIdx_iff_getElem?, beq_iff_eq]

/-! ### Taking account of edges -/

/-- Shares are gathered under their parameters. -/
theorem addShares_eq (property : String) (added : List Share)
    (entries : List (String × List Share)) :
    Drivers.addShares property added entries = gather property added entries := by
  induction entries with
  | nil => rfl
  | cons entry entries ih => rw [Drivers.addShares, gather, ih]

/-- What comes of taking account of edges. -/
structure Accounted (asked : Graph) (entries : List (Edge × Nat)) (found : Drivers) (t : Graph)
    (found' : Drivers) (t' : Graph) : Prop where
  /-- What the edges bring to a parameter stands behind what it was brought before. -/
  shares : ∀ key, gathered key found'.shares =
    gathered key found.shares ++ entries.flatMap (asked.supplied key)
  /-- No parameter is mentioned twice. -/
  nodup : (found.shares.map (·.1)).Nodup → (found'.shares.map (·.1)).Nodup
  /-- Those of the edges that bring lists without elements stand for the order only. -/
  edges : ∀ place : Nat, t'.edges[place]? = t.edges[place]?.map fun edge =>
    if place ∈ entries.map (·.2) then asked.relieved edge else edge

section Accounting

variable {asked t t' : Graph} {found found' : Drivers} {edge : Edge} {place : Nat}

/-- An edge that brings nothing and stays as it is. -/
theorem accounted_of_same (hedge : t.edges[place]? = some edge) (hshares : found'.shares = found.shares)
    (hedges : t'.edges = t.edges) (hsupplied : ∀ key, asked.supplied key (edge, place) = [])
    (hrelieved : asked.relieved edge = edge) :
    Accounted asked [(edge, place)] found t found' t' where
  shares key := by rw [hshares, List.flatMap_singleton, hsupplied, List.append_nil]
  nodup h := by rwa [hshares]
  edges other := by
    rw [hedges]
    by_cases heq : other = place
    · rw [heq, hedge, Option.map_some, hrelieved, ite_self]
    · simp [heq]

/-- Taking account of one edge notes what this edge brings, and makes it what it is to be. -/
theorem accounted_of_addDriver (hedge : t.edges[place]? = some edge)
    (h : addDriver found place t = .ok found' t') (hplans : Plans t' asked) :
    Accounted asked [(edge, place)] found t found' t' := by
  obtain ⟨now, hnow, hnoted⟩ := noted_of_addDriver h
  obtain rfl := Option.some.inj (hedge.symm.trans hnow)
  have hother : ∀ {link : DataLink}, edge.kind = .data link → link.cardinality ≠ .manyToOne →
      (∀ key, asked.supplied key (edge, place) = []) ∧ asked.relieved edge = edge := by
    intro link hk hc
    exact ⟨fun key => by simp [supplied, hk, hc], by simp [relieved, hk, hc]⟩
  cases hnoted with
  | order hk =>
    exact accounted_of_same hedge rfl rfl (fun key => by simp [supplied, hk]) (by simp [relieved, hk])
  | list hk hc =>
    obtain ⟨hsupplied, hrelieved⟩ := hother hk (by rcases hc with hc | hc <;> simp [hc])
    exact accounted_of_same hedge rfl rfl hsupplied hrelieved
  | strand hk hc hn =>
    obtain ⟨hsupplied, hrelieved⟩ := hother hk (by simp [hc])
    exact accounted_of_same hedge rfl rfl hsupplied hrelieved
  | @empty link current u hk hc hv hi =>
    have hempty : ∀ edge : Edge, edge.Keeps { edge with kind := .after } :=
      fun edge => ⟨rfl, rfl, fun key hk => absurd hk (Edge.not_fills_of_after rfl key)⟩
    have hu : Plans u asked := trans_of Plans ((moves_modifyEdge place hempty).of_ok rfl) hplans
    have hoffered : asked.offered edge link = [] := by rw [offered, (hu.recollects _).valueOf? hv, hi]
    refine ⟨fun key => ?_, id, fun other => ?_⟩
    · have hnone : asked.supplied key (edge, place) = [] := by simp [supplied, hk, hoffered, sharesAt]
      rw [List.flatMap_singleton, hnone, List.append_nil]
    · have hrelieved : asked.relieved edge = { edge with kind := .after } := by
        simp [relieved, hk, hc, hoffered]
      rw [modifyEdge, List.getElem?_modify, ((moves_propertyValue _ _).of_ok hv).edges]
      by_cases heq : place = other
      · subst heq
        simp [hedge, hrelieved]
      · simp [heq, Ne.symm heq]
  | @shares link current u hk hc hv hi =>
    have hoffered : asked.offered edge link = (current.getD link.value).toList := by
      rw [offered, (hplans.recollects _).valueOf? hv]
    have hrelieved : asked.relieved edge = edge := by simp [relieved, hk, hoffered, hi]
    refine ⟨fun key => ?_, fun hnodup => ?_, fun other => ?_⟩
    · rw [addShares_eq, gathered_gather, List.flatMap_singleton]
      congr 1
      simp [supplied, hk, hc, hoffered]
    · rw [addShares_eq]
      exact nodup_gather _ _ _ hnodup
    · rw [((moves_propertyValue _ _).of_ok hv).edges]
      by_cases heq : other = place
      · rw [heq, hedge, Option.map_some, hrelieved, ite_self]
      · simp [heq]

/-- Taking account of edges one after the other notes what each of them brings. -/
theorem accounted_of_foldlM {entries : List (Edge × Nat)}
    (hentries : ∀ entry ∈ entries, t.edges[entry.2]? = some entry.1)
    (hnodup : (entries.map (·.2)).Nodup)
    (h : (entries.map (·.2)).foldlM addDriver found t = .ok found' t') (hplans : Plans t' asked) :
    Accounted asked entries found t found' t' := by
  induction entries generalizing found t with
  | nil =>
    obtain ⟨rfl, rfl⟩ := pure_eq_ok.mp h
    exact ⟨fun key => by simp, id, fun place => by simp⟩
  | cons entry entries ih =>
    obtain ⟨edge, place⟩ := entry
    obtain ⟨hnew, hrest⟩ := List.nodup_cons.mp hnodup
    have hfirst : place ∉ entries.map (·.2) := hnew
    rw [List.map_cons, List.foldlM_cons] at h
    obtain ⟨middle, u, hstep, h⟩ := bind_eq_ok.mp h
    have hu : Plans u t' := (Moves.foldlM (fun found place _ => moves_addDriver found place) _).of_ok h
    have hone := accounted_of_addDriver (hentries _ List.mem_cons_self) hstep (trans_of Plans hu hplans)
    -- The other edges are still as they were.
    have hsame : ∀ other ∈ entries, u.edges[other.2]? = some other.1 := by
      intro other ho
      have hne : other.2 ≠ place := fun heq => hfirst (List.mem_map.mpr ⟨other, ho, heq⟩)
      rw [edgeAt_of_addDriver hne hstep]
      exact hentries other (List.mem_cons_of_mem _ ho)
    have hall := ih hsame hrest h
    refine ⟨fun key => ?_, hall.nodup ∘ hone.nodup, fun other => ?_⟩
    · rw [hall.shares, hone.shares, List.append_assoc, ← List.flatMap_append]
      rfl
    · rw [hall.edges, hone.edges, Option.map_map]
      congr 1
      funext old
      by_cases heq : other = place
      · subst heq
        simp [hfirst]
      · simp only [Function.comp_apply, List.map_cons, List.map_nil, List.mem_cons, List.not_mem_nil,
          heq, false_or, if_false]

end Accounting

/-! ### Lists that parameters have -/

/-- The lists that a node is repeated for are those that its parameters stand for. -/
theorem listDrivers_eq {id : NodeId} {linked : List String} {parameters : List Parameter}
    {found : List (String × List Value)} {g g' asked : Graph}
    (h : listDrivers id linked parameters g = .ok found g') (hplans : Plans g' asked) :
    found = (parameters.filter fun p => !(p.isList || linked.contains p.name)).filterMap fun p =>
      (asked.listOf? id p.name).map (p.name, ·) := by
  induction parameters generalizing found g with
  | nil =>
    obtain ⟨rfl, -⟩ := pure_eq_ok.mp h
    rfl
  | cons parameter parameters ih =>
    rw [listDrivers] at h
    split at h
    next hskip =>
      have hdrop : ¬ (!(parameter.isList || linked.contains parameter.name)) = true := by
        rw [hskip]
        decide
      rw [List.filter_cons, if_neg hdrop]
      exact ih h
    next htake =>
      obtain ⟨current, t, hcurrent, h⟩ := bind_eq_ok.mp h
      obtain ⟨others, t', hothers, h⟩ := bind_eq_ok.mp h
      have ht : Plans t t' := ((moves_listDrivers _ _ _).of_ok hothers).plans
      rw [List.filter_cons_of_pos (by simpa using htake), List.filterMap_cons, listOf?]
      split at h
      next item items =>
        obtain ⟨rfl, rfl⟩ := pure_eq_ok.mp h
        rw [((trans_of Plans ht hplans).recollects id).valueOf? hcurrent, ← ih hothers]
        rfl
      next hno =>
        obtain ⟨rfl, rfl⟩ := pure_eq_ok.mp h
        rw [((trans_of Plans ht hplans).recollects id).valueOf? hcurrent, ← ih hothers]
        split
        next hnone => rfl
        next hsome =>
          split at hsome
          next item items => exact absurd rfl (hno item items)
          next => cases hsome

/-! ### What a node is repeated for -/

/-- What a node is repeated for, in a graph in which its turn comes and in that in which this has been
found out. -/
structure Demands (g : Graph) (node : Node) (plan : Drivers) (asked : Graph) : Prop where
  /-- A parameter is brought the elements of the lists that come in for it, in the order of the
  edges. -/
  shares : ∀ key, gathered key plan.shares = (g.arrivals node.id).flatMap (asked.supplied key)
  /-- It is mentioned once. -/
  nodup : (plan.shares.map (·.1)).Nodup
  /-- And only if there are such elements. -/
  filled : ∀ entry ∈ plan.shares, entry.2 ≠ []
  /-- A parameter that takes a single value and that no edge leads to is brought the elements of the
  list that it has. -/
  lists : plan.lists = (node.spec.parameters.filter fun p =>
    !(p.isList || (g.linkedProperties node.id).contains p.name)).filterMap fun p =>
      (asked.listOf? node.id p.name).map (p.name, ·)
  /-- A strand is made of the edges from one output of a job into one parameter, in their order. -/
  strands : ∀ strand ∈ plan.strands, 1 < strand.edges.length ∧ strand.edges =
    g.placesWhere (g.joins node.id strand.property strand.origin strand.sourceProperty)
  /-- There are no two strands of the same edges. -/
  apart : ((plan.strands.map Strand.tagged).map (·.1)).Nodup
  /-- Where there are several such edges there is a strand. -/
  several : ∀ property origin output, 1 < (g.strand node.id property origin output).length →
    ∃ strand ∈ plan.strands, strand.property = property ∧ strand.origin = origin ∧
      strand.sourceProperty = output
  /-- Edges to the node that bring lists without elements stand for the order only. -/
  edges : asked.edges = g.edges.map fun edge =>
    if edge.target = node.id then asked.relieved edge else edge
  /-- Nodes stay as they are. -/
  nodes : asked.nodes = g.nodes
  /-- No handle is given out. -/
  nextId : asked.nextId = g.nextId

/-- What is found out is what it takes to repeat the node. -/
theorem demands_of_drivers {g asked : Graph} {node : Node} {plan : Drivers} (hw : g.WellFormed)
    (hn : node ∈ g.nodes) (h : drivers node.id g = .ok plan asked) : Demands g node plan asked := by
  have hplans : Plans g asked := (moves_drivers node.id).of_ok h
  have htraced := traced_of_drivers h
  obtain ⟨all, hcollects, hstrands⟩ := collects_of_drivers hw h
  obtain ⟨hnodes, -, hmade, hseveral⟩ := strands_of_drivers hw h
  obtain ⟨found, t, other, lists, hfold, hother, hlists, rfl⟩ := drivers_eq_ok h
  have hlast : Plans t asked := ((moves_listDrivers _ _ _).of_ok hlists).plans
  obtain rfl : other = node := by
    have hin := hw.node?_eq_some.mpr hn
    have hfirst : Plans g t :=
      (Moves.foldlM (fun found place _ => moves_addDriver found place) _).of_ok hfold
    rw [node?, hfirst.nodes, ← node?, hin] at hother
    exact (Option.some.inj hother).symm
  have hnodup := nodup_placesWhere g (·.target == other.id)
  have haccounted := accounted_of_foldlM (fun entry he => (mem_arrivals.mp he).1)
    (incoming_eq g other.id ▸ hnodup) (incoming_eq g other.id ▸ hfold) hlast
  refine ⟨fun key => ?_, haccounted.nodup List.nodup_nil, htraced.nonempty,
    listDrivers_eq hlists (refl_of Plans asked), fun strand hs => ⟨?_, hmade strand hs⟩, ?_, hseveral,
    ?_, hnodes, hplans.retains.nextId⟩
  · rw [haccounted.shares]
    rfl
  · exact of_decide_eq_true (List.mem_filter.mp hs).2
  · rw [hstrands]
    exact ((List.filter_sublist.map _).map _).nodup hcollects.apart
  · have hedges : asked.edges = t.edges := ((moves_listDrivers _ _ _).of_ok hlists).edges
    refine List.ext_getElem? fun place => ?_
    rw [hedges, haccounted.edges, List.getElem?_map]
    cases hedge : g.edges[place]? with
    | none => rfl
    | some edge =>
      have hiff : place ∈ (g.arrivals other.id).map (·.2) ↔ edge.target = other.id := by
        rw [← incoming_eq, mem_incoming]
        simp [hedge]
      simp [hiff]

/-- The shares of a list are its elements with their places. -/
theorem mem_sharesAt {place : Nat} {source : NodeId} {property : String} {items : List Value}
    {share : Share} : share ∈ sharesAt place source property items ↔ share.edge = place ∧
      share.source = source ∧ share.sourceProperty = property ∧
      items[share.index]? = some share.value := by
  rw [sharesAt, List.mem_map]
  constructor
  · rintro ⟨⟨item, index⟩, hmem, rfl⟩
    exact ⟨rfl, rfl, rfl, List.mem_zipIdx_iff_getElem?.mp hmem⟩
  · rintro ⟨rfl, rfl, rfl, hitem⟩
    exact ⟨(share.value, share.index), List.mem_zipIdx_iff_getElem?.mpr hitem, rfl⟩

namespace Demands

variable {g asked : Graph} {node : Node} {plan : Drivers} (h : Demands g node plan asked)

include h

/-- What is shared out for a parameter are the elements that its edges supply, in their order. -/
theorem gathered_eq {entry : String × List Share} (he : entry ∈ plan.shares) :
    entry.2 = (g.arrivals node.id).flatMap (asked.supplied entry.1) := by
  rw [← h.shares, gathered_of_mem h.nodup he]

/-- Each element comes from the list that an edge brings, and from its place in that list. -/
theorem exists_link {entry : String × List Share} (he : entry ∈ plan.shares) {share : Share}
    (hs : share ∈ entry.2) : ∃ edge link, g.edges[share.edge]? = some edge ∧
      edge.target = node.id ∧ edge.kind = .data link ∧ link.cardinality = .manyToOne ∧
      link.targetProperty = entry.1 ∧
      share ∈ sharesAt share.edge edge.source link.sourceProperty (asked.offered edge link) := by
  rw [h.gathered_eq he] at hs
  obtain ⟨⟨edge, place⟩, harrival, hs⟩ := List.mem_flatMap.mp hs
  obtain ⟨hedge, htarget⟩ := mem_arrivals.mp harrival
  rw [supplied] at hs
  split at hs
  next => cases hs
  next link hk =>
    split at hs
    next hlink =>
      obtain rfl : share.edge = place := (mem_sharesAt.mp hs).1
      exact ⟨edge, link, hedge, htarget, hk, hlink.1, hlink.2, hs⟩
    next => cases hs

/-- And the elements that an edge brings are shared out. -/
theorem exists_entry {place : Nat} {edge : Edge} {link : DataLink}
    (hedge : g.edges[place]? = some edge) (htarget : edge.target = node.id)
    (hk : edge.kind = .data link) (hc : link.cardinality = .manyToOne)
    (hne : asked.offered edge link ≠ []) : ∃ entry ∈ plan.shares, entry.1 = link.targetProperty ∧
      sharesAt place edge.source link.sourceProperty (asked.offered edge link) ⊆ entry.2 := by
  have hsupplied : asked.supplied link.targetProperty (edge, place) =
      sharesAt place edge.source link.sourceProperty (asked.offered edge link) := by
    simp [supplied, hk, hc]
  have hsub : sharesAt place edge.source link.sourceProperty (asked.offered edge link) ⊆
      gathered link.targetProperty plan.shares := by
    intro share hs
    rw [h.shares]
    exact List.mem_flatMap.mpr ⟨(edge, place), mem_arrivals.mpr ⟨hedge, htarget⟩, hsupplied ▸ hs⟩
  have hsome : sharesAt place edge.source link.sourceProperty (asked.offered edge link) ≠ [] := by
    simpa [sharesAt] using hne
  obtain ⟨share, hs⟩ := List.exists_mem_of_ne_nil _ hsome
  obtain ⟨entry, he, hkey⟩ := exists_of_gathered (List.ne_nil_of_mem (hsub hs))
  refine ⟨entry, he, hkey, ?_⟩
  rwa [← gathered_of_mem h.nodup he, hkey]

/-- No parameter is brought both elements along edges and those of a list that it has. -/
theorem not_mem_lists {entry : String × List Share} (he : entry ∈ plan.shares) :
    entry.1 ∉ plan.lists.map (·.1) := by
  obtain ⟨share, hs⟩ := List.exists_mem_of_ne_nil _ (h.filled entry he)
  obtain ⟨edge, link, hedge, htarget, hk, -, hkey, -⟩ := h.exists_link he hs
  have hlinked : entry.1 ∈ g.linkedProperties node.id := by
    refine List.mem_filterMap.mpr ⟨edge, List.mem_of_getElem? hedge, ?_⟩
    rw [if_pos htarget, hk, ← hkey]
    rfl
  intro hmem
  obtain ⟨listed, hlisted, heq⟩ := List.mem_map.mp hmem
  rw [h.lists] at hlisted
  obtain ⟨p, hp, hlist⟩ := List.mem_filterMap.mp hlisted
  obtain ⟨items, -, rfl⟩ := Option.map_eq_some_iff.mp hlist
  have hfree := (List.mem_filter.mp hp).2
  simp only [Bool.not_eq_true', Bool.or_eq_false_iff] at hfree
  have hname : p.name = entry.1 := heq
  rw [← hname] at hlinked
  simp [hlinked] at hfree

/-- A list is that which its parameter stands for. -/
theorem listOf?_eq {entry : String × List Value} (he : entry ∈ plan.lists) :
    asked.listOf? node.id entry.1 = some entry.2 := by
  rw [h.lists] at he
  obtain ⟨p, -, hlist⟩ := List.mem_filterMap.mp he
  obtain ⟨items, hitems, rfl⟩ := Option.map_eq_some_iff.mp hlist
  exact hitems

end Demands

/-! ### How many values are brought -/

section Sizes

variable {plan : Drivers} {count : Nat}

/-- If all that has to be shared out has one size, that is how often the node is repeated. -/
theorem size?_eq_some (hsome : plan.sizes ≠ []) (hall : ∀ entry ∈ plan.sizes, entry.2 = count)
    (job : String) : plan.size? job = .ok (some count) := by
  rw [Drivers.size?]
  cases hsizes : plan.sizes with
  | nil => exact absurd hsizes hsome
  | cons first others =>
    rw [hsizes] at hall
    have hfirst : first.2 = count := hall first List.mem_cons_self
    have hnone : others.find? (·.2 != count) = none := by
      refine List.find?_eq_none.mpr fun entry he => ?_
      simp [hall entry (List.mem_cons_of_mem _ he)]
    simp only [hfirst, hnone]

/-- If not all parameters bring as many values, the first that brings another number than the first
of all is found. -/
theorem size?_eq_error (h : ∃ a ∈ plan.sizes, ∃ b ∈ plan.sizes, a.2 ≠ b.2) (job : String) :
    ∃ expected parameter found, plan.sizes.head?.map (·.2) = some expected ∧
      plan.sizes.find? (·.2 != expected) = some (parameter, found) ∧
      plan.size? job = .error (.cardinalityMismatch job parameter expected found) := by
  obtain ⟨a, ha, b, hb, hne⟩ := h
  rw [Drivers.size?]
  cases hsizes : plan.sizes with
  | nil =>
    rw [hsizes] at ha
    cases ha
  | cons first others =>
    have hskip : (first :: others).find? (·.2 != first.2) = others.find? (·.2 != first.2) := by
      simp
    cases hfind : others.find? (·.2 != first.2) with
    | some other => exact ⟨first.2, other.1, other.2, rfl, hskip.trans hfind, by simp only [hfind]⟩
    | none =>
      have hall : ∀ entry ∈ first :: others, entry.2 = first.2 := fun entry he => by
        rcases List.mem_cons.mp he with rfl | he
        · rfl
        · simpa using List.find?_eq_none.mp hfind entry he
      rw [hsizes] at ha hb
      exact absurd ((hall a ha).trans (hall b hb).symm) hne

end Sizes

end Graph

end Pipework
