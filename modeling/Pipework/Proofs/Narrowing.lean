import Pipework.Proofs.Demand
import Pipework.Proofs.Lookups

/-!
# Taking single values

A node that is brought one value for each parameter takes these values and stays. Each edge along
which a list comes in hands on the one element of that, and a list that a parameter has gives way to
its element. No node comes or goes, and no other edge or value changes.
-/

namespace Pipework

open Step Resolve

/-- The node with the first element of each list as the value of its parameter. -/
def Node.taking (node : Node) (lists : List (String × List Value)) : Node :=
  lists.foldl (fun node entry => (entry.2.head?.map (node.set entry.1)).getD node) node

theorem Node.outline_taking (node : Node) (lists : List (String × List Value)) :
    (node.taking lists).outline = node.outline := by
  rw [taking]
  induction lists generalizing node with
  | nil => rfl
  | cons entry lists ih =>
    rw [List.foldl_cons, ih]
    cases entry.2.head? <;> rfl

/-- Under a key without a list the node has what it had. -/
theorem Node.get?_taking_of_not_mem {node : Node} {lists : List (String × List Value)} {key : String}
    (h : key ∉ lists.map (·.1)) :
    (node.taking lists).overrides.get? key = node.overrides.get? key := by
  rw [taking]
  induction lists generalizing node with
  | nil => rfl
  | cons entry lists ih =>
    rw [List.map_cons, List.mem_cons, not_or] at h
    rw [List.foldl_cons, ih h.2]
    cases entry.2.head? with
    | none => rfl
    | some item =>
      change (node.overrides.insert entry.1 item).get? key = _
      rw [Settings.get?_insert, if_neg h.1]

/-- Under the key of a list it has the element of that, or of another list under that key. -/
theorem Node.exists_taking (node : Node) {lists : List (String × List Value)} {key : String}
    (hfull : ∀ entry ∈ lists, entry.2 ≠ []) (h : key ∈ lists.map (·.1)) : ∃ entry ∈ lists,
      entry.1 = key ∧ (node.taking lists).overrides.get? key = entry.2.head? := by
  rw [taking]
  induction lists generalizing node with
  | nil => cases h
  | cons entry lists ih =>
    rw [List.foldl_cons]
    by_cases hlater : key ∈ lists.map (·.1)
    · obtain ⟨other, ho, hkey, hvalue⟩ :=
        ih _ (fun other ho => hfull other (List.mem_cons_of_mem _ ho)) hlater
      exact ⟨other, List.mem_cons_of_mem _ ho, hkey, hvalue⟩
    · obtain rfl : key = entry.1 := by simpa [hlater] using h
      refine ⟨entry, List.mem_cons_self, rfl, ?_⟩
      rw [← taking, get?_taking_of_not_mem hlater]
      obtain ⟨item, items, hitems⟩ := List.exists_cons_of_ne_nil (hfull entry List.mem_cons_self)
      rw [hitems]
      change (node.overrides.insert entry.1 item).get? entry.1 = _
      rw [Settings.get?_insert, if_pos rfl]
      rfl

namespace Graph

/-- An edge along which a list comes in, as it hands on the first element of that. -/
def narrowed (asked : Graph) (edge : Edge) : Edge :=
  match edge.kind with
  | .after => edge
  | .data link =>
    if link.cardinality = .manyToOne then
      match asked.offered edge link with
      | item :: _ => { edge with kind := .data (link.single 0 item) }
      | [] => edge
    else edge

/-- An edge that hands on an element. -/
def narrow (share : Share) (edge : Edge) : Edge :=
  match edge.kind with
  | .data link => { edge with kind := .data (link.single share.index share.value) }
  | .after => edge

theorem narrow_narrow (share : Share) (edge : Edge) :
    narrow share (narrow share edge) = narrow share edge := by
  obtain ⟨source, target, kind⟩ := edge
  cases kind <;> rfl

/-- Where edges hand on elements, each is changed for the elements that come along it. -/
theorem exists_narrow (shares : List Share) (g : Graph) : ∃ edges,
    shares.forM narrowEdge g = .ok () { g with edges } ∧ ∀ place : Nat,
      edges[place]? = g.edges[place]?.map fun edge =>
        (shares.filter (·.edge == place)).foldl (fun edge share => narrow share edge) edge := by
  induction shares generalizing g with
  | nil => exact ⟨g.edges, rfl, fun place => by simp⟩
  | cons share shares ih =>
    obtain ⟨edges, hrun, hedges⟩ := ih (g.modifyEdge share.edge (narrow share))
    refine ⟨edges, bind_eq_ok.mpr ⟨(), _, modify_eq_ok.mpr rfl, hrun⟩, fun place => ?_⟩
    rw [hedges, modifyEdge, List.getElem?_modify]
    by_cases heq : share.edge = place <;> simp [heq, Function.comp_def]

/-- An edge is changed once, however often the same is done to it. -/
theorem foldl_narrow {share : Share} {shares : List Share} (hsame : ∀ other ∈ shares, other = share)
    (edge : Edge) : shares.foldl (fun edge share => narrow share edge) (narrow share edge) =
      narrow share edge := by
  induction shares with
  | nil => rfl
  | cons other shares ih =>
    rw [List.foldl_cons, hsame other List.mem_cons_self, narrow_narrow]
    exact ih fun later hl => hsame later (List.mem_cons_of_mem _ hl)

/-- A node takes the elements of lists, and nothing else happens. -/
theorem exists_takes {t : Graph} (ht : t.Attuned) (id : NodeId) {lists : List (String × List Value)}
    (hfull : ∀ entry ∈ lists, entry.2 ≠ []) : ∃ t',
      (lists.forM fun entry => do
        let item ← ofOption entry.2[0]?
        setNodeValue id entry.1 item) t = .ok () t' ∧ t'.edges = t.edges ∧
      t'.nodes = t.nodes.map fun node => if node.id = id then node.taking lists else node := by
  induction lists generalizing t with
  | nil => exact ⟨t, rfl, rfl, by simp [Node.taking]⟩
  | cons entry lists ih =>
    obtain ⟨item, items, hitems⟩ := List.exists_cons_of_ne_nil (hfull entry List.mem_cons_self)
    obtain ⟨u, hset, -⟩ := setNodeValue_spec ht.mirrored id entry.1 item
    obtain ⟨t', hrun, hedges, hnodes⟩ := ih (covers_attuned.setNodeValue id entry.1 item |>.of_ok hset ht)
      fun other ho => hfull other (List.mem_cons_of_mem _ ho)
    have hstep : (do
        let item ← ofOption entry.2[0]?
        setNodeValue id entry.1 item : GraphM Unit) t = .ok () u := by
      refine bind_eq_ok.mpr ⟨item, t, ofOption_eq_ok.mpr ⟨?_, rfl⟩, hset⟩
      rw [hitems]
      rfl
    refine ⟨t', bind_eq_ok.mpr ⟨(), u, hstep, hrun⟩, ?_, ?_⟩
    · rw [hedges, ((moves_setNodeValue _ _ _).of_ok hset).edges]
    · rw [hnodes, nodes_of_setNodeValue hset, modifyNode, List.map_map]
      refine List.map_congr_left fun node _ => ?_
      rw [Function.comp_apply]
      by_cases heq : node.id = id
      · have htaking : node.taking (entry :: lists) = (node.set entry.1 item).taking lists := by
          rw [Node.taking, List.foldl_cons, hitems]
          rfl
        have hid : (node.set entry.1 item).id = id := heq
        rw [if_pos heq, if_pos hid, if_pos heq, htaking]
      · rw [if_neg heq, if_neg heq, if_neg heq]

/-- A node that is brought one value for each parameter takes these values. -/
structure Collapses (node : Node) (plan : Drivers) (asked last : Graph) : Prop where
  /-- The edges to it along which lists come in hand on the one element that these have. -/
  edges : last.edges = asked.edges.map fun edge =>
    if edge.target = node.id then asked.narrowed edge else edge
  /-- The node has other values, and no other node changes. -/
  nodes : last.nodes = asked.nodes.map fun other =>
    if other.id = node.id then other.taking plan.lists else other
  /-- No node comes or goes. -/
  outlines : last.nodes.map Node.outline = asked.nodes.map Node.outline
  /-- A list gives way to its element. -/
  lists : ∀ entry ∈ plan.lists, ∃ item, entry.2 = [item] ∧
    (node.taking plan.lists).overrides.get? entry.1 = some item
  /-- No other value changes. -/
  others : ∀ key ∉ plan.lists.map (·.1),
    (node.taking plan.lists).overrides.get? key = node.overrides.get? key

section Collapsing

variable {g asked : Graph} {node : Node} {plan : Drivers} (h : Demands g node plan asked)

include h

/-- An edge that still brings a list is as it was. -/
theorem Demands.edge_of_manyToOne {place : Nat} {edge : Edge} {link : DataLink}
    (he : asked.edges[place]? = some edge) (htarget : edge.target = node.id)
    (hk : edge.kind = .data link) (hc : link.cardinality = .manyToOne) :
    g.edges[place]? = some edge ∧ asked.offered edge link ≠ [] := by
  rw [h.edges, List.getElem?_map] at he
  obtain ⟨old, hold, rfl⟩ := Option.map_eq_some_iff.mp he
  by_cases hinto : old.target = node.id
  · rw [if_pos hinto] at htarget hk ⊢
    rw [relieved] at htarget hk ⊢
    split at hk
    next hafter => rw [hafter] at hk; cases hk
    next link' hk' =>
      split at hk
      · cases hk
      next hsome =>
        obtain rfl := EdgeKind.data.inj (hk'.symm.trans hk)
        rw [if_neg hsome]
        exact ⟨hold, fun hnone => hsome ⟨hc, hnone⟩⟩
  · rw [if_neg hinto] at htarget
    exact absurd htarget hinto

/-- If each parameter is brought one value, the only element that comes along an edge is the first one
of its list. -/
theorem Demands.share_of_one (hone : ∀ entry ∈ plan.sizes, entry.2 = 1) {place : Nat} {edge : Edge}
    {link : DataLink} (hedge : g.edges[place]? = some edge) (htarget : edge.target = node.id)
    (hk : edge.kind = .data link) (hc : link.cardinality = .manyToOne) {item : Value}
    {items : List Value} (hitems : asked.offered edge link = item :: items) :
    ∃ share ∈ plan.shares.flatMap (·.2), share.edge = place ∧ share.index = 0 ∧ share.value = item ∧
      ∀ other ∈ plan.shares.flatMap (·.2), other.edge = place → other = share := by
  have hfirst : (⟨place, edge.source, link.sourceProperty, 0, item⟩ : Share) ∈
      sharesAt place edge.source link.sourceProperty (asked.offered edge link) :=
    mem_sharesAt.mpr ⟨rfl, rfl, rfl, by rw [hitems]; rfl⟩
  obtain ⟨entry, he, hkey, hsub⟩ := h.exists_entry hedge htarget hk hc (by simp [hitems])
  have hlength : entry.2.length = 1 := hone (entry.1, entry.2.length)
    (List.mem_append_left _ (List.mem_append_left _ (List.mem_map_of_mem he)))
  obtain ⟨only, honly⟩ := List.length_eq_one_iff.mp hlength
  obtain rfl := List.mem_singleton.mp (honly ▸ hsub hfirst)
  refine ⟨_, List.mem_flatMap.mpr ⟨entry, he, hsub hfirst⟩, rfl, rfl, rfl, fun share hs hplace => ?_⟩
  obtain ⟨other, ho, hs⟩ := List.mem_flatMap.mp hs
  obtain ⟨edge', link', hedge', -, hk', -, hkey', -⟩ := h.exists_link ho hs
  obtain rfl := Option.some.inj (hedge.symm.trans (hplace ▸ hedge'))
  obtain rfl := EdgeKind.data.inj (hk.symm.trans hk')
  obtain rfl := List.inj_on_of_nodup_map h.nodup ho he (hkey'.symm.trans hkey.symm)
  exact List.mem_singleton.mp (honly ▸ hs)

/-- Then an edge to the node is changed for the first element of its list. -/
theorem Demands.narrowed_eq (hone : ∀ entry ∈ plan.sizes, entry.2 = 1) {place : Nat} {edge : Edge}
    (he : asked.edges[place]? = some edge) :
    ((plan.shares.flatMap (·.2)).filter (·.edge == place)).foldl
        (fun edge share => narrow share edge) edge =
      if edge.target = node.id then asked.narrowed edge else edge := by
  by_cases hlist : edge.target = node.id ∧ ∃ link, edge.kind = .data link ∧
      link.cardinality = .manyToOne
  · obtain ⟨htarget, link, hk, hc⟩ := hlist
    obtain ⟨hedge, hne⟩ := h.edge_of_manyToOne he htarget hk hc
    obtain ⟨item, items, hitems⟩ := List.exists_cons_of_ne_nil hne
    obtain ⟨share, hmem, hplace, hindex, hvalue, honly⟩ :=
      h.share_of_one hone hedge htarget hk hc hitems
    have hnarrow : narrow share edge = asked.narrowed edge := by
      simp [narrow, narrowed, hk, hc, hitems, hindex, hvalue]
    have hin : share ∈ (plan.shares.flatMap (·.2)).filter (·.edge == place) :=
      List.mem_filter.mpr ⟨hmem, beq_iff_eq.mpr hplace⟩
    have hall : ∀ other ∈ (plan.shares.flatMap (·.2)).filter (·.edge == place), other = share :=
      fun other ho => honly other (List.mem_filter.mp ho).1 (beq_iff_eq.mp (List.mem_filter.mp ho).2)
    obtain ⟨first, rest, hfilter⟩ := List.exists_cons_of_ne_nil (List.ne_nil_of_mem hin)
    rw [hfilter] at hall
    rw [if_pos htarget, hfilter, List.foldl_cons, hall first List.mem_cons_self,
      foldl_narrow fun other ho => hall other (List.mem_cons_of_mem _ ho), hnarrow]
  · have hnone : (plan.shares.flatMap (·.2)).filter (·.edge == place) = [] := by
      refine List.filter_eq_nil_iff.mpr fun share hs hplace => hlist ?_
      obtain ⟨entry, hentry, hs⟩ := List.mem_flatMap.mp hs
      obtain ⟨old, link, hold, htarget, hk, hc, -, hs⟩ := h.exists_link hentry hs
      have hne : asked.offered old link ≠ [] := by
        intro hempty
        simp [hempty, sharesAt] at hs
      have hkept : asked.relieved old = old := by simp [relieved, hk, hne]
      rw [beq_iff_eq.mp hplace] at hold
      rw [h.edges, List.getElem?_map, hold, Option.map_some, if_pos htarget, hkept] at he
      obtain rfl := Option.some.inj he
      exact ⟨htarget, link, hk, hc⟩
    rw [hnone, List.foldl_nil]
    split
    next htarget =>
      rw [narrowed]
      split
      · rfl
      next link hk => rw [if_neg fun hc => hlist ⟨htarget, link, hk, hc⟩]
    · rfl

theorem collapses_of_one (ht : asked.Attuned) (hone : ∀ entry ∈ plan.sizes, entry.2 = 1) :
    ∃ last, collapse node.id plan asked = .ok () last ∧ Collapses node plan asked last := by
  have hlist : ∀ entry ∈ plan.lists, ∃ item, entry.2 = [item] := fun entry he =>
    List.length_eq_one_iff.mp (hone (entry.1, entry.2.length)
      (List.mem_append_left _ (List.mem_append_right _ (List.mem_map_of_mem he))))
  have hfull : ∀ entry ∈ plan.lists, entry.2 ≠ [] := fun entry he => by
    obtain ⟨item, hitem⟩ := hlist entry he
    simp [hitem]
  obtain ⟨edges, hnarrow, hedges⟩ := exists_narrow (plan.shares.flatMap (·.2)) asked
  have hmoves : Moves (Keeps Attuned) ((plan.shares.flatMap (·.2)).forM narrowEdge) :=
    .forM fun share _ => (moves_narrowEdge share).mono covers_attuned.plan
  obtain ⟨last, htakes, hsame, hnodes⟩ := exists_takes (hmoves.of_ok hnarrow ht) node.id hfull
  refine ⟨last, bind_eq_ok.mpr ⟨(), _, forM_flatMap_eq_ok.mp hnarrow, htakes⟩, ?_, hnodes, ?_,
    fun entry he => ?_, fun key hkey => Node.get?_taking_of_not_mem hkey⟩
  · rw [hsame]
    refine List.ext_getElem? fun place => ?_
    rw [hedges, List.getElem?_map]
    cases hedge : asked.edges[place]? with
    | none => rfl
    | some edge =>
      rw [Option.map_some, Option.map_some, h.narrowed_eq hone hedge]
  · rw [hnodes, List.map_map]
    refine List.map_congr_left fun other _ => ?_
    rw [Function.comp_apply]
    split
    · exact Node.outline_taking _ _
    · rfl
  · obtain ⟨item, hitem⟩ := hlist entry he
    obtain ⟨other, ho, hkey, hvalue⟩ := node.exists_taking hfull (List.mem_map_of_mem he)
    have hsame : other.2 = entry.2 := Option.some.inj
      ((h.listOf?_eq ho).symm.trans (hkey ▸ h.listOf?_eq he))
    refine ⟨item, hitem, ?_⟩
    rw [hvalue, hsame, hitem]
    rfl

end Collapsing

end Graph

end Pipework
