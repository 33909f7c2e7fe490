import Pipework.Proofs.Reading
import Pipework.Proofs.ScalarShares

/-!
# What is allotted to nodes

A parameter that takes a single value and that no edge leads to is looked at when its node has its
turn. If it has several values then, they are dealt out: every repetition gets one of them for its own,
as does a node that takes a single one. So in the end a node that has nothing of its own there stands
for a job that had at most one value at its turn.
-/

namespace Pipework

open Step Resolve Value

namespace Graph

/-- The node has something of its own wherever its job had several values to be dealt out. -/
def Allotted (built : Graph) (node : Node) : Prop :=
  ∃ job ∈ built.nodes, node.spec = job.spec ∧ ∃ plan asked,
    planned job.id built = .ok plan asked ∧
      ∀ key ∈ plan.lists.map (·.1), (node.overrides.get? key).isSome

/-- All nodes but those whose turns are still to come were allotted their values. -/
def Allots (built : Graph) (waiting : List NodeId) (g : Graph) : Prop :=
  ∀ node ∈ g.nodes, node.id ∉ waiting → Allotted built node

/-- A node that was given a value has all that it had of its own. -/
theorem isSome_get?_set {node : Node} {key other : String} (value : Value)
    (h : (node.overrides.get? key).isSome) : ((node.set other value).overrides.get? key).isSome := by
  change ((node.overrides.insert other value).get? key).isSome
  rw [Settings.get?_insert]
  split
  · rfl
  · exact h

/-- A node that was allotted its values stays so when it is given another one. -/
theorem Allotted.set {built : Graph} {node : Node} (h : Allotted built node) (key : String)
    (value : Value) : Allotted built (node.set key value) := by
  obtain ⟨job, hjob, hspec, plan, asked, hplanned, hown⟩ := h
  exact ⟨job, hjob, hspec, plan, asked, hplanned,
    fun other hother => isSome_get?_set value (hown other hother)⟩

section Keeping

variable {built : Graph} {waiting : List NodeId}

/-- Reading values allots nothing and takes nothing away. -/
theorem SameButMemo.allots {g g' : Graph} (h : SameButMemo g g') :
    Keeps (Allots built waiting) g g' := fun hg => by
  obtain ⟨memo, -, rfl⟩ := h
  exact hg

/-- Finding out what a node is repeated for allots nothing and takes nothing away. -/
theorem Plans.allots {g g' : Graph} (h : Plans g g') : Keeps (Allots built waiting) g g' :=
  fun hg node hn => hg node (h.nodes ▸ hn)

/-- Taking a node out and adding edges takes nothing away from the others. -/
theorem allots_replaceEdges (g : Graph) (id : NodeId) (edges : List Edge) :
    Keeps (Allots built waiting) g ((g.removeNode id).addEdges edges) :=
  fun hg node hn => hg node (List.mem_of_mem_filter hn)

/-- Giving a node a value takes nothing away. -/
theorem allots_setNodeValue (id : NodeId) (key : String) (value : Value) :
    Moves (Keeps (Allots built waiting)) (setNodeValue id key value) := by
  refine moves_setNodeValue_of (fun g h node hn hno => ?_) fun g g' hsame h => ?_
  · obtain ⟨old, hold, ⟨-, rfl⟩ | ⟨-, rfl⟩⟩ := mem_modifyNode hn
    · exact (h old hold hno).set key value
    · exact h node hold hno
  · obtain ⟨tree, rfl⟩ := hsame
    exact h

/-- A node that takes a single value of each list has them for its own. -/
theorem isSome_of_collapse {id : NodeId} {plan : Drivers} {g g' : Graph} {u : Unit}
    (h : collapse id plan g = .ok u g') : ∀ key ∈ plan.lists.map (·.1), ∀ node ∈ g'.nodes,
      node.id = id → (node.overrides.get? key).isSome := by
  intro key hkey node hn hid
  obtain ⟨entry, hentry, rfl⟩ := List.mem_map.mp hkey
  let R : Graph → Graph → Prop := Keeps fun t => ∀ node ∈ t.nodes, node.id = id →
    (node.overrides.get? entry.1).isSome
  have hset : ∀ key value, Moves R (setNodeValue id key value) := by
    intro key value
    refine moves_setNodeValue_of (fun t ht node hn hid => ?_) fun t t' hsame ht => ?_
    · obtain ⟨old, hold, ⟨-, rfl⟩ | ⟨-, rfl⟩⟩ := mem_modifyNode hn
      · exact isSome_get?_set value (ht old hold hid)
      · exact ht node hold hid
    · obtain ⟨tree, rfl⟩ := hsame
      exact ht
  obtain ⟨_, t, -, hlists⟩ := bind_eq_ok.mp h
  obtain ⟨t₁, v, t₂, -, hstep, hrest⟩ := exists_of_forM (R := R)
    (fun other _ => (moves_ofOption _).bind fun item => hset other.1 item) hlists hentry
  refine hrest (fun node hn hid => ?_) node hn hid
  obtain ⟨item, _, -, hstep⟩ := bind_eq_ok.mp hstep
  rw [nodes_of_setNodeValue hstep] at hn
  obtain ⟨old, hold, ⟨-, rfl⟩ | ⟨hne, rfl⟩⟩ := mem_modifyNode hn
  · change ((old.overrides.insert entry.1 item).get? entry.1).isSome
    rw [Settings.get?_insert, if_pos rfl]
    rfl
  · exact absurd hid hne

/-- A repetition gets something of its own wherever its node has several values. -/
theorem allots_addReplica {job : Node} {plan : Drivers} {asked : Graph} {serial : Bool} {place : Nat}
    {replica : NodeId} {g g' : Graph} (hjob : job ∈ built.nodes)
    (hplanned : planned job.id built = .ok plan asked)
    (h : addReplica job plan serial place g = .ok replica g') :
    Keeps (Allots built waiting) g g' := by
  intro hg node hn hno
  obtain ⟨overrides, t, hshare, hadd⟩ := bind_eq_ok.mp h
  obtain ⟨memo, -, rfl⟩ := (moves_shareOut job plan place).of_ok hshare
  obtain ⟨-, -, scope, rfl⟩ := adds_of_addNode hadd
  rcases List.mem_append.mp hn with hn | hn
  · exact hg node hn hno
  · obtain rfl := List.mem_singleton.mp hn
    refine ⟨job, hjob, rfl, plan, asked, hplanned, fun key hkey => ?_⟩
    refine Option.isSome_iff_ne_none.mpr fun hnone => ?_
    exact (overrides_of_shareOut hshare hnone).2 hkey

/-- A node is not repeated if nothing brings values. -/
theorem sizes_of_size? {plan : Drivers} {job : String} (h : plan.size? job = .ok none) :
    plan.sizes = [] := by
  rw [Drivers.size?] at h
  split at h
  next hnone => exact hnone
  next => split at h <;> cases h

/-- When a node has its turn it is allotted its values. -/
theorem allots_splitNode {jobs : List Job} {g g' : Graph} {job : Node} {done : List NodeId} {u : Unit}
    (h : Allots built (job.id :: waiting) g) (hunderway : Underway built done g)
    (hw : built.WellFormed) (ho : g.Orderly jobs) (hjob : job ∈ built.nodes) (hdone : job.id ∉ done)
    (hplan : ∀ plan t, drivers job.id g = .ok plan t → planned job.id built = .ok plan t)
    (hstep : splitNode job.id g = .ok u g') : Allots built waiting g' := by
  have hlt : job.id < built.nextId := hw.below _ (List.mem_map_of_mem hjob)
  have hsame : ∀ {node}, node ∈ g.nodes → node.id = job.id → node = job := by
    intro node hin hid
    exact List.inj_on_of_nodup_map hw.nodup
      (hunderway.waiting node hin (hid ▸ hlt) (hid ▸ hdone)) hjob hid
  -- It is enough to look at the node whose turn it is, if it is still there.
  have hothers : ∀ {t : Graph}, Allots built (job.id :: waiting) t →
      (∀ node ∈ t.nodes, node.id = job.id → Allotted built node) → Allots built waiting t := by
    intro t ht hown node hn hno
    by_cases heq : node.id = job.id
    · exact hown node hn heq
    · exact ht node hn (by simp [heq, hno])
  cases turned_of_splitNode hstep with
  | absent hnode =>
    refine hothers h fun node hin hid => ?_
    simpa [hid] using List.find?_eq_none.mp hnode node hin
  | @idle node plan _ hnode hf hs =>
    have hplans : Plans g g' := (moves_drivers job.id).of_ok hf
    have hnone : plan.lists = [] := by
      have hsizes := sizes_of_size? hs
      simp only [Drivers.sizes, List.append_eq_nil_iff, List.map_eq_nil_iff] at hsizes
      exact hsizes.1.2
    refine hothers (hplans.allots h) fun other hin hid => ?_
    obtain rfl := hsame (hplans.nodes ▸ hin) hid
    exact ⟨other, hjob, rfl, plan, g', hplan plan g' hf, by simp [hnone]⟩
  | @collapsed node plan t _ hnode hf hs hc =>
    have hplans : Plans g t := (moves_drivers job.id).of_ok hf
    have hlast : Keeps (Allots built (job.id :: waiting)) t g' :=
      (moves_collapse_of (R := Keeps _) (fun _ _ h => h.allots)
        fun _ _ _ _ => allots_setNodeValue _ _ _).of_ok hc
    refine hothers (hlast (hplans.allots h)) fun other hin hid => ?_
    obtain ⟨old, hold, hspared⟩ := Spares.exists_node
      ((spares_collapse (W := fun _ _ => True) job.id plan fun _ _ => trivial).of_ok hc) hin
    obtain rfl := hsame (hplans.nodes ▸ hold) ((id_of_outline hspared.outline).symm.trans hid)
    exact ⟨old, hjob, spec_of_outline hspared.outline, plan, t, hplan plan t hf,
      fun key hkey => isSome_of_collapse hc key hkey other hin hid⟩
  | @replaced node plan t _ count hnode hf hs hne hr =>
    obtain ⟨hin, hid⟩ := id_of_node? hnode
    obtain rfl := hsame hin hid
    have hplans : Plans g t := (moves_drivers node.id).of_ok hf
    have hlast : Keeps (Allots built (node.id :: waiting)) t g' :=
      relates_replicate (R := Keeps _) (fun _ _ hread => hread.allots) allots_replaceEdges
        (fun _ _ _ _ _ => allots_addReplica hjob (hplan plan t hf))
        (fun _ _ _ _ _ _ _ => allots_setNodeValue _ _ _) hr
    refine hothers (hlast (hplans.allots h)) fun other hother heq => ?_
    have hnext : t.nextId = g.nextId := hplans.retains.nextId
    have hbelow : ∀ old ∈ t.nodes, old.id < t.nextId := fun old hold => by
      rw [hnext]
      exact ho.wellFormed.below _ (List.mem_map_of_mem (hplans.nodes ▸ hold))
    rcases nodes_of_replicate hbelow hr other hother with ⟨-, hne⟩ | ⟨-, -, -, -, hfresh, -⟩
    · exact absurd heq hne
    · rw [heq, hnext] at hfresh
      exact absurd (hlt.trans_le hunderway.nextId) (Nat.not_lt.mpr hfresh)

end Keeping

/-- When all nodes have had their turns, all are allotted their values. -/
theorem allotted_of_split {pipeline : Pipeline} {built repeated : Graph} {u : Unit}
    (hbuild : build pipeline = .ok built) (h : split built = .ok u repeated) :
    ∀ node ∈ repeated.nodes, Allotted built node := by
  obtain ⟨order, horder, hturns⟩ := split_eq_ok h
  obtain ⟨-, hw, hlinked, -⟩ := build_spec hbuild
  obtain ⟨hordered, hids, hsubset⟩ := ordered_of_topologicalOrder hw.closed horder
  -- Turn after turn, those who had theirs are allotted their values.
  suffices hall : ∀ next before g, order = before ++ next →
      before.forM (Graph.splitNode ·.id) built = .ok () g → g.Orderly pipeline.jobs →
      Allots built (next.map (·.id)) g → next.forM (Graph.splitNode ·.id) g = .ok u repeated →
      Allots built [] repeated by
    have horderly := orderly_of_topologicalOrder hw hlinked
      (fun node hn => (nodes_of_build hbuild node hn).1) horder
    refine fun node hn => hall order [] built rfl rfl horderly (fun node hn hno => ?_) hturns node hn
      List.not_mem_nil
    exact absurd ((hids node.id).mpr (List.mem_map_of_mem hn)) hno
  intro next
  induction next with
  | nil =>
    intro before g _ _ _ hg hnext
    obtain ⟨-, rfl⟩ := pure_eq_ok.mp hnext
    exact hg
  | cons job next ih =>
    intro before g heq hbefore ho hg hnext
    obtain ⟨_, t, hstep, hnext⟩ := bind_eq_ok.mp hnext
    have hnew : job.id ∉ before.map (·.id) := by
      have hnodup := hordered.nodup
      rw [heq, List.map_append, List.map_cons] at hnodup
      exact fun hmem => (List.nodup_append.mp hnodup).2.2 _ hmem job.id (by simp) rfl
    have hafter := allots_splitNode hg (underway_of_build hbuild horder heq hbefore) hw ho
      (hsubset (heq ▸ by simp)) hnew
      (fun plan t hf => planned_of_drivers (heq ▸ horder) hnew hbefore hf) hstep
    refine ih (before ++ [job]) t (heq.trans (List.append_cons ..)) ?_ (orderly_splitNode ho hstep)
      hafter hnext
    exact forM_append_eq_ok.mpr ⟨g, hbefore, bind_eq_ok.mpr ⟨(), t, hstep, rfl⟩⟩

/-- Every value of a parameter that takes a single one and that no edge leads to is read, and dealt
out if it is several. -/
theorem remembers_of_listDrivers {node : Node} {linked : List String} {parameters : List Parameter}
    {found : List (String × List Value)} {g g' : Graph} (hnode : g.node? node.id = some node)
    (h : listDrivers node.id linked parameters g = .ok found g') {parameter : Parameter}
    (hp : parameter ∈ parameters) (hone : parameter.isList = false) (hno : parameter.name ∉ linked) :
    (∀ raw, g.scope.forest.held? node.name parameter.name ≠ some (some raw)) ∨
      ∃ v, Remembers g'.scope node.name parameter.name v ∧
        (v.isSeveral = true → parameter.name ∈ found.map (·.1)) := by
  induction parameters generalizing found g with
  | nil => cases hp
  | cons first parameters ih =>
    rw [listDrivers] at h
    split at h
    next hskip =>
      rcases List.mem_cons.mp hp with rfl | hp
      · simp [hone, hno] at hskip
      · exact ih hnode h hp
    next =>
      obtain ⟨current, t, hcurrent, h⟩ := bind_eq_ok.mp h
      obtain ⟨others, t', hothers, h⟩ := bind_eq_ok.mp h
      have hsame := (moves_propertyValue node.id first.name).of_ok hcurrent
      have hlast : t' = g' ∧ (∀ key ∈ others.map (·.1), key ∈ found.map (·.1)) ∧
          ∀ v, current = some v → v.isSeveral = true → first.name ∈ found.map (·.1) := by
        split at h
        next item items =>
          obtain ⟨rfl, rfl⟩ := pure_eq_ok.mp h
          exact ⟨rfl, fun key hkey => List.mem_cons_of_mem _ hkey, fun _ _ _ => List.mem_cons_self⟩
        next hfew =>
          obtain ⟨rfl, rfl⟩ := pure_eq_ok.mp h
          refine ⟨rfl, fun key hkey => hkey, fun v hv hseveral => ?_⟩
          obtain ⟨item, items, rfl⟩ := exists_of_isSeveral hseveral
          exact absurd hv (hfew item items)
      obtain ⟨rfl, hrest, hfirst⟩ := hlast
      rcases List.mem_cons.mp hp with rfl | hp
      · rcases propertyValue_eq_ok hnode hcurrent with ⟨-, hno⟩ | ⟨v, hv, hremembers⟩
        · exact .inl hno
        · refine .inr ⟨v, ?_, hfirst v hv⟩
          exact hremembers.of_sameButMemo
            ((moves_listDrivers node.id linked parameters).of_ok hothers)
      · have hnode' : t.node? node.id = some node := by
          obtain ⟨memo, -, rfl⟩ := hsame
          exact hnode
        have hforest : t.scope.forest = g.scope.forest := by
          obtain ⟨memo, -, rfl⟩ := hsame
          rfl
        rw [← hforest]
        rcases ih hnode' hothers hp with hno | ⟨v, hremembers, hseveral⟩
        · exact .inl hno
        · exact .inr ⟨v, hremembers, fun hv => hrest _ (hseveral hv)⟩

/-- A parameter that no edge leads to is not linked. -/
theorem not_mem_linkedProperties {g : Graph} {id : NodeId} {key : String}
    (h : Unfed g.edges id key) : key ∉ g.linkedProperties id := by
  intro hmem
  obtain ⟨edge, he, hlink⟩ := List.mem_filterMap.mp hmem
  split at hlink
  next htarget =>
    obtain ⟨link, hk, rfl⟩ := Option.map_eq_some_iff.mp hlink
    cases hkind : edge.kind with
    | after =>
      rw [hkind] at hk
      cases hk
    | data other =>
      rw [hkind] at hk
      exact h edge he htarget ⟨other, hkind, congrArg _ (Option.some.inj hk)⟩
  next => cases hlink

/-- When the turn of a node comes, what it has for a parameter that takes a single value and that no
edge leads to is remembered, and dealt out if it is several. -/
theorem remembers_of_planned {pipeline : Pipeline} {built asked : Graph} {job : Node} {plan : Drivers}
    (hbuild : build pipeline = .ok built) (hjob : job ∈ built.nodes)
    (h : planned job.id built = .ok plan asked) {p : Parameter} (hp : p ∈ job.spec.parameters)
    (hone : p.isList = false) (hunfed : Unfed built.edges job.id p.name)
    (hvalue : (job.configured? p.name).isSome) : ∃ v, Remembers asked.scope job.name p.name v ∧
      (v.isSeveral = true → p.name ∈ plan.lists.map (·.1)) := by
  obtain ⟨g, t, hm, hin, hless, hlists⟩ := planned_eq_ok hbuild hjob h
  refine (remembers_of_listDrivers (hm.node?_eq_some hin) hlists hp hone
    (not_mem_linkedProperties (hless p.name hunfed))).resolve_left fun hno => ?_
  obtain ⟨raw, hraw⟩ := Option.isSome_iff_exists.mp hvalue
  exact hno raw (by rw [hm.held job hin, hraw, Option.map_some])

end Graph

end Pipework
