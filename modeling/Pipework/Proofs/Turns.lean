import Pipework.Proofs.Ordering
import Pipework.Proofs.Settings

/-!
# The turns of nodes

Nodes are repeated one after another. When the turn of a node comes, the node is still as it was
built, and what it is repeated for says which values of their own its repetitions get. A
repetition gets no other value of its own, save along edges to it and for paths that it writes to.
-/

namespace Pipework

open Step

/-- The key is an output that is a single path, and each repetition has to write to its own. -/
def Job.IsPath (job : Job) (key : String) : Prop :=
  ∃ p ∈ job.parameters, p.name = key ∧ p.isOutput ∧ p.isFile ∧ ¬ p.isList

instance (job : Job) (key : String) : Decidable (job.IsPath key) :=
  inferInstanceAs (Decidable (∃ p ∈ job.parameters, _))

namespace Graph

/-- The nodes differ at most in values of their own, and only where `W` allows it. -/
structure Spared (W : NodeId → String → Prop) (node node' : Node) : Prop where
  /-- All else is the same. -/
  outline : node'.outline = node.outline
  /-- Where nothing is allowed to differ, nothing does. -/
  same : (∀ key, ¬ W node.id key) → node' = node
  /-- Where a value is not allowed to differ, it does not. -/
  values : ∀ key, ¬ W node.id key → node'.overrides.get? key = node.overrides.get? key

/-- The nodes are the same, save for values of their own where `W` allows it. -/
def Spares (W : NodeId → String → Prop) (g g' : Graph) : Prop :=
  List.Forall₂ (Spared W) g.nodes g'.nodes

variable {W : NodeId → String → Prop}

theorem spared_self (node : Node) : Spared W node node := ⟨rfl, fun _ => rfl, fun _ _ => rfl⟩

/-- What is spared twice is spared. -/
theorem Spared.trans {node node' node'' : Node} (h : Spared W node node')
    (h' : Spared W node' node'') : Spared W node node'' where
  outline := h'.outline.trans h.outline
  same hno := by rw [h'.same (id_of_outline h.outline ▸ hno), h.same hno]
  values key hno := by rw [h'.values key (id_of_outline h.outline ▸ hno), h.values key hno]

/-- Where the nodes are the same all their values are spared. -/
theorem spares_of_nodes {g g' : Graph} (h : g'.nodes = g.nodes) : Spares W g g' := by
  rw [Spares, h]
  exact List.forall₂_same.mpr fun node _ => spared_self node

instance : Std.Refl (Spares W) := ⟨fun _ => spares_of_nodes rfl⟩

instance : IsTrans Graph (Spares W) where
  trans _ _ _ h h' := by
    rw [Spares] at h h' ⊢
    exact forall₂_comp h h' fun _ _ _ => Spared.trans

/-- Each node was there before, with other values at most where that is allowed. -/
theorem Spares.exists_node {g g' : Graph} (h : Spares W g g') {node' : Node}
    (hn : node' ∈ g'.nodes) : ∃ node ∈ g.nodes, Spared W node node' := exists_of_mem_right h hn

/-- Reading values spares them all. -/
theorem SameButMemo.spares {g g' : Graph} (h : SameButMemo g g') : Spares W g g' := by
  obtain ⟨memo, -, rfl⟩ := h
  exact spares_of_nodes rfl

/-- Finding out what a node is repeated for spares all values. -/
theorem Plans.spares {g g' : Graph} (h : Plans g g') : Spares W g g' := by
  obtain ⟨memo, edges, -, -, rfl⟩ := h
  exact spares_of_nodes rfl

/-- Giving a node a value spares all others. -/
theorem spares_setNodeValue {id : NodeId} {key : String} (h : W id key) (value : Value) :
    Moves (Spares W) (setNodeValue id key value) := by
  refine moves_setNodeValue_of (fun g => List.forall₂_map_right_iff.mpr ?_) fun g g' hsame => ?_
  · refine List.forall₂_same.mpr fun node _ => ⟨?_, fun hno => ?_, fun other hno => ?_⟩
    · split <;> rfl
    · exact if_neg fun heq : node.id = id => hno key (heq ▸ h)
    · split
      next heq =>
        have hne : other ≠ key := fun hk => hno (heq ▸ hk ▸ h)
        change (node.overrides.insert key value).get? other = _
        rw [Settings.get?_insert, if_neg hne]
      · rfl
  · obtain ⟨tree, rfl⟩ := hsame
    exact spares_of_nodes rfl

/-- A node that takes its one value spares all but the lists that it takes it from. -/
theorem spares_collapse (id : NodeId) (drivers : Drivers)
    (h : ∀ key ∈ drivers.lists.map (·.1), W id key) : Moves (Spares W) (collapse id drivers) :=
  moves_collapse_of (fun _ _ h => h.spares) fun _ hentry item _ =>
    spares_setNodeValue (h _ (List.mem_map_of_mem hentry)) item

/-- The elements at a place, laid over settings. -/
theorem get?_of_layOver {α : Type} {f : α → Value} {place : Nat}
    {entries : List (String × List α)} {settings final : Settings} {g g' : Graph}
    (h : (entries.foldlM (fun settings entry => do
      let item ← ofOption entry.2[place]?
      return settings.insert entry.1 (f item)) settings : GraphM Settings) g = .ok final g')
    (key : String) : (key ∉ entries.map (·.1) ∧ final.get? key = settings.get? key) ∨
      ∃ items item, (key, items) ∈ entries ∧ items[place]? = some item ∧
        final.get? key = some (f item) := by
  induction entries generalizing settings g with
  | nil =>
    obtain ⟨rfl, -⟩ := pure_eq_ok.mp h
    exact .inl ⟨by simp, rfl⟩
  | cons entry entries ih =>
    rw [List.foldlM_cons] at h
    obtain ⟨next, t, hstep, h⟩ := bind_eq_ok.mp h
    obtain ⟨item, _, hat, hstep⟩ := bind_eq_ok.mp hstep
    obtain ⟨hitem, rfl⟩ := ofOption_eq_ok.mp hat
    obtain ⟨rfl, rfl⟩ := pure_eq_ok.mp hstep
    rcases ih h with ⟨hno, hsame⟩ | ⟨items, other, hmem, hplace, hfinal⟩
    · rw [Settings.get?_insert] at hsame
      by_cases hkey : key = entry.1
      · rw [if_pos hkey] at hsame
        exact .inr ⟨entry.2, item, by simp [hkey], hitem, hsame⟩
      · rw [if_neg hkey] at hsame
        exact .inl ⟨by simpa [hkey] using hno, hsame⟩
    · exact .inr ⟨items, other, List.mem_cons_of_mem _ hmem, hplace, hfinal⟩

/-- The node is repeated for a list that it has under the key, and this is the element at that
place. -/
def Drivers.Deals (drivers : Drivers) (place : Nat) (key : String) (item : Value) : Prop :=
  ∃ items, (key, items) ∈ drivers.lists ∧ items[place]? = some item

/-- Under a key that no list comes in for along an edge, a repetition gets its element of the list
that the parameter has, or what the node has. -/
theorem shareOut_spec {node : Node} {drivers : Drivers} {place : Nat} {settings : Settings}
    {g g' : Graph} (h : shareOut node drivers place g = .ok settings g') {key : String}
    (hkey : key ∉ drivers.shares.map (·.1)) :
    (key ∉ drivers.lists.map (·.1) ∧ settings.get? key = node.overrides.get? key) ∨
      ∃ item, drivers.Deals place key item ∧ settings.get? key = some item := by
  obtain ⟨withLists, t, hlists, hshares⟩ := bind_eq_ok.mp h
  have hsame : settings.get? key = withLists.get? key := by
    rcases get?_of_layOver (f := Share.value) hshares key with ⟨-, hsame⟩ | ⟨items, _, hmem, -⟩
    · exact hsame
    · exact absurd (List.mem_map_of_mem hmem) hkey
  rw [hsame]
  rcases get?_of_layOver (f := id) hlists key with hno | ⟨items, item, hmem, hitem, hvalue⟩
  · exact .inl hno
  · exact .inr ⟨item, ⟨items, hmem, hitem⟩, hvalue⟩

/-- No edge to the node hands on a value to this key. -/
def Unfed (edges : List Edge) (id : NodeId) (key : String) : Prop :=
  ∀ edge ∈ edges, edge.target = id → ¬ edge.Fills key

instance (edges : List Edge) (id : NodeId) (key : String) : Decidable (Unfed edges id key) :=
  inferInstanceAs (Decidable (∀ edge ∈ edges, _))

/-- What a repetition at a place has of its own under a key: its element of the list that the node
is repeated for, or what the node has. -/
def Shared (node : Node) (plan : Drivers) (place : Nat) (key : String) (replica : Node) : Prop :=
  (key ∉ plan.lists.map (·.1) ∧ replica.overrides.get? key = node.overrides.get? key) ∨
    ∃ item, plan.Deals place key item ∧ replica.overrides.get? key = some item

/-- The nodes after a node was repeated: the others, and the repetitions. -/
theorem nodes_of_replicate {node : Node} {drivers : Drivers} {count : Nat} {u : Unit}
    {g g' : Graph} (hbelow : ∀ old ∈ g.nodes, old.id < g.nextId)
    (h : replicate node drivers count g = .ok u g') : ∀ other ∈ g'.nodes,
      (other ∈ g.nodes ∧ other.id ≠ node.id) ∨ ∃ serial place, other.spec = node.spec ∧
        other.name = node.name ++ "_" ++ replicaSuffix serial place ∧ g.nextId ≤ other.id ∧
        ∀ key, ¬ node.spec.IsPath key → key ∉ drivers.shares.map (·.1) →
          Shared node drivers place key other := by
  obtain ⟨serial, added, _, t₂, t₃, edges, -, ⟨hids, scope, rfl⟩, hadded, houtputs, hedges, rfl⟩ :=
    replicate_eq_ok h
  obtain ⟨memo, -, rfl⟩ := (moves_replicaEdges _ _ _ _ _ _ _ _).of_ok hedges
  let W : NodeId → String → Prop := fun id key => id ∈ added.map (·.id) ∧ node.spec.IsPath key
  have hspares : Spares W _ t₂ := (moves_separateOutputs (fun _ _ h => h.spares) drivers serial
    fun id hid p hp houtput hfile hlist path =>
      spares_setNodeValue ⟨hid, p, hp, rfl, houtput, hfile, hlist⟩ (.str path)).of_ok houtputs
  intro other ho
  obtain ⟨ho, hne⟩ := List.mem_filter.mp ho
  obtain ⟨middle, hmiddle, houtline, hsame, hkeys⟩ := hspares.exists_node ho
  rcases List.mem_append.mp hmiddle with hold | hnew
  · have hfree : ∀ key, ¬ W middle.id key := by
      rintro key ⟨hmem, -⟩
      rw [hids] at hmem
      exact absurd (List.mem_range'_1.mp hmem).1 (Nat.not_le.mpr (hbelow middle hold))
    rw [hsame hfree] at hne ⊢
    exact .inl ⟨hold, by simpa using hne⟩
  · obtain ⟨place, -, overrides, t, t', hshare, hreplica⟩ := exists_of_mem_right hadded hnew
    have hfresh : g.nextId ≤ middle.id := by
      have hmem : middle.id ∈ added.map (·.id) := List.mem_map_of_mem hnew
      rw [hids] at hmem
      exact (List.mem_range'_1.mp hmem).1
    refine .inr ⟨serial, place, ?_, ?_, id_of_outline houtline ▸ hfresh, fun key hpath hkey => ?_⟩
    · rw [spec_of_outline houtline, hreplica]
      rfl
    · rw [name_of_outline houtline, hreplica]
      rfl
    · have hown : other.overrides.get? key = overrides.get? key := by
        rw [hkeys key fun hand => hpath hand.2, hreplica]
        rfl
      rw [Shared, hown]
      exact shareOut_spec hshare hkey

/-- What a node is repeated for when its turn comes. -/
def planned (id : NodeId) : GraphM Drivers := do
  let order ← ofExcept (← get).topologicalOrder
  (order.takeWhile (·.id != id)).forM (splitNode ·.id)
  drivers id

/-- The node is a repetition, and has the values of its own that it was given for that. -/
def Repeated (built : Graph) (replica : Node) : Prop :=
  ∃ job ∈ built.nodes, ∃ plan t serial place, planned job.id built = .ok plan t ∧
    replica.spec = job.spec ∧ replica.name = job.name ++ "_" ++ replicaSuffix serial place ∧
    built.nextId ≤ replica.id ∧
    ∀ key, ¬ job.spec.IsPath key → Unfed built.edges job.id key →
      Shared job plan place key replica

/-- A graph while its nodes are being repeated, when the turn of some has come already. -/
structure Underway (built : Graph) (done : List NodeId) (graph : Graph) : Prop where
  /-- Handles are given out one after another. -/
  nextId : built.nextId ≤ graph.nextId
  /-- A node whose turn has not come is as it was built. -/
  waiting : ∀ node ∈ graph.nodes, node.id < built.nextId → node.id ∉ done → node ∈ built.nodes
  /-- Repetitions have their values. -/
  repeated : ∀ node ∈ graph.nodes, node.isReplica → Repeated built node
  /-- No node that was built receives values for more keys. -/
  unfed : ∀ id < built.nextId, ∀ key, Unfed built.edges id key → Unfed graph.edges id key

/-- The turn of a node that is not repeated leads on. -/
theorem Underway.of_spares {built g g' : Graph} {done : List NodeId} {id : NodeId}
    (h : Underway built done g) (hb : ∀ node ∈ built.nodes, ¬ node.isReplica)
    (hid : id < built.nextId) (hdone : id ∉ done) (hnext : g'.nextId = g.nextId)
    (hedges : EdgesKept g.edges g'.edges) (hspares : Spares (fun other _ => other = id) g g') :
    Underway built (done ++ [id]) g' where
  nextId := hnext ▸ h.nextId
  waiting node' hn' hlt hno := by
    obtain ⟨node, hn, houtline, hsame, -⟩ := hspares.exists_node hn'
    rw [List.mem_append, List.mem_singleton, not_or, id_of_outline houtline] at hno
    rw [hsame fun _ => hno.2] at hlt ⊢
    exact h.waiting node hn hlt hno.1
  repeated node' hn' hreplica := by
    obtain ⟨node, hn, houtline, hsame, -⟩ := hspares.exists_node hn'
    rw [isReplica_of_outline houtline] at hreplica
    by_cases heq : node.id = id
    · exact absurd hreplica (hb node (h.waiting node hn (heq ▸ hid) (heq ▸ hdone)))
    · rw [hsame fun _ => heq]
      exact h.repeated node hn hreplica
  unfed other hlt key hunfed edge he ht hk := by
    obtain ⟨old, hold, hs, ht', hkeys⟩ := hedges.exists_edge he
    exact h.unfed other hlt key hunfed old hold (ht'.symm.trans ht) (hkeys key hk)

/-- The turn of a node that is repeated leads on. -/
theorem Underway.of_replicate {jobs : List Job} {built g t g' : Graph} {done : List NodeId}
    {job : Node} {plan : Drivers} {count : Nat} {u : Unit} (h : Underway built done g)
    (ho : g.Orderly jobs) (hlt : job.id < built.nextId)
    (hjob : job ∈ built.nodes) (hin : job ∈ g.nodes)
    (hplan : ∃ t', planned job.id built = .ok plan t') (hfound : drivers job.id g = .ok plan t)
    (hstep : replicate job plan count t = .ok u g') :
    Underway built (done ++ [job.id]) g' := by
  have hplans : Plans g t := (moves_drivers job.id).of_ok hfound
  have htraced := traced_of_drivers hfound
  have hnodes : t.nodes = g.nodes := by
    obtain ⟨memo, edges, -, -, rfl⟩ := hplans
    rfl
  have hnext : t.nextId = g.nextId := hplans.retains.nextId
  have hbelow : ∀ old ∈ t.nodes, old.id < t.nextId := fun old hold => by
    rw [hnext]
    exact ho.wellFormed.below _ (List.mem_map_of_mem (hnodes ▸ hold))
  have hall := nodes_of_replicate hbelow hstep
  obtain ⟨replicas, hrepeats⟩ := repeats_of_replicate ho.wellFormed ho.loopless hin htraced
    hplans.retains hstep
  refine ⟨h.nextId.trans hrepeats.nextId, fun other hother hold hno => ?_,
    fun other hother hreplica => ?_, ?_⟩
  · rw [List.mem_append, List.mem_singleton, not_or] at hno
    rcases hall other hother with ⟨hmem, -⟩ | ⟨serial, place, -, -, hfresh, -⟩
    · exact h.waiting other (hnodes ▸ hmem) hold hno.1
    · exact absurd (hold.trans_le h.nextId) (Nat.not_lt.mpr (hnext ▸ hfresh))
  · rcases hall other hother with ⟨hmem, -⟩ | ⟨serial, place, hspec, hname, hfresh, hshared⟩
    · exact h.repeated other (hnodes ▸ hmem) hreplica
    · obtain ⟨t', hplanned⟩ := hplan
      refine ⟨job, hjob, plan, t', serial, place, hplanned, hspec, hname,
        h.nextId.trans (hnext ▸ hfresh), fun key hpath hunfed => hshared key hpath fun hmem => ?_⟩
      obtain ⟨entry, hentry, rfl⟩ := List.mem_map.mp hmem
      obtain ⟨edge, he, ht, hk⟩ := htraced.exists_edge hentry
      exact h.unfed job.id hlt entry.1 hunfed edge he ht hk
  · intro id hid key hunfed edge he ht hk
    have hother : edge.target ∉ replicas := fun hmem => by
      have hfresh := h.nextId.trans (hrepeats.fresh _ hmem)
      exact absurd (ht ▸ hfresh) (Nat.not_le.mpr hid)
    obtain ⟨old, hold, ht', hk'⟩ := hrepeats.fills edge he hother key hk
    exact h.unfed id hid key hunfed old hold (ht'.trans ht) hk'

/-- The turn of a node leads on, whether it is repeated or not. -/
theorem Underway.splitNode {jobs : List Job} {built g g' : Graph} {done : List NodeId} {job : Node}
    {u : Unit} (h : Underway built done g) (ho : g.Orderly jobs) (hw : built.WellFormed)
    (hb : ∀ node ∈ built.nodes, ¬ node.isReplica) (hjob : job ∈ built.nodes) (hdone : job.id ∉ done)
    (hplan : ∀ plan t, drivers job.id g = .ok plan t → ∃ t', planned job.id built = .ok plan t')
    (hstep : splitNode job.id g = .ok u g') : Underway built (done ++ [job.id]) g' := by
  have hlt : job.id < built.nextId := hw.below _ (List.mem_map_of_mem hjob)
  cases turned_of_splitNode hstep with
  | absent _ =>
    exact h.of_spares hb hlt hdone rfl (refl_of EdgesKept g.edges) (spares_of_nodes rfl)
  | idle _ hf _ =>
    have hplans : Plans g g' := (moves_drivers _).of_ok hf
    exact h.of_spares hb hlt hdone hplans.retains.nextId hplans.retains.edges hplans.spares
  | collapsed _ hf _ hc =>
    have hplans := (moves_drivers _).of_ok hf
    have hretains := trans_of Retains hplans.retains ((moves_collapse _ _).of_ok hc)
    have hspares : Spares (fun other _ => other = job.id) g g' :=
      trans_of (Spares _) hplans.spares ((spares_collapse _ _ fun _ _ => rfl).of_ok hc)
    exact h.of_spares hb hlt hdone hretains.nextId hretains.edges hspares
  | @replaced node plan t _ count hn hf _ _ hr =>
    obtain ⟨hin, hid⟩ := id_of_node? hn
    obtain rfl : node = job := List.inj_on_of_nodup_map hw.nodup
      (h.waiting node hin (hid ▸ hlt) (hid ▸ hdone)) hjob hid
    exact h.of_replicate ho hlt hjob hin (hplan plan t hf) hf hr

/-- Up to a node that none before has the handle of come those before it. -/
theorem takeWhile_of_new {before behind : List Node} {job : Node}
    (hnew : job.id ∉ before.map (·.id)) :
    (before ++ job :: behind).takeWhile (·.id != job.id) = before := by
  rw [List.takeWhile_append_of_pos fun node hn => ?_, List.takeWhile_cons_of_neg (by simp),
    List.append_nil]
  simp only [bne_iff_ne]
  exact fun heq => hnew (heq ▸ List.mem_map_of_mem hn)

/-- What a node is repeated for when its turn comes is what it is repeated for after all before it
have had theirs. -/
theorem planned_of_drivers {built g t : Graph} {before behind : List Node} {job : Node}
    {plan : Drivers} (horder : built.topologicalOrder = .ok (before ++ job :: behind))
    (hnew : job.id ∉ before.map (·.id))
    (hbefore : before.forM (Graph.splitNode ·.id) built = .ok () g)
    (hfound : drivers job.id g = .ok plan t) : planned job.id built = .ok plan t := by
  refine bind_eq_ok.mpr ⟨built, built, get_eq_ok.mpr ⟨rfl, rfl⟩, ?_⟩
  refine bind_eq_ok.mpr ⟨_, built, ofExcept_eq_ok.mpr ⟨horder, rfl⟩, ?_⟩
  rw [takeWhile_of_new hnew]
  exact bind_eq_ok.mpr ⟨(), g, hbefore, hfound⟩

/-- Repeating the nodes that come next leaves the graph underway. -/
theorem underway_of_forM {jobs : List Job} {built g g' : Graph}
    {order before next behind : List Node} {u : Unit} (hw : built.WellFormed)
    (hb : ∀ node ∈ built.nodes, ¬ node.isReplica) (horder : built.topologicalOrder = .ok order)
    (heq : order = before ++ (next ++ behind)) (h : Underway built (before.map (·.id)) g)
    (ho : g.Orderly jobs) (hbefore : before.forM (Graph.splitNode ·.id) built = .ok () g)
    (hnext : next.forM (Graph.splitNode ·.id) g = .ok u g') :
    Underway built ((before ++ next).map (·.id)) g' := by
  obtain ⟨hordered, -, hsubset⟩ := ordered_of_topologicalOrder hw.closed horder
  induction next generalizing before g with
  | nil =>
    obtain ⟨-, rfl⟩ := pure_eq_ok.mp hnext
    rwa [List.append_nil]
  | cons job next ih =>
    obtain ⟨_, t, hstep, hnext⟩ := bind_eq_ok.mp hnext
    rw [List.cons_append] at heq
    have hjob : job ∈ built.nodes := hsubset (heq ▸ by simp)
    have hnew : job.id ∉ before.map (·.id) := by
      have hnodup := hordered.nodup
      rw [heq, List.map_append, List.map_cons] at hnodup
      exact fun hmem => (List.nodup_append.mp hnodup).2.2 _ hmem job.id (by simp) rfl
    have hdone := h.splitNode ho hw hb hjob hnew
      (fun plan t hfound => ⟨t, planned_of_drivers (heq ▸ horder) hnew hbefore hfound⟩) hstep
    rw [List.append_cons]
    refine ih ?_ ?_ (orderly_splitNode ho hstep) ?_ hnext
    · rw [heq, List.append_cons]
    · rwa [List.map_append]
    · exact forM_append_eq_ok.mpr ⟨g, hbefore, bind_eq_ok.mpr ⟨(), t, hstep, rfl⟩⟩

/-- The graph of a pipeline whose nodes were repeated is as it should be. -/
theorem orderly_of_split {pipeline : Pipeline} {built repeated : Graph} {u : Unit}
    (hbuild : build pipeline = .ok built) (h : split built = .ok u repeated) :
    repeated.Orderly pipeline.jobs := by
  obtain ⟨-, hw, hlinked, -⟩ := build_spec hbuild
  exact orderly_split hw hlinked (fun node hn => (nodes_of_build hbuild node hn).1) h

/-- While the nodes of a pipeline are being repeated in their order, the graph is underway. -/
theorem underway_of_build {pipeline : Pipeline} {built g : Graph} {order next behind : List Node}
    {u : Unit} (hbuild : build pipeline = .ok built) (horder : built.topologicalOrder = .ok order)
    (heq : order = next ++ behind) (h : next.forM (Graph.splitNode ·.id) built = .ok u g) :
    Underway built (next.map (·.id)) g := by
  obtain ⟨hall, hw, hlinked, -⟩ := build_spec hbuild
  have hnodes := nodes_of_build hbuild
  have hstart : Underway built (([] : List Node).map (·.id)) built :=
    ⟨le_rfl, fun node hn _ _ => hn, fun node hn hr => absurd hr (hnodes node hn).2.2.2,
      fun _ _ _ => id⟩
  have horderly := orderly_of_topologicalOrder hw hlinked (fun node hn => (hnodes node hn).1) horder
  exact underway_of_forM hw (fun node hn => (hnodes node hn).2.2.2) horder
    (heq.trans (List.nil_append _).symm) hstart horderly rfl h

/-- All repetitions in the graph of a pipeline whose nodes were repeated have their values. -/
theorem repeated_of_split {pipeline : Pipeline} {built g : Graph} {u : Unit}
    (hbuild : build pipeline = .ok built) (h : split built = .ok u g) :
    ∀ node ∈ g.nodes, node.isReplica → Repeated built node := by
  obtain ⟨order, horder, h⟩ := split_eq_ok h
  exact (underway_of_build hbuild horder (List.append_nil order).symm h).repeated

/-- Handing on the value of an edge gives its target a value under a key that the edge fills. -/
theorem applyEdge_eq_ok {place : Nat} {u : Unit} {g g' : Graph}
    (h : applyEdge place g = .ok u g') : SameButMemo g g' ∨ ∃ edge ∈ g.edges, ∃ key value t,
      edge.Fills key ∧ SameButMemo g t ∧ setNodeValue edge.target key value t = .ok u g' := by
  obtain ⟨edge, _, hat, h⟩ := bind_eq_ok.mp h
  obtain ⟨hedge, rfl⟩ := edgeAt_eq_ok.mp hat
  cases hkind : edge.kind with
  | after =>
    simp only [hkind] at h
    obtain ⟨-, rfl⟩ := pure_eq_ok.mp h
    exact .inl (refl_of SameButMemo g)
  | data link =>
    simp only [hkind] at h
    obtain ⟨current, t, hcurrent, h⟩ := bind_eq_ok.mp h
    obtain ⟨source, _, hat, h⟩ := bind_eq_ok.mp h
    obtain ⟨-, rfl⟩ := nodeAt_eq_ok.mp hat
    obtain ⟨target, _, hat, h⟩ := bind_eq_ok.mp h
    obtain ⟨-, rfl⟩ := nodeAt_eq_ok.mp hat
    obtain ⟨merged, _, hat, h⟩ := bind_eq_ok.mp h
    obtain ⟨-, rfl⟩ := ofExcept_eq_ok.mp hat
    have hsame : SameButMemo g t := (moves_propertyValue _ _).of_ok hcurrent
    cases merged with
    | none =>
      obtain ⟨-, rfl⟩ := pure_eq_ok.mp h
      exact .inl hsame
    | some value =>
      exact .inr ⟨edge, List.mem_of_getElem? hedge, link.targetProperty, value, t,
        ⟨link, hkind, rfl⟩, hsame, h⟩

/-- Handing on values gives nodes values only where edges lead to. -/
theorem spares_configure {u : Unit} {g g' : Graph} (h : configure g = .ok u g') :
    Spares (fun id key => ¬ Unfed g.edges id key) g g' := by
  obtain ⟨_, _, hget, h⟩ := bind_eq_ok.mp h
  obtain ⟨rfl, rfl⟩ := get_eq_ok.mp hget
  obtain ⟨order, _, hat, h⟩ := bind_eq_ok.mp h
  obtain ⟨-, rfl⟩ := ofExcept_eq_ok.mp hat
  refine (forM_keeps (P := fun t => t.edges = g.edges ∧
    Spares (fun id key => ¬ Unfed g.edges id key) g t) ?_ ⟨rfl, refl_of (Spares _) g⟩ h).2
  rintro place - t v t' ⟨hedges, hspares⟩ hstep
  rcases applyEdge_eq_ok hstep with hsame | ⟨edge, he, key, value, t₁, hkey, hsame, hset⟩
  · exact ⟨hsame.edges.trans hedges, trans_of (Spares _) hspares hsame.spares⟩
  · refine ⟨((moves_setNodeValue _ _ _).of_ok hset).edges.trans (hsame.edges.trans hedges), ?_⟩
    refine trans_of (Spares _) hspares (trans_of (Spares _) hsame.spares ?_)
    refine (spares_setNodeValue (fun hunfed => ?_) value).of_ok hset
    exact hunfed edge (hedges ▸ he) rfl hkey

/-- Replacing a node by those of its pipeline leaves all others as they are. -/
theorem mem_of_expandNode {prepare : GraphM Unit} {id : NodeId} {u : Unit} {g g' : Graph}
    (h : expandNode prepare id g = .ok u g') :
    g.nextId ≤ g'.nextId ∧ (∀ node ∈ g'.nodes, node.id < g.nextId → node ∈ g.nodes) ∧
      ∀ node ∈ g.nodes, node.id ≠ id → node ∈ g'.nodes := by
  cases expands_of_expandNode h with
  | plain _ _ => exact ⟨le_rfl, fun _ hn _ => hn, fun _ hn _ => hn⟩
  | replaced _ _ hsettings _ _ hadopt hbetween =>
    obtain ⟨memo, -, rfl⟩ := (moves_configuration _).of_ok hsettings
    obtain ⟨added, ⟨hids, scope, rfl⟩, -, -⟩ := extends_of_adoptNodes hadopt
    obtain ⟨memo', -, rfl⟩ := (moves_adoptEdges _ _).of_ok hbetween
    refine ⟨Nat.le_add_right _ _, fun other ho hlt => ?_, fun other ho hne => ?_⟩
    · rcases List.mem_append.mp (List.mem_of_mem_filter ho) with hold | hnew
      · exact hold
      · have hmem : other.id ∈ added.map (·.id) := List.mem_map_of_mem hnew
        rw [hids] at hmem
        exact absurd (List.mem_range'_1.mp hmem).1 (Nat.not_le.mpr hlt)
    · exact List.mem_filter.mpr ⟨List.mem_append_left _ ho, by simpa using hne⟩

/-- Nodes with handles that had been given out are left as they are when pipelines inside jobs are put in
their place. -/
theorem mem_of_expandWithin {options : CompileOptions} {prepare : GraphM Unit} {u : Unit}
    {g g' : Graph} (h : expandWithin options prepare g = .ok u g') :
    ∀ node ∈ g'.nodes, node.id < g.nextId → node ∈ g.nodes := by
  have hcase := expandWithin_eq_ok h
  split at hcase
  · refine (forM_keeps (P := fun t => g.nextId ≤ t.nextId ∧
      ∀ node ∈ t.nodes, node.id < g.nextId → node ∈ g.nodes) ?_
      ⟨le_rfl, fun _ hn _ => hn⟩ hcase).2
    rintro id - t v t' ⟨hnext, hnodes⟩ hstep
    obtain ⟨hnext', hnodes', -⟩ := mem_of_expandNode hstep
    refine ⟨hnext.trans hnext', fun node hn hlt => ?_⟩
    exact hnodes node (hnodes' node hn (hlt.trans_le hnext)) hlt
  · exact fun node hn _ => hcase ▸ hn

/-- A node without a pipeline of its own stays when others are replaced, and if none are, each does. -/
theorem stays_of_expandWithin {options : CompileOptions} {prepare : GraphM Unit} {u : Unit}
    {g g' : Graph} (h : expandWithin options prepare g = .ok u g')
    (hids : (g.nodes.map (·.id)).Nodup) {node : Node} (hn : node ∈ g.nodes)
    (hplain : options.expandNested → node.spec.nested? = none) : node ∈ g'.nodes := by
  have hcase := expandWithin_eq_ok h
  split at hcase
  next hon =>
    refine forM_keeps (P := fun t => node ∈ t.nodes) (fun id hid t v t' ht hstep => ?_) hn hcase
    refine (mem_of_expandNode hstep).2.2 node ht fun heq => ?_
    obtain ⟨other, hother, hsame⟩ := List.mem_map.mp hid
    obtain ⟨hin, hnested⟩ := List.mem_filter.mp hother
    obtain rfl := List.inj_on_of_nodup_map hids hin hn (hsame.trans heq.symm)
    simp [hplain hon] at hnested
  next => exact hcase ▸ hn

end Graph

end Pipework
