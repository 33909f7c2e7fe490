import Pipework.Proofs.Bystander
import Pipework.Proofs.KeptMeaning

/-!
# Jobs that are not repeated

If no job is repeated, each of them at most takes the one value that it is given. That touches no
value that is kept, as a kept value is no list where a single one is taken, and it touches only the
edges from lists to parameters that take a single value.
-/

namespace Pipework

open Step Resolve

/-- The edge does not bring a list to a parameter that takes a single value. -/
def Edge.Firm (edge : Edge) : Prop := ∀ link, edge.kind = .data link → link.cardinality ≠ .manyToOne

/-- Edges that do not bring a list to a parameter that takes a single value stay as they are. -/
def FirmKept (edges edges' : List Edge) : Prop :=
  ∀ (place : Nat) edge, edges[place]? = some edge → edge.Firm → edges'[place]? = some edge

instance : Std.Refl FirmKept := ⟨fun _ _ _ he _ => he⟩

instance : IsTrans (List Edge) FirmKept :=
  ⟨fun _ _ _ h h' place edge he hfirm => h' place edge (h place edge he hfirm) hfirm⟩

namespace Graph

/-- The shares come from edges that bring lists to a parameter that takes a single value. -/
def FromLoose (edges : List Edge) (plan : Drivers) : Prop :=
  ∀ entry ∈ plan.shares, ∀ share ∈ entry.2, ∃ edge, edges[share.edge]? = some edge ∧ ¬ edge.Firm

theorem firmKept_modify {edges edges' : List Edge} (h : FirmKept edges edges') {place : Nat}
    (hloose : ∃ edge, edges[place]? = some edge ∧ ¬ edge.Firm) (change : Edge → Edge) :
    FirmKept edges (edges'.modify place change) := by
  intro other edge he hfirm
  have hne : place ≠ other := by
    rintro rfl
    obtain ⟨loose, hat, hnot⟩ := hloose
    exact hnot (Option.some.inj (hat.symm.trans he) ▸ hfirm)
  rw [List.getElem?_modify, h other edge he hfirm]
  exact congrArg some (if_neg hne)

section Planning

variable {g t t' : Graph} {plan plan' : Drivers}

/-- Taking account of an edge touches it only if it is loose, and so are the edges of its shares. -/
theorem fromLoose_of_addDriver {place : Nat} (hr : Retains g t) (hf : FirmKept g.edges t.edges)
    (hfrom : FromLoose g.edges plan) (h : addDriver plan place t = .ok plan' t') :
    FromLoose g.edges plan' ∧ FirmKept g.edges t'.edges := by
  obtain ⟨edge, hedge, hnoted⟩ := noted_of_addDriver h
  have hloose : ∀ {link}, edge.kind = .data link → link.cardinality = .manyToOne →
      ∃ old, g.edges[place]? = some old ∧ ¬ old.Firm := by
    intro link hk hc
    obtain ⟨old, hold, -⟩ := hr.edges.before hedge
    refine ⟨old, hold, fun hfirm => ?_⟩
    obtain rfl := Option.some.inj (hedge.symm.trans (hf place old hold hfirm))
    exact hfirm link hk hc
  cases hnoted with
  | order _ | list _ _ | strand _ _ _ => exact ⟨hfrom, hf⟩
  | empty hk hc hv _ =>
    refine ⟨hfrom, firmKept_modify ?_ (hloose hk hc) _⟩
    rwa [((moves_propertyValue _ _).of_ok hv).edges]
  | shares hk hc hv _ =>
    refine ⟨fun entry hentry share hshare => ?_, by rwa [((moves_propertyValue _ _).of_ok hv).edges]⟩
    have hnew : ∀ property items, share ∈ sharesAt place edge.source property items →
        ∃ old, g.edges[share.edge]? = some old ∧ ¬ old.Firm := by
      intro property items hmem
      obtain ⟨item, -, rfl⟩ := List.mem_map.mp hmem
      exact hloose hk hc
    rcases mem_of_mem_addShares hentry hshare with ⟨-, hshare⟩ | ⟨old, hold, -, hshare⟩
    · exact hnew _ _ hshare
    · exact hfrom old hold share hshare

theorem fromLoose_of_drivers {id : NodeId} (h : drivers id g = .ok plan t) :
    FromLoose g.edges plan ∧ FirmKept g.edges t.edges := by
  obtain ⟨found, t₁, node, lists, hfold, -, hlists, rfl⟩ := drivers_eq_ok h
  have hnone : FromLoose g.edges {} := fun entry hentry => nomatch hentry
  have hfound : Retains g t₁ ∧ FromLoose g.edges found ∧ FirmKept g.edges t₁.edges := foldlM_keeps
    (P := fun found t => Retains g t ∧ FromLoose g.edges found ∧ FirmKept g.edges t.edges)
    (fun place _ found t found' t' ht hstep =>
      ⟨trans_of Retains ht.1 ((moves_addDriver found place).of_ok hstep).retains,
        fromLoose_of_addDriver ht.1 ht.2.2 ht.2.1 hstep⟩)
    ⟨refl_of Retains g, hnone, refl_of FirmKept g.edges⟩ hfold
  refine ⟨hfound.2.1, ?_⟩
  rw [((moves_listDrivers _ _ _).of_ok hlists).edges]
  exact hfound.2.2

/-- The lists that a node is repeated for are those of parameters that take a single value. -/
theorem single_of_listDrivers {id : NodeId} {linked : List String} {parameters : List Parameter}
    {found : List (String × List Value)} (h : listDrivers id linked parameters g = .ok found t) :
    ∀ entry ∈ found, ∃ p ∈ parameters, p.name = entry.1 ∧ p.isList = false := by
  induction parameters generalizing found g with
  | nil =>
    obtain ⟨rfl, -⟩ := pure_eq_ok.mp h
    exact nofun
  | cons parameter parameters ih =>
    have hmore : ∀ {found g}, listDrivers id linked parameters g = .ok found t → ∀ entry ∈ found,
        ∃ p ∈ parameter :: parameters, p.name = entry.1 ∧ p.isList = false := by
      intro found g h entry hentry
      obtain ⟨p, hp, hname⟩ := ih h entry hentry
      exact ⟨p, List.mem_cons_of_mem _ hp, hname⟩
    rw [listDrivers] at h
    split at h
    · exact hmore h
    next hasked =>
      obtain ⟨current, t₁, -, h⟩ := bind_eq_ok.mp h
      obtain ⟨others, t₂, hothers, h⟩ := bind_eq_ok.mp h
      have hone : parameter.isList = false := by
        rw [Bool.or_eq_true, not_or] at hasked
        exact eq_false_of_ne_true hasked.1
      split at h
      next item items =>
        obtain ⟨rfl, rfl⟩ := pure_eq_ok.mp h
        intro entry hentry
        rcases List.mem_cons.mp hentry with rfl | hentry
        · exact ⟨parameter, List.mem_cons_self, rfl, hone⟩
        · exact hmore hothers entry hentry
      next =>
        obtain ⟨rfl, rfl⟩ := pure_eq_ok.mp h
        exact hmore hothers

end Planning

/-- The graph has come from one as it is built while no job was repeated, and no kept value has been
touched. -/
structure Unmoved (built g : Graph) : Prop where
  /-- The graph mirrors its nodes. -/
  mirrored : g.Mirrored
  /-- It has the nodes that were built, and its edges go back to those that were. -/
  retains : Retains built g
  /-- Its scopes are those that were built. -/
  alike : built.scope.forest.Alike g.scope.forest
  /-- What is remembered is meant. -/
  truthful : g.Truthful
  /-- Edges stay, save for lists that meet a parameter that takes a single value. -/
  firm : FirmKept built.edges g.edges
  /-- Kept values stay. -/
  kept : ∀ id v, built.Kept id v → g.scope.forest.raw? id = built.scope.forest.raw? id

theorem Plans.forest {g g' : Graph} (h : Plans g g') : g'.scope.forest = g.scope.forest := by
  obtain ⟨memo, edges, -, -, rfl⟩ := h
  rfl

/-- A graph with the same scopes and nodes is unmoved as well. -/
theorem Unmoved.of_plans {built g t : Graph} (h : Unmoved built g) (hplans : Plans g t)
    (hfirm : FirmKept built.edges t.edges) : Unmoved built t where
  mirrored := (hplans.inStep h.mirrored).1
  retains := trans_of Retains h.retains hplans.retains
  alike := hplans.forest ▸ h.alike
  truthful := h.truthful.of_plans hplans
  firm := hfirm
  kept id v hk := hplans.forest ▸ h.kept id v hk

/-- A graph in which a value that is not kept has changed is unmoved. -/
theorem Unmoved.of_setNodeValue {built g g' : Graph} (h : Unmoved built g) {node : Node}
    (hn : node ∈ g.nodes) {key : String} {leaf : ScopeId}
    (hleaf : g.scope.forest.leaf? node.name key = some leaf)
    (hholds : (g.scope.forest.raw? leaf).isSome) (hfree : ∀ v, ¬ built.Kept leaf v) {value : Value}
    {u : Unit} (hset : setNodeValue node.id key value g = .ok u g') : Unmoved built g' := by
  have houtline : SameOutline g g' := (moves_setNodeValue _ _ _).of_ok hset
  obtain ⟨hmemo, kept, hforest⟩ := forest_of_setNodeValue h.mirrored hn hleaf hset
  refine ⟨((inStep_setNodeValue _ _ _).of_ok hset h.mirrored).1, ?_, ?_, truthful_of_memo hmemo, ?_, ?_⟩
  · exact trans_of Retains h.retains houtline.retains
  · rw [hforest]
    exact trans_of Forest.Alike h.alike (Forest.alike_setEntry hholds _)
  · rw [houtline.edges]
    exact h.firm
  · intro id v hk
    have hne : id ≠ leaf := fun heq => hfree v (heq ▸ hk)
    rw [hforest, Forest.raw?_setEntry, if_neg fun hand => hne hand.1]
    exact h.kept id v hk

section Turn

variable {built g : Graph} (hb : built.Mirrored)
  (hnames : built.Distinct)

include hb hnames

/-- A list where a single value is taken is not kept. -/
theorem Unmoved.not_kept_of_list (h : Unmoved built g) {node : Node} (hn : node ∈ g.nodes)
    {p : Parameter} (hp : p ∈ node.spec.parameters) (hone : p.isList = false) {items : List Value}
    (hlist : Remembers g.scope node.name p.name (.list items)) :
    ∃ leaf, g.scope.forest.leaf? node.name p.name = some leaf ∧
      (g.scope.forest.raw? leaf).isSome ∧ ∀ v, ¬ built.Kept leaf v := by
  obtain ⟨leaf, hleaf, hholds, hlookup⟩ := hlist
  refine ⟨leaf, hleaf, hholds, fun v hk => ?_⟩
  obtain ⟨old, hold, houtline⟩ := h.retains.exists_outline hn
  have hsingle : built.HoldsSingle leaf := by
    refine ⟨old, hold, p, ?_, hone, ?_⟩
    · rwa [spec_of_outline houtline]
    · rw [← h.alike.leaf?, name_of_outline houtline, hleaf]
  have hmeans := h.truthful leaf (.list items) hlookup
  have hscalar := hk.single hb hnames hsingle
  rw [← hk.unique h.alike h.kept hmeans] at hscalar
  cases hscalar

/-- A node that takes the one value it is given leaves the graph unmoved. -/
theorem Unmoved.collapse (h : Unmoved built g) {id : NodeId} {plan : Drivers} {t t' : Graph}
    {u : Unit} (hf : drivers id g = .ok plan t) (hc : collapse id plan t = .ok u t') :
    Unmoved built t' := by
  obtain ⟨hfrom, hfirm⟩ := fromLoose_of_drivers hf
  obtain ⟨found, t₁, node, lists, hfold, hnode, hlists, rfl⟩ := drivers_eq_ok hf
  obtain ⟨hin, rfl⟩ := id_of_node? hnode
  have hplans : Plans g t := (moves_drivers _).of_ok hf
  have ht : Unmoved built t := h.of_plans hplans (trans_of FirmKept h.firm hfirm)
  have hsame := (moves_listDrivers _ _ _).of_ok hlists
  have hnow : node ∈ t.nodes := by
    obtain ⟨memo, -, rfl⟩ := hsame
    exact hin
  have hremembers := listDrivers_spec hnode hlists
  have hsingles := single_of_listDrivers hlists
  obtain ⟨_, t₂, hshares, hsets⟩ := bind_eq_ok.mp hc
  -- Edges are narrowed only where they bring a list to a single value.
  have hnarrowed : t₂.scope = t.scope ∧ Retains t t₂ ∧ t₂.nodes = t.nodes ∧
      FirmKept g.edges t₂.edges := by
    refine forM_keeps (P := fun t₂ => t₂.scope = t.scope ∧ Retains t t₂ ∧ t₂.nodes = t.nodes ∧
      FirmKept g.edges t₂.edges) ?_ ⟨rfl, refl_of Retains t, rfl, hfirm⟩ hshares
    intro entry hentry a v b ha hentries
    refine forM_keeps (P := fun t₂ => t₂.scope = t.scope ∧ Retains t t₂ ∧ t₂.nodes = t.nodes ∧
      FirmKept g.edges t₂.edges) ?_ ha hentries
    rintro share hshare a v b ⟨hscope, hretains, hnodes, hkept⟩ hstep
    refine ⟨?_, trans_of Retains hretains ((moves_narrowEdge share).of_ok hstep).retains, ?_, ?_⟩
    all_goals obtain rfl := modify_eq_ok.mp hstep
    · exact hscope
    · exact hnodes
    · exact firmKept_modify hkept (hfrom entry hentry share hshare) _
  obtain ⟨hscope, hretains, hnodes, hkept⟩ := hnarrowed
  have hinStep : InStep t t₂ := inStep_of_same hnodes hretains.nextId (by rw [hscope])
    (by rw [hscope]; exact refl_of _ _)
  have hmiddle : Unmoved built t₂ :=
    ⟨(hinStep ht.mirrored).1, trans_of Retains ht.retains hretains, hscope ▸ ht.alike,
      by rw [Truthful, hscope]; exact ht.truthful, trans_of FirmKept h.firm hkept,
      fun id v hk => by rw [hscope]; exact ht.kept id v hk⟩
  refine forM_keeps (P := Unmoved built) (fun entry hentry a v b ha hstep => ?_) hmiddle hsets
  obtain ⟨item, _, hat, hset⟩ := bind_eq_ok.mp hstep
  obtain ⟨-, rfl⟩ := ofOption_eq_ok.mp hat
  obtain ⟨p, hp, hname, hone⟩ := hsingles entry hentry
  obtain ⟨leaf, hleaf, hholds, hfree⟩ := ht.not_kept_of_list hb hnames hnow hp hone
    (hname ▸ hremembers entry hentry)
  obtain ⟨old, hold, houtline⟩ := ht.retains.exists_outline hnow
  obtain ⟨now, hnow', houtline'⟩ : ∃ now ∈ a.nodes, now.outline = old.outline := by
    have hmem : old.outline ∈ a.nodes.map Node.outline :=
      ha.retains.nodes ▸ List.mem_map_of_mem hold
    exact List.mem_map.mp hmem
  have hboth : now.outline = node.outline := houtline'.trans houtline
  have hnowName : now.name = node.name := name_of_outline hboth
  refine ha.of_setNodeValue hnow' ?_ ?_ hfree (id_of_outline hboth ▸ hset)
  · rw [hnowName, ← hname, ha.alike.leaf?, ← ht.alike.leaf?, hleaf]
  · rw [ha.alike.holds, ← ht.alike.holds, hholds]

/-- The turn of a node that is not repeated leaves the graph unmoved. -/
theorem Unmoved.splitNode (h : Unmoved built g) {jobs : List Job} (ho : g.Orderly jobs)
    {id : NodeId} {u : Unit} {g' : Graph} (hstep : splitNode id g = .ok u g')
    (hstays : id ∈ g'.nodes.map (·.id)) : Unmoved built g' := by
  cases turned_of_splitNode hstep with
  | absent _ => exact h
  | idle _ hf _ =>
    exact h.of_plans ((moves_drivers id).of_ok hf)
      (trans_of FirmKept h.firm (fromLoose_of_drivers hf).2)
  | collapsed _ hf _ hc => exact h.collapse hb hnames hf hc
  | replaced hn hf _ _ hr =>
    obtain ⟨hin, rfl⟩ := id_of_node? hn
    have hlt := ho.wellFormed.below _ (List.mem_map_of_mem hin)
    obtain ⟨serial, added, parts, -, -, hreplicated⟩ := replicated_of_replicate hlt
      (traced_of_drivers hf) ((moves_drivers _).of_ok hf).retains hr
    rcases hreplicated.mem_ids.mp hstays with ⟨-, hself⟩ | hnew
    · exact absurd rfl hself
    · exact absurd (hreplicated.fresh hnew) (Nat.not_le.mpr hlt)

/-- The turns of nodes that are not repeated leave the graph unmoved. -/
theorem Unmoved.turns (h : Unmoved built g) {jobs : List Job} (ho : g.Orderly jobs)
    {nodes : List Node} {u : Unit} {g' : Graph} (hturns : nodes.forM (Graph.splitNode ·.id) g = .ok u g')
    (hnodes : ∀ node ∈ nodes, node.id < built.nextId ∧ node.id ∈ g'.nodes.map (·.id)) :
    Unmoved built g' := by
  induction nodes generalizing g with
  | nil =>
    obtain ⟨-, rfl⟩ := pure_eq_ok.mp hturns
    exact h
  | cons node nodes ih =>
    obtain ⟨_, t, hstep, hrest⟩ := bind_eq_ok.mp hturns
    obtain ⟨hlt, hstays⟩ := hnodes node List.mem_cons_self
    have ho' := orderly_splitNode ho hstep
    have hnext := (older_of_splitNode ho hstep).1
    have hthere : node.id ∈ t.nodes.map (·.id) :=
      mem_ids_of_turns ho' hrest hstays ((h.retains.nextId ▸ hlt).trans_le hnext)
    exact ih (h.splitNode hb hnames ho hstep hthere) ho' hrest
      fun other hother => hnodes other (List.mem_cons_of_mem _ hother)

end Turn

/-- A graph is unmoved when it is built. -/
theorem unmoved_of_build {pipeline : Pipeline} {built : Graph} (h : build pipeline = .ok built) :
    Unmoved built built :=
  ⟨mirrored_build h, refl_of Retains built, refl_of _ _, truthful_build h, refl_of _ _,
    fun _ _ _ => rfl⟩

/-- If all jobs are still there after nodes have been repeated, the graph is unmoved. -/
theorem unmoved_of_split {pipeline : Pipeline} {built repeated : Graph} {u : Unit}
    (hbuild : build pipeline = .ok built)
    (hnames : built.Distinct)
    (h : split built = .ok u repeated)
    (hwhole : ∀ node ∈ built.nodes, node.id ∈ repeated.nodes.map (·.id)) :
    Unmoved built repeated := by
  obtain ⟨-, hw, hlinked, -⟩ := build_spec hbuild
  obtain ⟨order, horder, hturns⟩ := split_eq_ok h
  obtain ⟨-, -, hsubset⟩ := ordered_of_topologicalOrder hw.closed horder
  have ho := orderly_of_topologicalOrder hw hlinked (fun node hn => (nodes_of_build hbuild node hn).1)
    horder
  refine (unmoved_of_build hbuild).turns (mirrored_build hbuild) hnames ho hturns fun node hn => ?_
  have hin : node ∈ built.nodes := hsubset hn
  exact ⟨hw.below _ (List.mem_map_of_mem hin), hwhole node hin⟩

end Graph

end Pipework
