import Pipework.Proofs.Mirror

/-!
# What nodes keep of their values

When all values of a prepared graph are resolved, each node keeps what came out, and that is
also what is remembered of them.
-/

namespace Pipework

open Step Resolve

/-- The node before its values are resolved. -/
def Node.pending (node : Node) : Node := { node with resolved? := none }

/-- Nodes that differ in what they keep only have the same handle, name and values. -/
theorem values_of_pending {node node' : Node} (h : node.pending = node'.pending) :
    node.id = node'.id ∧ node.name = node'.name ∧
      ∀ key, node.configured? key = node'.configured? key := by
  refine ⟨?_, ?_, fun key => ?_⟩
  · exact (congrArg Node.id h : node.pending.id = node'.pending.id)
  · exact (congrArg Node.name h : node.pending.name = node'.pending.name)
  · exact (congrArg (Node.configured? · key) h : node.pending.configured? key = _)

namespace Graph

/-- What is remembered of the value of a key in a scope of the root. -/
def Remembers (tree : ScopeTree) (owner key : String) (v : Value) : Prop :=
  ∃ leaf, tree.forest.leaf? owner key = some leaf ∧ (tree.forest.raw? leaf).isSome ∧
    tree.memo.lookup leaf = some v

/-- What is remembered stays so when more is. -/
theorem Remembers.mono {tree tree' : ScopeTree} {owner key : String} {v : Value}
    (h : Remembers tree owner key v) (hf : tree'.forest = tree.forest)
    (hm : Recalls tree.memo tree'.memo) : Remembers tree' owner key v := by
  obtain ⟨leaf, hleaf, hraw, hlookup⟩ := h
  exact ⟨leaf, hf ▸ hleaf, hf ▸ hraw, hm leaf v hlookup⟩

/-- What is read is what is remembered from then on, and nothing is read only where there is no
value. -/
theorem readProperty_eq_ok {owner key : String} {value? : Option Value} {tree tree' : ScopeTree}
    (h : readProperty owner key tree = .ok value? tree') :
    (value? = none ∧ ∀ raw, tree.forest.held? owner key ≠ some (some raw)) ∨
      ∃ v, value? = some v ∧ Remembers tree' owner key v := by
  obtain ⟨_, _, hget, h⟩ := bind_eq_ok.mp h
  obtain ⟨rfl, rfl⟩ := get_eq_ok.mp hget
  cases hleaf : tree.forest.leaf? owner key with
  | none =>
    have hat : (tree.forest.child? Forest.root owner).bind (tree.forest.child? · key) = none := hleaf
    simp only [hat] at h
    obtain ⟨rfl, -⟩ := pure_eq_ok.mp h
    exact .inl ⟨rfl, fun raw => by simp [Forest.held?, hleaf]⟩
  | some leaf =>
    have hat : (tree.forest.child? Forest.root owner).bind (tree.forest.child? · key) = some leaf :=
      hleaf
    simp only [hat] at h
    split at h
    next hraw =>
      obtain ⟨v, _, hv, h⟩ := bind_eq_ok.mp h
      obtain ⟨rfl, rfl⟩ := pure_eq_ok.mp h
      refine .inr ⟨v, rfl, ?_⟩
      rw [ScopeTree.resolveAt, ScopeTree.resolving] at hv
      cases hresult : scopeValue tree.forest leaf (tree.forest.displayName leaf) tree.memo with
      | error e memo => simp [hresult] at hv
      | ok w memo =>
        simp only [hresult] at hv
        obtain ⟨rfl, rfl⟩ := EStateM.Result.ok.inj hv
        exact ⟨leaf, hleaf, hraw, lookup_of_scopeValue hresult⟩
    next hraw =>
      obtain ⟨rfl, -⟩ := pure_eq_ok.mp h
      refine .inl ⟨rfl, fun raw hheld => hraw ?_⟩
      rw [Forest.held?, hleaf, Option.map_some] at hheld
      rw [Option.some.inj hheld]
      rfl

/-- What the value of a scope resolves to is read. -/
theorem readProperty_of_scopeValue {owner key : String} {leaf : ScopeId} {v : Value} {memo : Memo}
    {tree : ScopeTree} (hleaf : tree.forest.leaf? owner key = some leaf)
    (hraw : (tree.forest.raw? leaf).isSome)
    (hv : scopeValue tree.forest leaf (tree.forest.displayName leaf) tree.memo = .ok v memo) :
    readProperty owner key tree = .ok (some v) { tree with memo } := by
  refine bind_eq_ok.mpr ⟨tree, tree, get_eq_ok.mpr ⟨rfl, rfl⟩, ?_⟩
  have hat : (tree.forest.child? Forest.root owner).bind (tree.forest.child? · key) = some leaf :=
    hleaf
  simp only [hat]
  rw [if_pos hraw]
  refine bind_eq_ok.mpr ⟨v, { tree with memo }, ?_, pure_eq_ok.mpr ⟨rfl, rfl⟩⟩
  rw [ScopeTree.resolveAt, ScopeTree.resolving, hv]

/-- What is remembered of a value is read. -/
theorem Remembers.readProperty {owner key : String} {v : Value} {tree : ScopeTree}
    (h : Remembers tree owner key v) : readProperty owner key tree = .ok (some v) tree := by
  obtain ⟨leaf, hleaf, hraw, hv⟩ := h
  exact readProperty_of_scopeValue hleaf hraw (scopeValue_of_lookup hraw hv _)

/-- Settings with what is remembered of the values of a scope of the root. -/
def Recorded (tree : ScopeTree) (owner : String) (resolved : Settings) : Prop :=
  ∀ key v, resolved.get? key = some v → Remembers tree owner key v

/-- What was recorded stays remembered when more is. -/
theorem Recorded.mono {tree tree' : ScopeTree} {owner : String} {resolved : Settings}
    (h : Recorded tree owner resolved) (hf : tree'.forest = tree.forest)
    (hm : Recalls tree.memo tree'.memo) : Recorded tree' owner resolved :=
  fun key v hv => (h key v hv).mono hf hm

/-- Values of a node that are resolved one by one are recorded under their keys. -/
theorem resolveKeys_spec {node : Node} {resolved final : Settings} {keys : List String}
    {g g' : Graph} (hr : Recorded g.scope node.name resolved)
    (h : resolveKeys node resolved keys g = .ok final g') :
    Recorded g'.scope node.name final ∧ ∀ key, ((resolved.get? key).isSome ∨
      key ∈ keys ∧ ∃ raw, g.scope.forest.held? node.name key = some (some raw)) →
        (final.get? key).isSome := by
  induction keys generalizing resolved g with
  | nil =>
    obtain ⟨rfl, rfl⟩ := pure_eq_ok.mp h
    exact ⟨hr, fun key hkey => hkey.elim id fun hand => by simp at hand⟩
  | cons first keys ih =>
    obtain ⟨value?, t, hread, h⟩ := bind_eq_ok.mp h
    obtain ⟨memo, hlearns, rfl⟩ := (moves_onScope_of (moves_readProperty _ _)).of_ok hread
    obtain ⟨tree, hread, hscope⟩ := onScope_eq_ok.mp hread
    obtain rfl : { g.scope with memo } = tree := congrArg Graph.scope hscope
    have hr : Recorded { g.scope with memo } node.name resolved := hr.mono rfl hlearns.recalls
    rcases readProperty_eq_ok hread with ⟨rfl, hno⟩ | ⟨v, rfl, hv⟩
    · obtain ⟨hrec, hall⟩ := ih hr h
      refine ⟨hrec, fun key hkey => hall key (hkey.imp_right ?_)⟩
      rintro ⟨hmem, raw, hheld⟩
      refine ⟨?_, raw, hheld⟩
      rcases List.mem_cons.mp hmem with rfl | hmem
      · exact absurd hheld (hno raw)
      · exact hmem
    · have hrec : Recorded { g.scope with memo } node.name (resolved.insert first v) := by
        intro key w hw
        rw [Settings.get?_insert] at hw
        split at hw
        next heq => exact heq ▸ Option.some.inj hw ▸ hv
        · exact hr key w hw
      obtain ⟨hrec, hall⟩ := ih hrec h
      refine ⟨hrec, fun key hkey => hall key ?_⟩
      rw [Settings.get?_insert]
      split
      · exact .inl rfl
      next hne => exact hkey.imp_right fun ⟨hmem, hheld⟩ =>
          ⟨(List.mem_cons.mp hmem).resolve_left hne, hheld⟩

/-- The node keeps what its values resolved to, and that is what is remembered of them. -/
def Settled (graph : Graph) (node : Node) : Prop :=
  ∃ resolved, node.resolved? = some resolved ∧ Recorded graph.scope node.name resolved ∧
    ∀ key, (node.configured? key).isSome → (resolved.get? key).isSome

/-- A node keeps all its values as they resolve, and these are remembered. -/
theorem finalizeNode_spec {node : Node} {u : Unit} {g g' : Graph}
    (hn : ∀ key, g.scope.forest.held? node.name key = (node.configured? key).map some)
    (h : finalizeNode node g = .ok u g') : ∃ resolved memo,
      Learns g.scope.forest [] g.scope.memo memo ∧
      g' = { g with scope := { g.scope with memo } }.modifyNode node.id
        (fun n => { n with resolved? := some resolved }) ∧
      Recorded g'.scope node.name resolved ∧
      ∀ key, (node.configured? key).isSome → (resolved.get? key).isSome := by
  obtain ⟨resolved, t, hresolve, h⟩ := bind_eq_ok.mp h
  obtain rfl := modify_eq_ok.mp h
  obtain ⟨hrec, hall⟩ := resolveKeys_spec (fun key v hv => by cases hv) hresolve
  obtain ⟨memo, hlearns, rfl⟩ := (moves_resolveKeys _ _ _).of_ok hresolve
  refine ⟨resolved, memo, hlearns, rfl, hrec, fun key hkey => hall key (.inr ?_)⟩
  obtain ⟨value, hvalue⟩ := Option.isSome_iff_exists.mp hkey
  exact ⟨Node.mem_keys_of_configured? hvalue, value, by rw [hn, hvalue]; rfl⟩

/-- Resolving the values of nodes one after another settles them all. -/
theorem settled_of_forM {nodes : List Node} {u : Unit} {g g' : Graph} (hm : g.Mirrored)
    (hnodes : ∀ node ∈ nodes, ∃ now ∈ g.nodes, now.pending = node.pending)
    (hdone : ∀ now ∈ g.nodes, g.Settled now ∨ now.id ∈ nodes.map (·.id))
    (h : nodes.forM finalizeNode g = .ok u g') :
    g'.Mirrored ∧ ∀ now ∈ g'.nodes, g'.Settled now := by
  induction nodes generalizing g with
  | nil =>
    obtain ⟨-, rfl⟩ := pure_eq_ok.mp h
    exact ⟨hm, fun now hnow => (hdone now hnow).resolve_right (by simp)⟩
  | cons node nodes ih =>
    obtain ⟨_, t, hstep, h⟩ := bind_eq_ok.mp h
    obtain ⟨now, hnow, hsame⟩ := hnodes node (by simp)
    obtain ⟨hid, hname, hvalues⟩ := values_of_pending hsame
    obtain ⟨resolved, memo, hlearns, rfl, hrec, hall⟩ := finalizeNode_spec
      (fun key => by rw [← hname, hm.held now hnow, hvalues]) hstep
    let keep : Node → Node := fun n => { n with resolved? := some resolved }
    let t : Graph := { g with scope := { g.scope with memo } }.modifyNode node.id keep
    have hids : t.nodes.map (·.id) = g.nodes.map (·.id) :=
      map_modifyNode { g with scope := { g.scope with memo } } node.id _ fun _ => rfl
    have hnames : t.nodes.map (·.name) = g.nodes.map (·.name) :=
      map_modifyNode { g with scope := { g.scope with memo } } node.id _ fun _ => rfl
    have hpending : t.nodes.map Node.pending = g.nodes.map Node.pending :=
      map_modifyNode { g with scope := { g.scope with memo } } node.id _ fun _ => rfl
    have hm' : t.Mirrored := by
      refine hm.of_nodes rfl hlearns le_rfl ?_ ?_ fun other ho => ?_
      · rw [hids]
      · rw [hnames]
      · obtain ⟨old, hold, rfl⟩ := List.mem_map.mp ho
        refine ⟨old, hold, ?_⟩
        split <;> exact ⟨rfl, fun _ => rfl⟩
    have hnodes' : ∀ other ∈ nodes, ∃ now ∈ t.nodes, now.pending = other.pending := by
      intro other ho
      obtain ⟨old, hold, heq⟩ := hnodes other (List.mem_cons_of_mem _ ho)
      have hmem : old.pending ∈ t.nodes.map Node.pending :=
        hpending ▸ List.mem_map_of_mem hold
      obtain ⟨new, hnew, hpend⟩ := List.mem_map.mp hmem
      exact ⟨new, hnew, hpend.trans heq⟩
    have hdone' : ∀ now ∈ t.nodes, t.Settled now ∨ now.id ∈ nodes.map (·.id) := by
      intro other ho
      obtain ⟨old, hold, rfl⟩ := List.mem_map.mp ho
      split
      next heq =>
        obtain rfl := List.inj_on_of_nodup_map hm.ids hold hnow (heq.trans hid.symm)
        refine .inl ⟨resolved, rfl, ?_, fun key hkey => hall key ?_⟩
        · change Recorded t.scope old.name resolved
          rw [hname]
          exact hrec
        · rw [← hvalues]
          exact hkey
      next hne =>
        rcases hdone old hold with ⟨final, hfinal, hold', hkeys⟩ | hmem
        · exact .inl ⟨final, hfinal, hold'.mono rfl hlearns.recalls, hkeys⟩
        · rw [List.map_cons, List.mem_cons] at hmem
          exact .inr (hmem.resolve_left hne)
    exact ih hm' hnodes' hdone' h

/-- Resolving all values settles all nodes. -/
theorem settled_of_finalize {u : Unit} {g g' : Graph} (hm : g.Mirrored)
    (h : finalize g = .ok u g') : g'.Mirrored ∧ ∀ node ∈ g'.nodes, g'.Settled node := by
  obtain ⟨_, _, hget, h⟩ := bind_eq_ok.mp h
  obtain ⟨rfl, rfl⟩ := get_eq_ok.mp hget
  exact settled_of_forM hm (fun node hn => ⟨node, hn, rfl⟩)
    (fun node hn => .inr (List.mem_map_of_mem hn)) h

/-- Resolving all values touches no scopes, and of the nodes only what they keep of it. -/
theorem pending_of_finalize {u : Unit} {g g' : Graph} (h : finalize g = .ok u g') :
    g'.scope.forest = g.scope.forest ∧
      g'.nodes.map Node.pending = g.nodes.map Node.pending := by
  obtain ⟨_, _, hget, h⟩ := bind_eq_ok.mp h
  obtain ⟨rfl, rfl⟩ := get_eq_ok.mp hget
  refine forM_keeps (P := fun t => t.scope.forest = g.scope.forest ∧
    t.nodes.map Node.pending = g.nodes.map Node.pending) ?_ ⟨rfl, rfl⟩ h
  rintro node - t v t' ⟨hforest, hnodes⟩ hstep
  obtain ⟨resolved, _, hresolve, hstep⟩ := bind_eq_ok.mp hstep
  obtain rfl := modify_eq_ok.mp hstep
  obtain ⟨memo, -, rfl⟩ := (moves_resolveKeys _ _ _).of_ok hresolve
  refine ⟨hforest, Eq.trans ?_ hnodes⟩
  exact map_modifyNode { t with scope := { t.scope with memo } } node.id _ fun _ => rfl

end Graph

end Pipework
