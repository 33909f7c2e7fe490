import Pipework.Proofs.ReferenceCycles

/-!
# What a text comes to

The references of a text are followed one after the other, and lists have to be equally long, which is
looked at as soon as each of them is there. If all references stand for something when the text comes up,
they still do when it is their turn, as nothing that is found out shows. So what a text comes to depends
only on what its references stand for: on what these are if it is a single one, and else on the texts for
them and on how long the lists are.
-/

namespace Pipework

open Step Resolve

/-- The part of a text that a token makes up, with references standing for something. -/
def Token.part (answer : List String → Value) : Token → Value
  | .literal text => .str text
  | .reference path => answer path

namespace Template

/-- The text with what its references stand for in their places. -/
def filled (answer : List String → Value) (text : String) : String :=
  String.join ((tokenize text).map fun token => (token.part answer).render)

/-- The text with what its references stand for in their places, an element of each list for the list. -/
def filledAt (answer : List String → Value) (text : String) (place : Nat) : String :=
  String.join ((tokenize text).map fun token => ((token.part answer).elementAt place).render)

/-- How long the lists are that references of the text stand for, in their order. -/
def widths (answer : List String → Value) (text : String) : List Nat :=
  (references text).filterMap fun path => width? (answer path)

/-- Only references make up parts that are lists. -/
theorem widths_eq (answer : List String → Value) (text : String) :
    widths answer text = ((tokenize text).map (Token.part answer)).filterMap width? := by
  rw [widths, references, List.filterMap_filterMap, List.filterMap_map]
  refine List.filterMap_congr fun token _ => ?_
  cases token <;> rfl

end Template

namespace Step

variable {ε σ α β : Type} {s : σ}

theorem outcome_bind_pure (x : EStateM ε σ α) (f : α → β) :
    outcome ((do return f (← x) : EStateM ε σ β) s) = (outcome (x s)).map f := by
  change outcome (EStateM.bind x _ s) = _
  unfold EStateM.bind
  cases x s <;> rfl

end Step

namespace Resolve

theorem outcome_ofExcept_bind {α β : Type} (x : Except ScopeError α) (f : α → ResolveM β) (m : Memo) :
    outcome ((ResolveM.ofExcept x >>= f) m) = x.bind fun a => outcome (f a m) := by
  cases x <;> rfl

theorem outcome_bind_ofExcept {α β : Type} (x : ResolveM α) (f : α → Except ScopeError β) (m : Memo) :
    outcome ((x >>= fun a => ResolveM.ofExcept (f a)) m) = (outcome (x m)).bind f := by
  change outcome (EStateM.bind x _ m) = _
  unfold EStateM.bind
  cases x m with
  | error e m' => rfl
  | ok a m' =>
    change outcome (ResolveM.ofExcept (f a) m') = f a
    cases f a <;> rfl

/-! ### Following the references of a text -/

section Served

variable {P : Memo → Prop} {deref : List String → ResolveM Value} {answer : List String → Value}
  {template : String}

/-- If all references stand for something, only lists of different lengths keep a text from having its
parts. -/
theorem outcome_gather {tokens : List Token}
    (hd : ∀ path ∈ tokens.filterMap Token.path?, Serves P deref (fun path => .ok (answer path)) path)
    {now : Memo} (hnow : P now) (width : Option Nat) :
    outcome (gather deref template width tokens now) =
      ((tokens.map (Token.part answer)).foldlM (widen template) width).map fun width =>
        (tokens.map (Token.part answer), width) := by
  induction tokens generalizing width now with
  | nil => rfl
  | cons token tokens ih =>
    rw [List.map_cons, List.foldlM_cons]
    cases token with
    | literal text =>
      have hwidth : widen template width (Token.part answer (.literal text)) = .ok width := by
        cases width <;> rfl
      rw [gather, outcome_bind_pure (f := fun out : List Value × Option Nat => (.str text :: out.1, out.2)),
        ih (by simpa [Token.path?] using hd) hnow, hwidth]
      change Except.map _ (Except.map _ _) = Except.map _ (List.foldlM _ width _)
      cases (tokens.map (Token.part answer)).foldlM (widen template) width <;> rfl
    | reference path =>
      obtain ⟨now', hderef, hnow'⟩ := hd path (by simp [Token.path?]) (answer path) rfl now hnow
      rw [gather, bind_of_ok hderef, outcome_ofExcept_bind]
      change _ = Except.map _ ((widen template width (answer path)).bind _)
      cases widen template width (answer path) with
      | error e => rfl
      | ok wider =>
        change outcome ((do
          let out ← gather deref template wider tokens
          return (answer path :: out.1, out.2) : ResolveM (List Value × Option Nat)) now') =
            Except.map _ ((tokens.map (Token.part answer)).foldlM (widen template) wider)
        rw [outcome_bind_pure (f := fun out : List Value × Option Nat => (answer path :: out.1, out.2)),
          ih (fun p hp => hd p (by simp [Token.path?, hp])) hnow']
        cases (tokens.map (Token.part answer)).foldlM (widen template) wider <;> rfl

end Served

/-! ### How long the lists are -/

section Widening

variable {template : String} {parts : List Value} {width : Nat}

theorem foldlM_widen_cons (part : Value) (width : Option Nat) :
    (part :: parts).foldlM (widen template) width =
      (widen template width part).bind (parts.foldlM (widen template)) := List.foldlM_cons

theorem widen_of_scalar {part : Value} (h : width? part = none) (width : Option Nat) :
    widen template width part = .ok width := by
  cases part with
  | list items => cases h
  | bool _ | int _ | float _ | str _ => cases width <;> rfl

theorem widen_of_width {part : Value} {found : Nat} (h : width? part = some found) :
    widen template none part = .ok (some found) ∧
      widen template (some width) part = if width = found then .ok (some width)
        else .error (.broadcastMismatch template width found) := by
  simp only [widen, h, and_self]

/-- Without a list nothing is wide. -/
theorem foldlM_widen_of_no_lists (h : parts.filterMap width? = []) (width : Option Nat) :
    parts.foldlM (widen template) width = .ok width := by
  induction parts with
  | nil => rfl
  | cons part parts ih =>
    obtain ⟨hpart, hparts⟩ := List.filterMap_eq_nil_iff.mp h |> List.forall_mem_cons.mp
    rw [foldlM_widen_cons, widen_of_scalar hpart]
    exact ih (List.filterMap_eq_nil_iff.mpr hparts)

/-- Lists that are as long as those before keep the width. -/
theorem foldlM_widen_of_even (h : ∀ other ∈ parts.filterMap width?, other = width) :
    parts.foldlM (widen template) (some width) = .ok (some width) := by
  induction parts with
  | nil => rfl
  | cons part parts ih =>
    rw [foldlM_widen_cons]
    cases hpart : width? part with
    | none =>
      rw [List.filterMap_cons_none hpart] at h
      rw [widen_of_scalar hpart]
      exact ih h
    | some other =>
      rw [List.filterMap_cons_some hpart, List.forall_mem_cons] at h
      rw [(widen_of_width hpart).2, if_pos h.1.symm]
      exact ih h.2

/-- The first list of another length is the one that does not fit. -/
theorem foldlM_widen_of_uneven {other : Nat}
    (h : (parts.filterMap width?).find? (· ≠ width) = some other) :
    parts.foldlM (widen template) (some width) = .error (.broadcastMismatch template width other) := by
  induction parts with
  | nil => cases h
  | cons part parts ih =>
    rw [foldlM_widen_cons]
    cases hpart : width? part with
    | none =>
      rw [List.filterMap_cons_none hpart] at h
      rw [widen_of_scalar hpart]
      exact ih h
    | some first =>
      rw [List.filterMap_cons_some hpart] at h
      by_cases heq : width = first
      · rw [List.find?_cons_of_neg (by simpa using heq.symm)] at h
        rw [(widen_of_width hpart).2, if_pos heq]
        exact ih h
      · rw [List.find?_cons_of_pos (by simpa using Ne.symm heq)] at h
        obtain rfl := Option.some.inj h
        rw [(widen_of_width hpart).2, if_neg heq]
        rfl

/-- The first list gives the width, and those behind it have to fit. -/
theorem foldlM_widen_of_first {rest : List Nat} (h : parts.filterMap width? = width :: rest) :
    ∃ behind : List Value, behind.filterMap width? = rest ∧
      parts.foldlM (widen template) none = behind.foldlM (widen template) (some width) := by
  obtain ⟨before, first, behind, rfl, hbefore, hfirst, rfl⟩ := List.filterMap_eq_cons_iff.mp h
  refine ⟨behind, rfl, ?_⟩
  rw [List.foldlM_append, foldlM_widen_of_no_lists (List.filterMap_eq_nil_iff.mpr hbefore)]
  change (first :: behind).foldlM (widen template) none = _
  rw [foldlM_widen_cons, (@widen_of_width template width first width hfirst).1]
  rfl

end Widening

/-! ### Putting the parts together -/

/-- At a place that all lists have, there is a text. -/
theorem lineAt_of_even {parts : List Value} {width place : Nat}
    (h : ∀ other ∈ parts.filterMap width?, other = width) (hplace : place < width) :
    lineAt parts place =
      .ok (.str (String.join (parts.map fun part => (part.elementAt place).render))) := by
  have hparts : ∀ part ∈ parts, partAt place part = .ok (part.elementAt place).render := by
    intro part hp
    cases part with
    | list items =>
      have hlength : items.length = width :=
        h items.length (List.mem_filterMap.mpr ⟨.list items, hp, rfl⟩)
      have hitem : items[place]? = some items[place] := List.getElem?_eq_getElem (hlength ▸ hplace)
      rw [partAt, hitem, Value.elementAt_list hitem]
    | bool _ | int _ | float _ | str _ => rfl
  rw [lineAt, mapM_ok_of_forall hparts]
  rfl

theorem assemble_of_even {parts : List Value} {width : Nat}
    (h : ∀ other ∈ parts.filterMap width?, other = width) : assemble parts (some width) =
      .ok (.list ((List.range width).map fun place =>
        .str (String.join (parts.map fun part => (part.elementAt place).render)))) := by
  rw [assemble, mapM_ok_of_forall fun place hplace => lineAt_of_even h (List.mem_range.mp hplace)]
  rfl

section Evaluated

variable {P : Memo → Prop} {deref : List String → ResolveM Value} {answer : List String → Value}
  {text : String} (hd : ∀ path ∈ Template.references text,
    Serves P deref (fun path => .ok (answer path)) path) {now : Memo} (hnow : P now)

include hd hnow

/-- A text that is one reference comes to what this stands for. -/
theorem outcome_evaluate_of_single {path : List String}
    (h : Template.singleReference? text = some path) :
    outcome (evaluate deref text now) = .ok (answer path) := by
  have htokens := Template.tokenize_of_singleReference? h
  obtain ⟨now', hderef, -⟩ := hd path (by simp [Template.references, htokens, Token.path?])
    (answer path) rfl now hnow
  rw [evaluate, htokens]
  change outcome (deref path now) = _
  rw [hderef]
  rfl

/-- Any other text comes to what is made of its parts. -/
theorem outcome_evaluate (h : Template.singleReference? text = none) :
    outcome (evaluate deref text now) =
      (((Template.tokenize text).map (Token.part answer)).foldlM (widen text) none).bind
        (assemble ((Template.tokenize text).map (Token.part answer))) := by
  rcases evaluate_cases text with ⟨path, htokens, -⟩ | heq
  · rw [Template.singleReference?, htokens] at h
    cases h
  · rw [heq, outcome_bind_ofExcept (f := fun out : List Value × Option Nat => assemble out.1 out.2),
      outcome_gather hd hnow]
    cases ((Template.tokenize text).map (Token.part answer)).foldlM (widen text) none <;> rfl

end Evaluated

/-- Text that cannot refer to anything comes to itself also when it is read as a template. -/
theorem evaluate_eq_value (deref : List String → ResolveM Value) (text : String) :
    evaluate deref text = value deref (.str text) := by
  rw [value]
  split
  next => rfl
  next hplain =>
    exact evaluate_of_no_references (Template.references_of_not_mayRefer (by simpa using hplain))

end Resolve

/-- A text may refer to something if a dollar sign stands in front of an opening brace. -/
theorem Template.mayRefer_iff {text : String} : mayRefer text = true ↔ ['$', '{'] <:+: text.toList := by
  rw [mayRefer]
  induction text.toList with
  | nil => simp [hasOpening]
  | cons c rest ih =>
    rw [List.infix_cons_iff, ← ih, hasOpening.eq_def]
    split
    next heq =>
      obtain ⟨rfl, rfl⟩ := List.cons.inj heq
      simp
    next hno heq =>
      obtain ⟨rfl, rfl⟩ := List.cons.inj heq
      refine ⟨.inr, fun h => h.resolve_left fun hopening => ?_⟩
      obtain ⟨rest, hrest⟩ := hopening
      obtain ⟨rfl, rfl⟩ := List.cons.inj hrest
      exact hno _ rfl rfl
    next heq => cases heq

namespace ScopeTree

/-- Seen from the scope, the reference stands for the value: it leads to a scope whose value resolves, and
this is the part of it that it asks for. -/
def StandsFor (tree : ScopeTree) (scope : ScopeId) (path : List String) (v : Value) : Prop :=
  ∃ id consumed u tree', tree.forest.lookup? scope path = some (id, consumed) ∧
    resolveAt id tree = .ok u tree' ∧ FileField.derive u (path.drop consumed) (joinPath path) = .ok v

/-- What a reference stands for at first it stands for whatever has been found out. -/
theorem StandsFor.serves {tree : ScopeTree} {scope : ScopeId} {path : List String}
    {answer : List String → Value} (h : tree.StandsFor scope path (answer path)) :
    Serves (Faithful tree.forest tree.memo) (fromScope tree.forest scope)
      (fun path => .ok (answer path)) path := by
  intro w hw now hnow
  obtain rfl := Except.ok.inj hw
  obtain ⟨id, consumed, u, tree', hlookup, hresolve, hderive⟩ := h
  obtain ⟨memo, hvalue, -⟩ := resolving_eq_ok.mp hresolve
  have hyields := yields_of_scopeValue (.refl tree.forest tree.memo) hvalue
  obtain ⟨m', hother, hm'⟩ := scopeValue_of_yields hnow hyields (joinPath path)
  refine ⟨m', ?_, hm'⟩
  rw [fromScope, follow, hlookup]
  exact bind_eq_ok.mpr ⟨u, m', hother, Resolve.ofExcept_eq_ok.mpr ⟨hderive, rfl⟩⟩

/-- **Evaluation.** In any scope tree, if all references of a text stand for something, a text that is one
reference comes to that, of whatever kind it is. Any other text comes to the text with these in their
places; but to one for each place of the lists among them if there are some and these are equally long;
and if they are not, evaluating it fails for the lengths of the first list and of the first one of
another length. And whatever its references are, a text comes to the same if it is resolved as a value,
for which it is not looked at if it has no opening of a reference. -/
theorem text_evaluated :
    (∀ (tree : ScopeTree) (scope : ScopeId) (text : String) (answer : List String → Value),
      (∀ path ∈ Template.references text, tree.StandsFor scope path (answer path)) →
      (∀ path, Template.singleReference? text = some path →
        outcome (evaluate scope text tree) = .ok (answer path)) ∧
      (Template.singleReference? text = none → outcome (evaluate scope text tree) =
        match Template.widths answer text with
        | [] => .ok (.str (Template.filled answer text))
        | width :: widths => match widths.find? (· ≠ width) with
          | none => .ok (.list ((List.range width).map fun place =>
              .str (Template.filledAt answer text place)))
          | some other => .error (.broadcastMismatch text width other))) ∧
    ∀ (tree : ScopeTree) (scope : ScopeId) (text : String),
      evaluate scope text tree = resolve scope (.str text) tree ∧
      (¬ ['$', '{'] <:+: text.toList → resolve scope (.str text) tree = .ok (.str text) tree) := by
  refine ⟨fun tree scope text answer h => ?_, fun tree scope text => ⟨?_, fun hplain => ?_⟩⟩
  · have hd : ∀ path ∈ Template.references text, Serves (Faithful tree.forest tree.memo)
        (fromScope tree.forest scope) (fun path => .ok (answer path)) path := fun path hp =>
      (h path hp).serves
    have hnow := (Recollects.refl tree.forest tree.memo).faithful
    refine ⟨fun path hsingle => ?_, fun hmany => ?_⟩
    · rw [evaluate, outcome_resolving]
      exact outcome_evaluate_of_single hd hnow hsingle
    · rw [evaluate, outcome_resolving, outcome_evaluate hd hnow hmany]
      have hwidths := Template.widths_eq answer text
      set parts := (Template.tokenize text).map (Token.part answer) with hparts
      cases hlists : Template.widths answer text with
      | nil =>
        rw [hlists] at hwidths
        rw [foldlM_widen_of_no_lists hwidths.symm]
        change Except.ok (Value.str (String.join (parts.map Value.render))) = _
        rw [hparts, List.map_map]
        rfl
      | cons width widths =>
        rw [hlists] at hwidths
        obtain ⟨behind, hbehind, hfold⟩ := @foldlM_widen_of_first text _ _ _ hwidths.symm
        rw [hfold]
        dsimp only
        cases hfind : widths.find? (· ≠ width) with
        | some other =>
          rw [foldlM_widen_of_uneven (hbehind ▸ hfind)]
          rfl
        | none =>
          have heven : ∀ other ∈ widths, other = width := by simpa using hfind
          rw [foldlM_widen_of_even (hbehind ▸ heven)]
          change assemble parts (some width) = _
          rw [assemble_of_even (hwidths ▸ List.forall_mem_cons.mpr ⟨rfl, heven⟩)]
          simp only [hparts, List.map_map]
          rfl
  · rw [evaluate, resolve]
    simp only [evaluate_eq_value]
  · have hnot : Template.mayRefer text = false := by
      rw [← Bool.not_eq_true, Template.mayRefer_iff]
      exact hplain
    have hself : ∀ deref, value deref (.str text) = pure (.str text) := fun _ =>
      value_of_not_mayRefer hnot
    simp only [resolve, hself]
    rfl

/-- Cups and spoons on a shelf that belongs to someone. -/
def shelf : ScopeTree := Operation.runAll [.put 0 "cups" (.list [.str "red", .str "blue"]),
  .put 0 "owner" (.str "ann"), .put 0 "spoons" (.list [.str "big"])] .initial

/-- What references stand for on the shelf. -/
def onShelf : List String → Value
  | ["cups"] => .list [.str "red", .str "blue"]
  | ["owner"] => .str "ann"
  | ["spoons"] => .list [.str "big"]
  | _ => .list []

theorem standsFor_shelf : ∀ path ∈ [["cups"], ["owner"], ["spoons"]],
    shelf.StandsFor 0 path (onShelf path) := by
  have hat : ∀ id u, outcome (resolveAt id shelf) = .ok u →
      ∃ tree', resolveAt id shelf = .ok u tree' := by
    intro id u h
    cases hresolve : resolveAt id shelf with
    | error e tree' => simp [hresolve, outcome] at h
    | ok v tree' =>
      rw [hresolve] at h
      exact ⟨tree', by rw [Except.ok.inj h]⟩
  obtain ⟨⟨hcups, howner, hspoons⟩, hred, hann, hbig⟩ :
      (shelf.forest.lookup? 0 ["cups"] = some (1, 1) ∧ shelf.forest.lookup? 0 ["owner"] = some (2, 1) ∧
        shelf.forest.lookup? 0 ["spoons"] = some (3, 1)) ∧
      outcome (resolveAt 1 shelf) = .ok (.list [.str "red", .str "blue"]) ∧
      outcome (resolveAt 2 shelf) = .ok (.str "ann") ∧
      outcome (resolveAt 3 shelf) = .ok (.list [.str "big"]) := by decide +kernel
  simp only [List.forall_mem_cons]
  refine ⟨?_, ?_, ?_, by simp⟩
  · obtain ⟨tree', h⟩ := hat 1 _ hred
    exact ⟨1, 1, _, tree', hcups, h, rfl⟩
  · obtain ⟨tree', h⟩ := hat 2 _ hann
    exact ⟨2, 1, _, tree', howner, h, rfl⟩
  · obtain ⟨tree', h⟩ := hat 3 _ hbig
    exact ⟨3, 1, _, tree', hspoons, h, rfl⟩

/-- The cups alone are the cups; with their owner there is a text for each of them; the owner alone makes
one text; and cups and spoons do not go together. -/
theorem shelf_is_told :
    outcome (evaluate 0 "$\x7bcups\x7d" shelf) = .ok (.list [.str "red", .str "blue"]) ∧
    outcome (evaluate 0 "$\x7bcups\x7d of $\x7bowner\x7d" shelf) =
      .ok (.list [.str "red of ann", .str "blue of ann"]) ∧
    outcome (evaluate 0 "for $\x7bowner\x7d" shelf) = .ok (.str "for ann") ∧
    outcome (evaluate 0 "$\x7bcups\x7d, $\x7bspoons\x7d" shelf) =
      .error (.broadcastMismatch "$\x7bcups\x7d, $\x7bspoons\x7d" 2 1) ∧
    resolve 0 (.str "a $ or \x7bb\x7d") shelf = .ok (.str "a $ or \x7bb\x7d") shelf := by
  have hall : ∀ text, (∀ path ∈ Template.references text, path ∈ [["cups"], ["owner"], ["spoons"]]) →
      ∀ path ∈ Template.references text, shelf.StandsFor 0 path (onShelf path) :=
    fun text h path hp => standsFor_shelf path (h path hp)
  refine ⟨?_, ?_, ?_, ?_, ?_⟩
  · exact (text_evaluated.1 shelf 0 _ onShelf (hall _ (by decide +kernel))).1 ["cups"] (by decide +kernel)
  · exact ((text_evaluated.1 shelf 0 _ onShelf (hall _ (by decide +kernel))).2 (by decide +kernel)).trans
      (by decide +kernel)
  · exact ((text_evaluated.1 shelf 0 _ onShelf (hall _ (by decide +kernel))).2 (by decide +kernel)).trans
      (by decide +kernel)
  · exact ((text_evaluated.1 shelf 0 _ onShelf (hall _ (by decide +kernel))).2 (by decide +kernel)).trans
      (by decide +kernel)
  · exact (text_evaluated.2 shelf 0 _).2 (by decide +kernel)

end ScopeTree

end Pipework
