import Pipework.Proofs.Memory
import Pipework.Proofs.Template

/-!
# Templates over lists

A template that lists are put into comes to a list, with one text for each place of the lists.
Each of its elements is what the same template comes to with every list narrowed to its element
at that place, as long as these elements are no lists again. Text without references comes to
itself.
-/

namespace Pipework

open Step

namespace Value

/-- A list narrowed to its element at a place, and anything else as it is. -/
def elementAt (place : Nat) : Value → Value
  | .list items => items[place]?.getD (.list items)
  | scalar => scalar

/-- A scalar is its own element at each place. -/
theorem elementAt_of_not_isList {v : Value} (h : v.isList = false) (place : Nat) :
    v.elementAt place = v := by
  cases v with
  | list items => cases h
  | bool _ | int _ | float _ | str _ => rfl

/-- The element of a list at a place is what stands there. -/
theorem elementAt_list {items : List Value} {place : Nat} {item : Value}
    (h : items[place]? = some item) : (list items).elementAt place = item := by
  rw [elementAt, h, Option.getD_some]

variable {ε : Type} {f : Value → Except ε Value}

/-- The scalars of a list are changed element by element. -/
theorem forall₂_of_mapAllLeavesM {items items' : List Value}
    (h : mapAllLeavesM f items = .ok items') :
    List.Forall₂ (fun v w => mapLeavesM f v = .ok w) items items' := by
  induction items generalizing items' with
  | nil =>
    obtain rfl := Except.ok.inj h
    exact .nil
  | cons item items ih =>
    rw [mapAllLeavesM] at h
    obtain ⟨first, hfirst, h⟩ := except_bind_eq_ok.mp h
    obtain ⟨rest, hrest, h⟩ := except_bind_eq_ok.mp h
    obtain rfl := Except.ok.inj h
    exact .cons hfirst (ih hrest)

/-- What is done to all scalars of a list is done to those of its element at a place. -/
theorem mapLeavesM_elementAt {v w : Value} (hscalar : ∀ v w, f v = .ok w → w.isList = false)
    (place : Nat) (h : v.mapLeavesM f = .ok w) :
    (v.elementAt place).mapLeavesM f = .ok (w.elementAt place) := by
  cases v with
  | list items =>
    rw [mapLeavesM] at h
    obtain ⟨items', hitems, h⟩ := except_bind_eq_ok.mp h
    obtain rfl := Except.ok.inj h
    rcases getElem?_of_forall₂ (forall₂_of_mapAllLeavesM hitems) place with
      ⟨hno, hno'⟩ | ⟨a, b, ha, hb, hab⟩
    · rw [elementAt, elementAt, hno, hno', Option.getD_none, Option.getD_none, mapLeavesM, hitems]
      rfl
    · rwa [elementAt_list ha, elementAt_list hb]
  | bool _ | int _ | float _ | str _ =>
    have hw : w.isList = false := hscalar _ w h
    rwa [elementAt_of_not_isList rfl, elementAt_of_not_isList hw]

/-- Changing a scalar to a scalar leaves no list. -/
theorem isList_of_mapLeavesM {v w : Value} (hscalar : ∀ v w, f v = .ok w → w.isList = false)
    (hv : v.isList = false) (h : v.mapLeavesM f = .ok w) : w.isList = false := by
  cases v with
  | list items => cases hv
  | bool _ | int _ | float _ | str _ => exact hscalar _ w h

end Value

namespace FileField

/-- A part of a scalar is no list. -/
theorem isList_of_deriveScalar {reference segment : String} (v w : Value)
    (h : deriveScalar reference segment v = .ok w) : w.isList = false := by
  rw [deriveScalar] at h
  split at h
  · obtain rfl := Except.ok.inj h
    rfl
  · cases h

/-- Parts are taken one after the other. -/
theorem derive_cons {v w : Value} {segment : String} {segments : List String} {reference : String} :
    derive v (segment :: segments) reference = .ok w ↔
      ∃ u, v.mapLeavesM (deriveScalar reference segment) = .ok u ∧
        derive u segments reference = .ok w := by
  rw [derive, List.foldlM_cons]
  exact except_bind_eq_ok

/-- The parts of the paths in a list are those of its elements. -/
theorem derive_elementAt {v w : Value} {segments : List String} {reference : String}
    (h : derive v segments reference = .ok w) (place : Nat) :
    derive (v.elementAt place) segments reference = .ok (w.elementAt place) := by
  induction segments generalizing v with
  | nil =>
    obtain rfl := Except.ok.inj h
    rfl
  | cons segment segments ih =>
    obtain ⟨u, hu, h⟩ := derive_cons.mp h
    exact derive_cons.mpr
      ⟨_, Value.mapLeavesM_elementAt isList_of_deriveScalar place hu, ih h⟩

/-- Parts of a scalar are no lists. -/
theorem isList_of_derive {v w : Value} {segments : List String} {reference : String}
    (hv : v.isList = false) (h : derive v segments reference = .ok w) : w.isList = false := by
  induction segments generalizing v with
  | nil =>
    obtain rfl := Except.ok.inj h
    exact hv
  | cons segment segments ih =>
    obtain ⟨u, hu, h⟩ := derive_cons.mp h
    exact ih (Value.isList_of_mapLeavesM isList_of_deriveScalar hv hu) h

end FileField

namespace Template

/-- In a text without the opening of a reference there is none further on, and none here. -/
theorem hasOpening_tail {c : Char} {rest : List Char} (h : hasOpening (c :: rest) = false) :
    hasOpening rest = false ∧ ¬ (c = '$' ∧ rest.head? = some '{') := by
  constructor
  · rw [hasOpening.eq_def] at h
    split at h
    · cases h
    next heq =>
      obtain ⟨-, rfl⟩ := List.cons.inj heq
      exact h
    next heq => cases heq
  · rintro ⟨rfl, hhead⟩
    cases rest with
    | nil => cases hhead
    | cons d rest =>
      obtain rfl : d = '{' := by simpa using hhead
      simp [hasOpening] at h

/-- A text without the opening of a reference consists of characters. -/
theorem pieces_of_not_hasOpening (skip : Nat) {text : List Char} (h : hasOpening text = false) :
    ∀ piece ∈ pieces skip text, ∃ c, piece = .char c := by
  induction text generalizing skip with
  | nil => cases skip <;> simp [pieces]
  | cons c rest ih =>
    obtain ⟨hrest, hno⟩ := hasOpening_tail h
    cases skip with
    | succ skip => exact ih skip hrest
    | zero =>
      have hnone : (if c = '$' then referenceAfterDollar? rest else none) = none := by
        split
        next hc =>
          rw [referenceAfterDollar?.eq_def]
          split
          next => exact absurd ⟨hc, rfl⟩ hno
          next => rfl
        · rfl
      rw [pieces, hnone]
      simp only [List.mem_cons, forall_eq_or_imp]
      exact ⟨⟨c, rfl⟩, ih 0 hrest⟩

/-- A character in front adds no reference. -/
theorem filterMap_pushChar (c : Char) (tokens : List Token) :
    (pushChar c tokens).filterMap Token.path? = tokens.filterMap Token.path? := by
  match tokens with
  | [] => rfl
  | .literal _ :: _ => rfl
  | .reference _ :: _ => rfl

/-- Tokens without references are a single literal, or none. -/
theorem joinPieces_of_chars {found : List Piece} (h : (joinPieces found).filterMap Token.path? = []) :
    found = [] ∨ joinPieces found = [.literal (String.ofList (found.flatMap Piece.chars))] := by
  induction found with
  | nil => exact .inl rfl
  | cons piece rest ih =>
    cases piece with
    | reference path => simp [joinPieces, Token.path?] at h
    | char c =>
      rw [joinPieces, filterMap_pushChar] at h
      rcases ih h with rfl | hrest
      · exact .inr rfl
      · refine .inr ?_
        rw [joinPieces, hrest, pushChar]
        simp [Piece.chars, String.ofList_cons]

/-- Text without references is one literal, or empty. -/
theorem tokenize_of_no_references {text : String} (h : references text = []) :
    (tokenize text = [] ∧ text = "") ∨ tokenize text = [.literal text] := by
  have hchars := (pieces_spec text.toList).1
  rcases joinPieces_of_chars h with hnil | hone
  · refine .inl ⟨by rw [tokenize, hnil, joinPieces], ?_⟩
    rw [hnil, List.flatMap_nil] at hchars
    exact String.toList_eq_nil_iff.mp hchars.symm
  · refine .inr ?_
    rw [tokenize, hone, hchars, String.ofList_toList]

/-- Text without the opening of a reference has no references. -/
theorem references_of_not_mayRefer {text : String} (h : mayRefer text = false) :
    references text = [] := by
  have hchars := pieces_of_not_hasOpening 0 h
  rw [references, tokenize]
  generalize pieces 0 text.toList = found at hchars
  induction found with
  | nil => rfl
  | cons piece found ih =>
    obtain ⟨c, rfl⟩ := hchars piece (by simp)
    rw [joinPieces, filterMap_pushChar]
    exact ih fun piece hp => hchars piece (List.mem_cons_of_mem _ hp)

end Template

namespace Value

mutual

/-- A value without the opening of a reference refers to nothing. -/
theorem references_of_not_mayRefer : ∀ {v : Value}, v.mayRefer = false → v.references = []
  | .str _, h => Template.references_of_not_mayRefer h
  | .list _, h => allReferences_of_not_anyMayRefer h
  | .bool _, _ | .int _, _ | .float _, _ => rfl

/-- A list of values without the opening of a reference refers to nothing. -/
theorem allReferences_of_not_anyMayRefer : ∀ {items : List Value}, anyMayRefer items = false →
    allReferences items = []
  | [], _ => rfl
  | item :: items, h => by
    obtain ⟨hfirst, hrest⟩ := Bool.or_eq_false_iff.mp h
    rw [allReferences, references_of_not_mayRefer hfirst, allReferences_of_not_anyMayRefer hrest,
      List.append_nil]

end

end Value

namespace Resolve

/-- An element that resolved to itself stays one element. -/
theorem splice_self (item : Value) : splice item item = [item] := by
  cases item <;> rfl

/-- Text without references comes to itself. -/
theorem evaluate_of_no_references {deref : List String → ResolveM Value} {text : String}
    (h : Template.references text = []) : evaluate deref text = pure (.str text) := by
  rcases Template.tokenize_of_no_references h with ⟨htokens, rfl⟩ | htokens
  · rw [evaluate, htokens]
    rfl
  · rw [evaluate, htokens]
    change (pure (Value.str (String.join [text])) : ResolveM Value) = _
    rw [String.join_cons, String.join_nil, String.append_empty]

mutual

/-- What refers to nothing is what it stands for. -/
theorem value_of_no_references {deref : List String → ResolveM Value} : ∀ {raw : Value},
    raw.references = [] → value deref raw = pure raw
  | .str text, h => by
    rw [value, evaluate_of_no_references h, ite_self]
  | .list items, h => by
    rw [value, values_of_no_references (h : Value.allReferences items = []), pure_bind]
  | .bool _, _ | .int _, _ | .float _, _ => rfl

/-- Values that refer to nothing resolve to themselves. -/
theorem values_of_no_references {deref : List String → ResolveM Value} :
    ∀ {items : List Value}, Value.allReferences items = [] → values deref items = pure items
  | [], _ => rfl
  | item :: items, h => by
    obtain ⟨hfirst, hrest⟩ := List.append_eq_nil_iff.mp h
    rw [values, value_of_no_references hfirst, values_of_no_references hrest, pure_bind,
      pure_bind, splice_self]
    rfl

end

/-- A value that refers to nothing comes to itself, whatever the answers. -/
theorem valueWith_of_no_references {answer : List String → Except ScopeError Value} {raw : Value}
    (h : raw.references = []) : valueWith answer raw = .ok raw := by
  rw [valueWith, value_of_no_references h]
  rfl

/-- A value without the opening of a reference resolves to itself, and nothing is remembered. -/
theorem value_of_not_mayRefer {deref : List String → ResolveM Value} {raw : Value}
    (h : raw.mayRefer = false) : value deref raw = pure raw :=
  value_of_no_references (Value.references_of_not_mayRefer h)

/-- A value without the opening of a reference comes to itself, whatever the answers. -/
theorem valueWith_of_not_mayRefer {answer : List String → Except ScopeError Value} {raw : Value}
    (h : raw.mayRefer = false) : valueWith answer raw = .ok raw :=
  valueWith_of_no_references (Value.references_of_not_mayRefer h)

end Resolve

namespace Resolve

/-- The value of a scope that has no such opening resolves to itself, which is then remembered. -/
theorem scopeValue_of_not_mayRefer {f : Forest} {id : ScopeId} {raw : Value} {m : Memo}
    (hraw : f.raw? id = some raw) (hnone : m.lookup id = none) (hrefer : raw.mayRefer = false)
    (reference : String) : scopeValue f id reference m = .ok raw ((id, raw) :: m) := by
  have hpos : ∃ size, f.size = size + 1 := by
    cases hsize : f.size with
    | zero =>
      have hempty : f.scopes = [] := List.eq_nil_of_length_eq_zero hsize
      simp [Forest.raw?, Forest.content?, Forest.get?, hempty] at hraw
    | succ size => exact ⟨size, rfl⟩
  obtain ⟨size, hsize⟩ := hpos
  rw [scopeValue, scopeValueWithin_eq, hsize, hraw, hnone]
  dsimp only
  rw [if_neg List.not_mem_nil, value_of_not_mayRefer hrefer]
  rfl

/-- What is no list makes a template no wider. -/
theorem widen_none (template : String) {part : Value} (h : part.isList = false) :
    widen template none part = .ok none := by
  cases part with
  | list items => cases h
  | bool _ | int _ | float _ | str _ => rfl

/-- Answers with every list narrowed to its element at a place. -/
def narrowed (place : Nat) (answer : List String → Except ScopeError Value) (path : List String) :
    Except ScopeError Value := (answer path).map (Value.elementAt place)

/-- With each list narrowed, a reference stands for the element of what it stood for. -/
theorem narrowed_eq_ok {place : Nat} {answer : List String → Except ScopeError Value}
    {path : List String} {v : Value} :
    narrowed place answer path = .ok v ↔ ∃ w, answer path = .ok w ∧ w.elementAt place = v := by
  rw [narrowed]
  cases answer path with
  | error e => exact iff_of_false (fun h => by cases h) (by simp)
  | ok w => simp [Except.map]

/-- The part of a template at a place is the text for the element there. -/
theorem partAt_eq_ok {place : Nat} {part : Value} {text : String}
    (h : partAt place part = .ok text) : text = (part.elementAt place).render := by
  cases part with
  | list items =>
    rw [partAt] at h
    cases hitem : items[place]? with
    | none => simp [hitem] at h
    | some item =>
      simp only [hitem] at h
      rw [Value.elementAt_list hitem, Except.ok.inj h]
  | bool _ | int _ | float _ | str _ => exact (Except.ok.inj h).symm

/-- At each place of the lists stands the text of the parts that are there. -/
theorem element_of_assemble {parts items : List Value} {width : Option Nat}
    (h : assemble parts width = .ok (.list items)) {place : Nat} {item : Value}
    (hitem : items[place]? = some item) :
    item = .str (String.join (parts.map fun part => (part.elementAt place).render)) := by
  cases width with
  | none => cases h
  | some width =>
    obtain ⟨lines, hlines, h⟩ := except_bind_eq_ok.mp h
    obtain rfl : lines = items := Value.list.inj (Except.ok.inj h)
    rcases getElem?_of_forall₂ (forall₂_of_mapM_ok hlines) place with ⟨-, hno⟩ | ⟨i, line, hi, hl, heq⟩
    · simp [hitem] at hno
    · obtain rfl := Option.some.inj (hitem.symm.trans hl)
      obtain rfl : place = i := by
        obtain ⟨hlt, hi⟩ := List.getElem?_eq_some_iff.mp hi
        rwa [List.getElem_range] at hi
      obtain ⟨texts, htexts, heq⟩ := except_bind_eq_ok.mp heq
      obtain rfl := Except.ok.inj heq
      have hall : List.Forall₂ Eq texts (parts.map fun part => (part.elementAt place).render) :=
        List.forall₂_map_right_iff.mpr
          ((forall₂_of_mapM_ok htexts).flip.imp fun _ _ hpart => partAt_eq_ok hpart)
      rw [List.forall₂_eq_eq_eq] at hall
      rw [hall]

/-- With every list narrowed to its element at a place, the parts of a template are narrowed
alike. -/
theorem gather_narrowed {answer : List String → Except ScopeError Value} {template : String}
    {tokens : List Token} {place : Nat}
    (hscalar : ∀ path ∈ tokens.filterMap Token.path?, ∀ w, answer path = .ok w →
      (w.elementAt place).isList = false)
    {width : Option Nat} {out : List Value × Option Nat} {m m' : Memo}
    (h : gather (answering answer) template width tokens m = .ok out m') (m₀ : Memo) :
    gather (answering (narrowed place answer)) template none tokens m₀ =
      .ok (out.1.map (Value.elementAt place), none) m₀ := by
  induction tokens generalizing width m m' out with
  | nil =>
    obtain ⟨rfl, -⟩ := pure_eq_ok.mp h
    rfl
  | cons token tokens ih =>
    cases token with
    | literal text =>
      rw [gather] at h ⊢
      obtain ⟨rest, _, hrest, h⟩ := bind_eq_ok.mp h
      obtain ⟨rfl, rfl⟩ := pure_eq_ok.mp h
      exact bind_eq_ok.mpr ⟨_, m₀, ih (by simpa [Token.path?] using hscalar) hrest, rfl⟩
    | reference path =>
      rw [gather] at h ⊢
      obtain ⟨part, _, hpart, h⟩ := bind_eq_ok.mp h
      obtain ⟨hanswer, rfl⟩ := ofExcept_eq_ok.mp hpart
      obtain ⟨wider, _, hat, h⟩ := bind_eq_ok.mp h
      obtain ⟨-, rfl⟩ := ofExcept_eq_ok.mp hat
      obtain ⟨rest, _, hrest, h⟩ := bind_eq_ok.mp h
      obtain ⟨rfl, rfl⟩ := pure_eq_ok.mp h
      have hfirst : (part.elementAt place).isList = false :=
        hscalar path (by simp [Token.path?]) part hanswer
      have hwider := widen_none template hfirst
      refine bind_eq_ok.mpr ⟨part.elementAt place, m₀, ?_, ?_⟩
      · exact ofExcept_eq_ok.mpr ⟨narrowed_eq_ok.mpr ⟨part, hanswer, rfl⟩, rfl⟩
      · refine bind_eq_ok.mpr ⟨none, m₀, ofExcept_eq_ok.mpr ⟨hwider, rfl⟩, ?_⟩
        have hothers := ih (fun p hp => hscalar p (by simp [Token.path?, hp])) hrest
        exact bind_eq_ok.mpr ⟨_, m₀, hothers, rfl⟩

/-- What stands at a place of the list that a template comes to is what it comes to with every list
narrowed to its element there, if no such element is a list. -/
theorem valueWith_narrowed {answer : List String → Except ScopeError Value} {text : String}
    {items : List Value} (h : valueWith answer (.str text) = .ok (.list items)) {place : Nat}
    {item : Value} (hitem : items[place]? = some item)
    (hscalar : ∀ path ∈ Template.references text, ∀ w, answer path = .ok w →
      (w.elementAt place).isList = false) :
    valueWith (narrowed place answer) (.str text) = .ok item := by
  have hvalue := valueWith_eq_ok.mp h []
  refine valueWith_eq_ok.mpr fun m₀ => ?_
  rw [value] at hvalue ⊢
  split
  next hrefer =>
    rw [if_pos hrefer] at hvalue
    rw [Template.references] at hscalar
    rcases evaluate_cases text with ⟨path, htokens, heq⟩ | heq
    · rw [heq] at hvalue ⊢
      obtain ⟨hanswer, -⟩ := ofExcept_eq_ok.mp hvalue
      refine ofExcept_eq_ok.mpr ⟨narrowed_eq_ok.mpr ⟨_, hanswer, ?_⟩, rfl⟩
      exact Value.elementAt_list hitem
    · rw [heq] at hvalue ⊢
      obtain ⟨out, m₁, hout, hvalue⟩ := bind_eq_ok.mp hvalue
      obtain ⟨hassemble, -⟩ := ofExcept_eq_ok.mp hvalue
      refine bind_eq_ok.mpr ⟨_, m₀, gather_narrowed hscalar hout m₀, ?_⟩
      refine ofExcept_eq_ok.mpr ⟨?_, rfl⟩
      rw [element_of_assemble hassemble hitem, assemble, List.map_map]
      rfl
  next hplain =>
    rw [if_neg hplain] at hvalue
    obtain ⟨hlist, -⟩ := pure_eq_ok.mp hvalue
    cases hlist

end Resolve

end Pipework
