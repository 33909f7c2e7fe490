import Pipework.Proofs.Operations

/-!
# When resolving fails

Resolving a value fails for what following one of its references fails for, or since lists of
different lengths meet in a template. So it does not fail if all references are answered, and the
lists that the references in each of its texts stand for are equally long.
-/

namespace Pipework

open Step Resolve

namespace FileField

/-- Only a segment that names no part of a path is refused. -/
theorem deriveScalar_eq_error {reference segment : String} {scalar : Value} {e : ScopeError}
    (h : deriveScalar reference segment scalar = .error e) :
    e = .unknownFileField reference segment ∧ ofText? segment = none := by
  rw [deriveScalar] at h
  split at h
  · cases h
  next hnone =>
    cases h
    exact ⟨rfl, hnone⟩

end FileField

namespace Value

variable {ε : Type} {f : Value → Except ε Value}

mutual

/-- Changing the scalars of a value fails for what it fails for at one of them. -/
theorem exists_of_mapLeavesM_eq_error : ∀ {v : Value} {e : ε}, mapLeavesM f v = .error e →
    ∃ y ∈ v.leaves, f y = .error e
  | .list items, e, h => by
    rw [mapLeavesM] at h
    cases hitems : mapAllLeavesM f items with
    | ok ws =>
      rw [hitems] at h
      cases h
    | error e' =>
      rw [hitems] at h
      cases h
      exact exists_of_mapAllLeavesM_eq_error hitems
  | .bool _, e, h | .int _, e, h | .float _, e, h | .str _, e, h =>
    ⟨_, List.mem_singleton_self _, h⟩

/-- Changing the scalars of values fails for what it fails for at one of them. -/
theorem exists_of_mapAllLeavesM_eq_error : ∀ {vs : List Value} {e : ε},
    mapAllLeavesM f vs = .error e → ∃ y ∈ allLeaves vs, f y = .error e
  | [], e, h => by cases h
  | v :: vs, e, h => by
    rw [mapAllLeavesM] at h
    rw [allLeaves]
    cases hfirst : mapLeavesM f v with
    | error e' =>
      rw [hfirst] at h
      cases h
      obtain ⟨y, hy, hfail⟩ := exists_of_mapLeavesM_eq_error hfirst
      exact ⟨y, List.mem_append_left _ hy, hfail⟩
    | ok w =>
      cases hothers : mapAllLeavesM f vs with
      | ok ws =>
        rw [hfirst, hothers] at h
        cases h
      | error e' =>
        rw [hfirst, hothers] at h
        cases h
        obtain ⟨y, hy, hfail⟩ := exists_of_mapAllLeavesM_eq_error hothers
        exact ⟨y, List.mem_append_right _ hy, hfail⟩

end

end Value

namespace FileField

/-- Parts of a value are refused only for a segment that names no part of a path. -/
theorem derive_eq_error {v : Value} {segments : List String} {reference : String} {e : ScopeError}
    (h : derive v segments reference = .error e) :
    ∃ segment ∈ segments, e = .unknownFileField reference segment ∧ ofText? segment = none := by
  induction segments generalizing v with
  | nil => cases h
  | cons segment rest ih =>
    rw [derive, List.foldlM_cons] at h
    cases hfirst : v.mapLeavesM (deriveScalar reference segment) with
    | error e' =>
      rw [hfirst] at h
      cases h
      obtain ⟨y, -, hy⟩ := Value.exists_of_mapLeavesM_eq_error hfirst
      exact ⟨segment, List.mem_cons_self, deriveScalar_eq_error hy⟩
    | ok w =>
      rw [hfirst] at h
      obtain ⟨other, hmem, hother⟩ := ih h
      exact ⟨other, List.mem_cons_of_mem _ hmem, hother⟩

/-- Parts that there are can be taken of any value. -/
theorem exists_derive {v : Value} {segments : List String}
    (h : ∀ segment ∈ segments, (ofText? segment).isSome) (reference : String) :
    ∃ w, derive v segments reference = .ok w := by
  cases hderive : derive v segments reference with
  | ok w => exact ⟨w, rfl⟩
  | error e =>
    obtain ⟨segment, hmem, -, hnone⟩ := derive_eq_error hderive
    simpa [hnone] using h segment hmem

end FileField

namespace Resolve

/-- A part widens a template to its own width, or leaves the width as it is. -/
theorem widen_eq_ok {template : String} {width wider : Option Nat} {part : Value}
    (h : widen template width part = .ok wider) : (∀ n, width = some n → wider = some n) ∧
      (∀ n, width? part = some n → wider = some n) ∧ (wider = width ∨ wider = width? part) := by
  unfold widen at h
  cases hpart : width? part with
  | none =>
    obtain rfl : width = wider := by simpa [hpart] using h
    exact ⟨fun n hn => hn, nofun, .inl rfl⟩
  | some right =>
    cases width with
    | none =>
      obtain rfl : some right = wider := by simpa [hpart] using h
      exact ⟨nofun, fun n hn => hn, .inr rfl⟩
    | some left =>
      simp only [hpart] at h
      split at h
      next heq =>
        cases h
        exact ⟨fun n hn => hn, fun n hn => heq ▸ hn, .inl rfl⟩
      next => cases h

/-- A template cannot be widened by a list of another length, and for no other reason. -/
theorem widen_eq_error {template : String} {width : Option Nat} {part : Value} {e : ScopeError}
    (h : widen template width part = .error e) :
    ∃ left right, width = some left ∧ width? part = some right ∧ left ≠ right ∧
      e = .broadcastMismatch template left right := by
  unfold widen at h
  cases hpart : width? part with
  | none => simp [hpart] at h
  | some right =>
    cases width with
    | none => simp [hpart] at h
    | some left =>
      simp only [hpart] at h
      split at h
      next => cases h
      next hne =>
        cases h
        exact ⟨left, right, rfl, rfl, hne, rfl⟩

/-- All lists among the parts of a template are as long as its width says. -/
theorem width_of_gather {deref : List String → ResolveM Value} {template : String}
    {tokens : List Token} {width : Option Nat} {out : List Value × Option Nat} {m m' : Memo}
    (h : gather deref template width tokens m = .ok out m') :
    (∀ n, width = some n → out.2 = some n) ∧
      ∀ part ∈ out.1, ∀ n, width? part = some n → out.2 = some n := by
  induction tokens generalizing width out m m' with
  | nil =>
    obtain ⟨rfl, -⟩ := pure_eq_ok.mp h
    exact ⟨fun n hn => hn, nofun⟩
  | cons token tokens ih =>
    cases token with
    | literal text =>
      rw [gather] at h
      obtain ⟨rest, _, hrest, h⟩ := bind_eq_ok.mp h
      obtain ⟨rfl, -⟩ := pure_eq_ok.mp h
      obtain ⟨hwidth, hparts⟩ := ih hrest
      refine ⟨hwidth, fun part hpart n hn => ?_⟩
      rcases List.mem_cons.mp hpart with rfl | hpart
      · cases hn
      · exact hparts part hpart n hn
    | reference path =>
      rw [gather] at h
      obtain ⟨first, _, -, h⟩ := bind_eq_ok.mp h
      obtain ⟨wider, _, hwider, h⟩ := bind_eq_ok.mp h
      obtain ⟨hbefore, hfirst, -⟩ := widen_eq_ok (ofExcept_eq_ok.mp hwider).1
      obtain ⟨rest, _, hrest, h⟩ := bind_eq_ok.mp h
      obtain ⟨rfl, -⟩ := pure_eq_ok.mp h
      obtain ⟨hwidth, hparts⟩ := ih hrest
      refine ⟨fun n hn => hwidth n (hbefore n hn), fun part hpart n hn => ?_⟩
      rcases List.mem_cons.mp hpart with rfl | hpart
      · exact hwidth n (hfirst n hn)
      · exact hparts part hpart n hn

/-- Parts with lists of the width only can be put together. -/
theorem exists_assemble {parts : List Value} {width : Option Nat}
    (h : ∀ part ∈ parts, ∀ n, width? part = some n → width = some n) :
    ∃ v, assemble parts width = .ok v := by
  cases width with
  | none => exact ⟨_, rfl⟩
  | some width =>
    have hline : ∀ place ∈ List.range width, ∃ v, lineAt parts place = .ok v := by
      intro place hplace
      have hpart : ∀ part ∈ parts, ∃ text, partAt place part = .ok text := by
        intro part hpart
        cases part with
        | list items =>
          obtain rfl := Option.some.inj (h _ hpart items.length rfl)
          obtain ⟨item, hitem⟩ : ∃ item, items[place]? = some item :=
            ⟨_, List.getElem?_eq_getElem (List.mem_range.mp hplace)⟩
          exact ⟨item.render, by rw [partAt, hitem]⟩
        | bool _ | int _ | float _ | str _ => exact ⟨_, rfl⟩
      obtain ⟨texts, htexts⟩ := exists_mapM_ok hpart
      exact ⟨_, by rw [lineAt, htexts]; rfl⟩
    obtain ⟨lines, hlines⟩ := exists_mapM_ok hline
    exact ⟨_, by rw [assemble, hlines]; rfl⟩

section Failing

variable {P : ScopeError → Prop} {deref : List String → ResolveM Value}

/-- A result that was found elsewhere fails for what it failed for there. -/
theorem failsFor_ofExcept {α : Type} {x : Except ScopeError α} (h : ∀ e, x = .error e → P e) :
    FailsFor P (ResolveM.ofExcept x) := by
  cases x with
  | ok a => exact .pure a
  | error e => exact .throw (h e rfl)

variable (hmismatch : ∀ template left right, P (.broadcastMismatch template left right))

include hmismatch

/-- Putting tokens together fails for what following one of their references fails for, or for lists of
different lengths. -/
theorem failsFor_gather {template : String} {tokens : List Token}
    (hd : ∀ path ∈ tokens.filterMap Token.path?, FailsFor P (deref path)) (width : Option Nat) :
    FailsFor P (gather deref template width tokens) := by
  induction tokens generalizing width with
  | nil => exact .pure _
  | cons token tokens ih =>
    cases token with
    | literal text =>
      rw [gather]
      exact (ih (by simpa [Token.path?] using hd) width).bind fun _ => .pure _
    | reference path =>
      have hrest : ∀ path ∈ tokens.filterMap Token.path?, FailsFor P (deref path) := fun p hp =>
        hd p (by simp [Token.path?, hp])
      rw [gather]
      refine (hd path (by simp [Token.path?])).bind fun part => ?_
      refine (failsFor_ofExcept fun e he => ?_).bind fun wider => (ih hrest wider).bind fun _ => .pure _
      obtain ⟨left, right, -, -, -, rfl⟩ := widen_eq_error he
      exact hmismatch template left right

/-- Evaluating a text fails for what following one of its references fails for, or for lists of different
lengths. -/
theorem failsFor_evaluate {template : String}
    (hd : ∀ path ∈ Template.references template, FailsFor P (deref path)) :
    FailsFor P (evaluate deref template) := by
  rw [Template.references] at hd
  rcases evaluate_cases template with ⟨path, htokens, heq⟩ | heq
  · rw [heq]
    exact hd path (by simp [htokens, Token.path?])
  · rw [heq]
    intro m e m' h
    rcases bind_eq_error.mp h with h | ⟨out, m₁, hout, h⟩
    · exact failsFor_gather hmismatch hd none m e m' h
    -- What has been gathered can be put together.
    · obtain ⟨v, hv⟩ := exists_assemble (width_of_gather hout).2
      rw [hv] at h
      cases h

omit hmismatch

mutual

/-- Resolving a value fails for what following its references fails for, or for lists of different
lengths. -/
theorem failsFor_value (hmismatch : ∀ template left right, P (.broadcastMismatch template left right)) :
    ∀ raw : Value, (∀ path ∈ raw.references, FailsFor P (deref path)) → FailsFor P (value deref raw)
  | .str text, hd => by
    rw [value]
    split
    · exact failsFor_evaluate hmismatch hd
    · exact .pure _
  | .list items, hd => by
    rw [value]
    exact (failsFor_values hmismatch items hd).bind fun _ => .pure _
  | .bool _, _ | .int _, _ | .float _, _ => .pure _

/-- Resolving values fails for what following one of their references fails for, or for lists of
different lengths. -/
theorem failsFor_values (hmismatch : ∀ template left right, P (.broadcastMismatch template left right)) :
    ∀ items : List Value, (∀ path ∈ Value.allReferences items, FailsFor P (deref path)) →
      FailsFor P (values deref items)
  | [], _ => .pure _
  | item :: items, hd => by
    rw [values]
    rw [Value.allReferences] at hd
    exact (failsFor_value hmismatch item fun p hp => hd p (List.mem_append_left _ hp)).bind fun _ =>
      (failsFor_values hmismatch items fun p hp => hd p (List.mem_append_right _ hp)).bind fun _ => .pure _

end

end Failing

section Answering

variable {answer : List String → Except ScopeError Value}

/-- The lists that references in a text stand for are equally long. -/
def EquallyLong (answer : List String → Except ScopeError Value) (text : String) : Prop :=
  ∀ path ∈ Template.references text, ∀ path' ∈ Template.references text, ∀ v v' n n',
    answer path = .ok v → answer path' = .ok v' → width? v = some n → width? v' = some n' → n = n'

/-- Tokens can be put together if their references are answered and the lists among the answers are
equally long. -/
theorem exists_gather {template : String} {tokens : List Token} {width : Option Nat}
    (hanswer : ∀ path ∈ tokens.filterMap Token.path?, ∃ v, answer path = .ok v)
    (hequal : ∀ path ∈ tokens.filterMap Token.path?, ∀ path' ∈ tokens.filterMap Token.path?,
      ∀ v v' n n', answer path = .ok v → answer path' = .ok v' → width? v = some n →
        width? v' = some n' → n = n')
    (hwidth : ∀ path ∈ tokens.filterMap Token.path?, ∀ v n n', answer path = .ok v →
      width = some n → width? v = some n' → n = n') (m : Memo) :
    ∃ out, gather (answering answer) template width tokens m = .ok out m := by
  induction tokens generalizing width with
  | nil => exact ⟨_, rfl⟩
  | cons token tokens ih =>
    cases token with
    | literal text =>
      have hsame : (Token.literal text :: tokens).filterMap Token.path? =
          tokens.filterMap Token.path? := rfl
      rw [hsame] at hanswer hequal hwidth
      obtain ⟨out, hout⟩ := ih hanswer hequal hwidth
      rw [gather]
      exact ⟨_, bind_eq_ok.mpr ⟨out, m, hout, rfl⟩⟩
    | reference path =>
      have hfirst : path ∈ (Token.reference path :: tokens).filterMap Token.path? := by
        simp [Token.path?]
      have hrest : ∀ p ∈ tokens.filterMap Token.path?,
          p ∈ (Token.reference path :: tokens).filterMap Token.path? := fun p hp => by
        simp [Token.path?, hp]
      obtain ⟨part, hpart⟩ := hanswer path hfirst
      have hwide : ∃ wider, widen template width part = .ok wider := by
        cases hwiden : widen template width part with
        | ok wider => exact ⟨wider, rfl⟩
        | error e =>
          obtain ⟨left, right, hleft, hright, hne, -⟩ := widen_eq_error hwiden
          exact absurd (hwidth path hfirst part left right hpart hleft hright) hne
      obtain ⟨wider, hwider⟩ := hwide
      -- The width so far is that of this part or of those before.
      have hwider' : ∀ p ∈ tokens.filterMap Token.path?, ∀ v n n', answer p = .ok v →
          wider = some n → width? v = some n' → n = n' := by
        intro p hp v n n' hv hn hn'
        rcases (widen_eq_ok hwider).2.2 with rfl | heq
        · exact hwidth p (hrest p hp) v n n' hv hn hn'
        · exact hequal path hfirst p (hrest p hp) part v n n' hpart hv (heq ▸ hn) hn'
      obtain ⟨out, hout⟩ := ih (fun p hp => hanswer p (hrest p hp))
        (fun p hp p' hp' => hequal p (hrest p hp) p' (hrest p' hp')) hwider'
      refine ⟨(part :: out.1, out.2), ?_⟩
      rw [gather]
      refine bind_eq_ok.mpr ⟨part, m, ofExcept_eq_ok.mpr ⟨hpart, rfl⟩, ?_⟩
      refine bind_eq_ok.mpr ⟨wider, m, ofExcept_eq_ok.mpr ⟨hwider, rfl⟩, ?_⟩
      exact bind_eq_ok.mpr ⟨out, m, hout, rfl⟩

/-- A text can be evaluated if its references are answered and the lists among the answers are equally
long. -/
theorem exists_evaluate {text : String}
    (hanswer : ∀ path ∈ Template.references text, ∃ v, answer path = .ok v)
    (hequal : EquallyLong answer text) (m : Memo) :
    ∃ v, evaluate (answering answer) text m = .ok v m := by
  rw [EquallyLong, Template.references] at hequal
  rw [Template.references] at hanswer
  rcases evaluate_cases text with ⟨path, htokens, heq⟩ | heq
  · obtain ⟨v, hv⟩ := hanswer path (by simp [htokens, Token.path?])
    exact ⟨v, by rw [heq]; exact ofExcept_eq_ok.mpr ⟨hv, rfl⟩⟩
  · obtain ⟨out, hout⟩ := @exists_gather answer text _ none hanswer hequal (by simp) m
    obtain ⟨v, hv⟩ := exists_assemble (width_of_gather hout).2
    exact ⟨v, by rw [heq]; exact bind_eq_ok.mpr ⟨out, m, hout, ofExcept_eq_ok.mpr ⟨hv, rfl⟩⟩⟩

mutual

/-- A value can be resolved if its references are answered and in each text the lists among the answers
are equally long. -/
theorem exists_value : ∀ raw : Value, (∀ path ∈ raw.references, ∃ v, answer path = .ok v) →
    (∀ text, .str text ∈ raw.leaves → EquallyLong answer text) → ∀ m : Memo,
      ∃ v, value (answering answer) raw m = .ok v m
  | .str text, hanswer, hequal, m => by
    rw [value]
    split
    · exact exists_evaluate hanswer (hequal text (List.mem_singleton_self _)) m
    · exact ⟨_, rfl⟩
  | .list items, hanswer, hequal, m => by
    obtain ⟨vs, hvs⟩ := exists_values items hanswer hequal m
    rw [value]
    exact ⟨_, bind_eq_ok.mpr ⟨vs, m, hvs, rfl⟩⟩
  | .bool _, _, _, m | .int _, _, _, m | .float _, _, _, m => ⟨_, rfl⟩

/-- Values can be resolved if their references are answered and in each text the lists among the answers
are equally long. -/
theorem exists_values : ∀ items : List Value,
    (∀ path ∈ Value.allReferences items, ∃ v, answer path = .ok v) →
    (∀ text, .str text ∈ Value.allLeaves items → EquallyLong answer text) → ∀ m : Memo,
      ∃ vs, values (answering answer) items m = .ok vs m
  | [], _, _, m => ⟨_, rfl⟩
  | item :: items, hanswer, hequal, m => by
    rw [Value.allReferences] at hanswer
    rw [Value.allLeaves] at hequal
    obtain ⟨v, hv⟩ := exists_value item (fun p hp => hanswer p (List.mem_append_left _ hp))
      (fun t ht => hequal t (List.mem_append_left _ ht)) m
    obtain ⟨vs, hvs⟩ := exists_values items (fun p hp => hanswer p (List.mem_append_right _ hp))
      (fun t ht => hequal t (List.mem_append_right _ ht)) m
    rw [values]
    exact ⟨_, bind_eq_ok.mpr ⟨v, m, hv, bind_eq_ok.mpr ⟨vs, m, hvs, rfl⟩⟩⟩

end

/-- A value comes to something if all its references are answered, with equally long lists in each
of its texts. -/
theorem exists_valueWith {raw : Value} (hanswer : ∀ path ∈ raw.references, ∃ v, answer path = .ok v)
    (hequal : ∀ text, .str text ∈ raw.leaves → EquallyLong answer text) :
    ∃ v, valueWith answer raw = .ok v := by
  obtain ⟨v, hv⟩ := exists_value raw hanswer hequal []
  exact ⟨v, by rw [valueWith, hv]⟩

end Answering

end Resolve

end Pipework
