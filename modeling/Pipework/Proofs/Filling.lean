import Pipework.Graph.Merge
import Pipework.Proofs.Broadcast
import Pipework.Proofs.Template

/-!
# What an edge puts into a text

An edge that hands on a value to a text replaces the references to its source that name the output.
What the text comes to then is what it came to before with these references answered by the value,
provided that there is such a reference and no dollar sign stands for itself in the text or the
value. This is up to how values are written: where a text is left with one reference and nothing
else, it becomes the value referred to and not its text.
-/

namespace Pipework

open Step

namespace Template

/-- The text that pieces come to when references are given by a function. -/
def spell (f : List String → Except ScopeError String) : List Piece → Except ScopeError String
  | [] => .ok ""
  | .char c :: rest => (spell f rest).map (String.singleton c ++ ·)
  | .reference path :: rest => do return (← f path) ++ (← spell f rest)

/-- The text that a token comes to. -/
def spellToken (f : List String → Except ScopeError String) : Token → Except ScopeError String
  | .literal text => .ok text
  | .reference path => f path

/-- The text that tokens come to. -/
def spellTokens (f : List String → Except ScopeError String) (tokens : List Token) :
    Except ScopeError String := (tokens.mapM (spellToken f)).map String.join

variable {f : List String → Except ScopeError String}

theorem spellTokens_cons (token : Token) (tokens : List Token) :
    spellTokens f (token :: tokens) = do
      return (← spellToken f token) ++ (← spellTokens f tokens) := by
  rw [spellTokens, spellTokens, List.mapM_cons]
  cases spellToken f token with
  | error e => rfl
  | ok text =>
    cases List.mapM (spellToken f) tokens with
    | error e => rfl
    | ok texts => exact congrArg Except.ok String.join_cons

/-- A character in front of tokens stands in front of what they are spelled as. -/
theorem spellTokens_pushChar (c : Char) (tokens : List Token) :
    spellTokens f (pushChar c tokens) = (spellTokens f tokens).map (String.singleton c ++ ·) := by
  have hnew : ∀ tokens : List Token, spellTokens f (.literal (String.singleton c) :: tokens) =
      (spellTokens f tokens).map (String.singleton c ++ ·) := fun tokens => by
    rw [spellTokens_cons]
    cases spellTokens f tokens <;> rfl
  match tokens with
  | [] => exact hnew []
  | .reference path :: tokens => exact hnew _
  | .literal text :: tokens =>
    rw [pushChar, spellTokens_cons, spellTokens_cons]
    cases spellTokens f tokens with
    | error e => rfl
    | ok rest => exact congrArg Except.ok String.append_assoc

/-- It makes no difference whether neighbouring characters are joined. -/
theorem spellTokens_joinPieces (found : List Piece) :
    spellTokens f (joinPieces found) = spell f found := by
  induction found with
  | nil => rfl
  | cons piece rest ih =>
    cases piece with
    | char c => rw [joinPieces, spellTokens_pushChar, ih, spell]
    | reference path => rw [joinPieces, spellTokens_cons, ih, spell, spellToken]

/-- Characters in front of pieces stand in front of what these are spelled as. -/
theorem spell_chars (text : List Char) (rest : List Piece) :
    spell f (text.map Piece.char ++ rest) = (spell f rest).map (String.ofList text ++ ·) := by
  induction text with
  | nil => cases h : spell f rest <;> simp [Except.map, h]
  | cons c text ih =>
    rw [List.map_cons, List.cons_append, spell, ih]
    cases spell f rest with
    | error e => rfl
    | ok text' =>
      refine congrArg Except.ok (String.toList_inj.mp ?_)
      simp

/-- Characters come to their text. -/
theorem spell_of_chars {found : List Piece} (h : ∀ piece ∈ found, ∃ c, piece = .char c) :
    spell f found = .ok (String.ofList (found.flatMap Piece.chars)) := by
  induction found with
  | nil => rfl
  | cons piece rest ih =>
    obtain ⟨c, rfl⟩ := h piece List.mem_cons_self
    rw [spell, ih fun other ho => h other (List.mem_cons_of_mem _ ho)]
    refine congrArg Except.ok (String.toList_inj.mp ?_)
    simp [Piece.chars]

/-- A text without a dollar sign has no opening of a reference. -/
theorem hasOpening_of_notMem {text : List Char} (h : '$' ∉ text) : hasOpening text = false := by
  induction text with
  | nil => rfl
  | cons c text ih =>
    rw [List.mem_cons, not_or] at h
    rw [hasOpening.eq_def]
    split
    next heq => exact absurd (List.cons.inj heq).1.symm h.1
    next heq =>
      obtain ⟨-, rfl⟩ := List.cons.inj heq
      exact ih h.2
    next => rfl

end Template

namespace Resolve

open Template

/-- The value of a token. -/
def partOf (answer : List String → Except ScopeError Value) : Token → Except ScopeError Value
  | .literal text => .ok (.str text)
  | .reference path => answer path

/-- What references are written as. -/
def said (answer : List String → Except ScopeError Value) (path : List String) :
    Except ScopeError String := (answer path).map Value.render

/-- Tokens are spelled as the texts for what they stand for, one behind the other. -/
theorem spellTokens_said (answer : List String → Except ScopeError Value) (tokens : List Token) :
    spellTokens (said answer) tokens =
      (tokens.mapM (partOf answer)).map fun parts => String.join (parts.map Value.render) := by
  induction tokens with
  | nil => rfl
  | cons token tokens ih =>
    have hfirst : spellToken (said answer) token = (partOf answer token).map Value.render := by
      cases token <;> rfl
    rw [spellTokens_cons, ih, hfirst, List.mapM_cons]
    cases partOf answer token with
    | error e => rfl
    | ok part =>
      cases tokens.mapM (partOf answer) with
      | error e => rfl
      | ok parts => exact congrArg Except.ok String.join_cons.symm

section Scalars

variable {answer : List String → Except ScopeError Value}
  (hscalar : ∀ path v, answer path = .ok v → v.isList = false)

include hscalar

/-- If no reference stands for a list, the values of a template are those of its tokens. -/
theorem gather_eq (template : String) (tokens : List Token) :
    gather (answering answer) template none tokens =
      ResolveM.ofExcept ((tokens.mapM (partOf answer)).map (·, none)) := by
  induction tokens with
  | nil => rfl
  | cons token tokens ih =>
    rw [List.mapM_cons]
    cases token with
    | literal text =>
      rw [gather, ih]
      cases tokens.mapM (partOf answer) <;> rfl
    | reference path =>
      rw [gather, answering, partOf]
      cases hanswer : answer path with
      | error e => rfl
      | ok part =>
        rw [ResolveM.ofExcept, pure_bind, widen_none template (hscalar path part hanswer),
          ResolveM.ofExcept, pure_bind, ih]
        cases tokens.mapM (partOf answer) <;> rfl

/-- If no reference stands for a list, what a template comes to is written as its tokens are, with
the references as what they stand for. -/
theorem render_evaluate (template : String) (m : Memo) :
    (∃ v, evaluate (answering answer) template m = .ok v m ∧
        spellTokens (said answer) (Template.tokenize template) = .ok v.render) ∨
      ∃ e, evaluate (answering answer) template m = .error e m ∧
        spellTokens (said answer) (Template.tokenize template) = .error e := by
  rw [spellTokens_said]
  rcases evaluate_cases template with ⟨path, htokens, heq⟩ | heq
  · rw [heq, htokens, answering]
    cases hanswer : answer path with
    | error e => exact .inr ⟨e, rfl, by simp [partOf, hanswer, Except.map]⟩
    | ok v => exact .inl ⟨v, rfl, by simp [partOf, hanswer, Except.map]⟩
  · rw [heq, gather_eq hscalar]
    cases hparts : (Template.tokenize template).mapM (partOf answer) with
    | error e => exact .inr ⟨e, rfl, rfl⟩
    | ok parts => exact .inl ⟨_, rfl, rfl⟩

/-- If no reference stands for a list, what a text comes to is written as the text, with the
references as what they stand for. -/
theorem render_valueWith (text : String) : (valueWith answer (.str text)).map Value.render =
    spell (said answer) (pieces 0 text.toList) := by
  rw [valueWith, value]
  by_cases hrefer : Template.mayRefer text
  · rw [if_pos hrefer, ← spellTokens_joinPieces]
    rcases render_evaluate hscalar text [] with ⟨v, hv, hspell⟩ | ⟨e, he, hspell⟩
    · rw [hv]
      exact hspell.symm
    · rw [he]
      exact hspell.symm
  · have hchars := pieces_of_not_hasOpening 0 (eq_false_of_ne_true hrefer)
    rw [if_neg hrefer, spell_of_chars hchars, (pieces_spec text.toList).1, String.ofList_toList]
    rfl

end Scalars

end Resolve

namespace FileField

/-- A part of a path is found in it as it is. -/
theorem infix_apply (field : FileField) (path : String) : (field.apply path).toList <:+: path.toList := by
  have hbase : PathText.baseName path.toList <:+ path.toList := by
    rw [PathText.baseName, ← List.reverse_prefix, List.reverse_reverse]
    exact List.takeWhile_prefix _
  cases field with
  | name =>
    rw [apply, PathText.name, String.toList_ofList]
    exact (List.takeWhile_prefix _).isInfix.trans hbase.isInfix
  | parent =>
    rw [apply, PathText.parent, String.toList_ofList]
    refine List.IsPrefix.isInfix ?_
    rw [← List.reverse_suffix, List.reverse_reverse]
    exact List.dropWhile_suffix _
  | extension =>
    rw [apply, PathText.extension, String.toList_ofList]
    exact (((List.tail_suffix _).trans (List.dropWhile_suffix _)).trans hbase).isInfix

/-- The parts of a path are written with no other characters than the path. -/
theorem render_subset_of_derive {v w : Value} {segments : List String} {reference : String}
    (hv : v.isList = false) (h : derive v segments reference = .ok w) :
    w.render.toList ⊆ v.render.toList := by
  induction segments generalizing v with
  | nil =>
    obtain rfl := Except.ok.inj h
    exact List.Subset.refl _
  | cons segment segments ih =>
    obtain ⟨u, hu, h⟩ := derive_cons.mp h
    have hpart : deriveScalar reference segment v = .ok u := by
      cases v with
      | list items => cases hv
      | bool _ | int _ | float _ | str _ => exact hu
    rw [deriveScalar] at hpart
    split at hpart
    next field _ =>
      obtain rfl := Except.ok.inj hpart
      exact List.Subset.trans (ih rfl h) (infix_apply field v.render).subset
    next => cases hpart

end FileField

namespace Merge

open Template Resolve

variable {value : Value} {property : String} {names : List String}

/-- What references are written as when the value is put in. -/
def filler (value : Value) (property : String) (names : List String) (path : List String) :
    Except ScopeError String :=
  match fieldsOf? property names path with
  | some fields => (FileField.derive value fields (joinPath path)).map Value.render
  | none => .ok (formatReference path)

/-- Filling in tokens means spelling them with the references to the output replaced. -/
theorem fillToken_eq :
    fillToken value property names = spellToken (filler value property names) := by
  funext token
  cases token with
  | literal text => rfl
  | reference path =>
    rw [fillToken, spellToken, filler]
    cases fieldsOf? property names path with
    | none => rfl
    | some fields => cases FileField.derive value fields (joinPath path) <;> rfl

/-- A text in which the output is named is that reference and becomes what it stands for, or it
stays text, with the value put in. -/
theorem substitute_cases {raw : String} {new : Value} (hvalue : value.isList = false)
    (hmention : (tokenize raw).any (mentions property names))
    (h : substitute raw value property names = .ok new) :
    (∃ path fields, tokenize raw = [.reference path] ∧
        fieldsOf? property names path = some fields ∧
        FileField.derive value fields (joinPath path) = .ok new) ∨
      ∃ text, new = .str text ∧ singleReference? raw = none ∧
        spell (filler value property names) (pieces 0 raw.toList) = .ok text := by
  rw [substitute] at h
  split at h
  next path htokens =>
    obtain ⟨fields, hfields⟩ : ∃ fields, fieldsOf? property names path = some fields := by
      simpa [htokens, mentions, Option.isSome_iff_exists] using hmention
    rw [hfields] at h
    exact .inl ⟨path, fields, htokens, hfields, h⟩
  next hmany =>
    rw [if_neg (by simp [hmention, hvalue])] at h
    obtain ⟨texts, htexts, h⟩ := except_bind_eq_ok.mp h
    have hnone : singleReference? raw = none := by
      rw [singleReference?]
      split
      next path htokens => exact absurd htokens (hmany path)
      next => rfl
    refine .inr ⟨String.join texts, (Except.ok.inj h).symm, hnone, ?_⟩
    rw [← spellTokens_joinPieces, spellTokens, ← fillToken_eq]
    exact congrArg (Except.map String.join) htexts

/-- A reference that does not name the source is not seen, and all of the text gives way. -/
example : substitute "x-$\x7bout\x7d" (.str "a") "out" ["A"] = .ok (.str "a") ∧
    substitute "x-$\x7bA.out\x7d" (.str "a") "out" ["A"] = .ok (.str "x-a") := by
  constructor <;> rfl

end Merge

end Pipework
