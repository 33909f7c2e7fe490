import Mathlib.Data.List.Chain
import Pipework.Proofs.Tokens

/-!
# Text with a value put in

Where a value is put into a text, it runs together with the literals beside it. Read again, the new text
has just the other references that were there before, as long as no reference comes about in what has
run together. None does if the value has no dollar sign and no literal before it ends in an opening that
is not closed; but such an opening may be closed by the value and what follows it.
-/

namespace Pipework

namespace Template

/-- Tokens with literals side by side joined, and empty ones left out. -/
def fuse (tokens : List Token) : List Token := joinPieces (tokens.flatMap piecesOf)

theorem textOf_fuse (tokens : List Token) : textOf (fuse tokens) = textOf tokens := by
  rw [← String.toList_inj, ← chars_flatMap_piecesOf, fuse, piecesOf_joinPieces, chars_flatMap_piecesOf]

/-- Joining literals leaves the references, and no others. -/
theorem filterMap_fuse (tokens : List Token) :
    (fuse tokens).filterMap Token.path? = tokens.filterMap Token.path? := by
  have hchars : ∀ (text : List Char) (found : List Piece),
      (joinPieces (text.map .char ++ found)).filterMap Token.path? =
        (joinPieces found).filterMap Token.path? := by
    intro text found
    induction text with
    | nil => rfl
    | cons c text ih =>
      rw [List.map_cons, List.cons_append, joinPieces, filterMap_pushChar, ih]
  rw [fuse]
  induction tokens with
  | nil => rfl
  | cons token tokens ih =>
    rw [List.flatMap_cons]
    cases token with
    | literal text => rw [piecesOf, hchars, ih]; rfl
    | reference path =>
      rw [piecesOf, List.singleton_append, joinPieces, List.filterMap_cons, ih]
      rfl

/-- Tokens whose references can be written are found again in their text, apart from how it falls into
literals, just if no literal has a complete reference in it. -/
theorem tokenize_textOf_iff {tokens : List Token}
    (hpaths : ∀ path, .reference path ∈ tokens → IsPath path) :
    tokenize (textOf tokens) = fuse tokens ↔
      ∀ text, .literal text ∈ fuse tokens → ¬ HoldsReference text := by
  constructor
  · intro h
    rw [← h]
    exact (tokenize_spec _).1.plain
  · intro hplain
    obtain ⟨hnonempty, hapart⟩ := joinPieces_spec (tokens.flatMap piecesOf)
    have hpaths : ∀ path, .reference path ∈ fuse tokens → IsPath path := by
      intro path hp
      have hmem : path ∈ (fuse tokens).filterMap Token.path? := List.mem_filterMap.mpr ⟨_, hp, rfl⟩
      rw [filterMap_fuse, List.mem_filterMap] at hmem
      obtain ⟨token, htoken, heq⟩ := hmem
      cases token with
      | literal _ => cases heq
      | reference other => exact Option.some.inj heq ▸ hpaths other htoken
    have hproper : Proper (fuse tokens) := ⟨hpaths, hnonempty, hplain, hapart⟩
    rw [← textOf_fuse, hproper.tokenize_textOf]

/-- Characters none of which is a dollar sign begin no reference. -/
theorem settled_plain {text : List Char} {rest : List Piece} (htext : '$' ∉ text)
    (hrest : Settled rest) : Settled (text.map .char ++ rest) := by
  induction text with
  | nil => exact hrest
  | cons c text ih =>
    rw [List.mem_cons, not_or] at htext
    exact ⟨fun hc => absurd hc.symm htext.1, ih htext.2⟩

end Template

namespace Merge

open Template

/-- What stands in the place of a token when the value has been put in for the references to the
output: for these, the part of the value that they ask for. -/
inductive Replaced (value : Value) (property : String) (names : List String) : Token → Token → Prop
  | literal (text : String) : Replaced value property names (.literal text) (.literal text)
  | other {path : List String} (h : fieldsOf? property names path = none) :
      Replaced value property names (.reference path) (.reference path)
  | source {path fields : List String} {part : Value} (h : fieldsOf? property names path = some fields)
      (hpart : FileField.derive value fields (joinPath path) = .ok part) :
      Replaced value property names (.reference path) (.literal part.render)

/-- No literal ends in an opening that is not closed if a reference to the output follows it. -/
def Guarded (property : String) (names : List String) (tokens : List Token) : Prop :=
  tokens.IsChain fun first second => mentions property names second = true →
    ∀ text, first = .literal text → ¬ EndsOpen text.toList

variable {value : Value} {property : String} {names : List String} {before after : List Token}

theorem exists_replaced {texts : List String}
    (h : before.mapM (fillToken value property names) = .ok texts) :
    ∃ after, List.Forall₂ (Replaced value property names) before after ∧
      texts = after.map Token.text := by
  induction before generalizing texts with
  | nil =>
    obtain rfl := Except.ok.inj h
    exact ⟨[], .nil, rfl⟩
  | cons token tokens ih =>
    rw [List.mapM_cons] at h
    obtain ⟨text, htext, h⟩ := except_bind_eq_ok.mp h
    obtain ⟨others, hothers, h⟩ := except_bind_eq_ok.mp h
    obtain rfl := Except.ok.inj h
    obtain ⟨after, hafter, rfl⟩ := ih hothers
    rw [fillToken.eq_def] at htext
    split at htext
    next literal =>
      obtain rfl := Except.ok.inj htext
      exact ⟨.literal literal :: after, .cons (.literal literal) hafter, rfl⟩
    next path =>
      split at htext
      next fields hfields =>
        obtain ⟨part, hpart, htext⟩ := except_bind_eq_ok.mp htext
        obtain rfl := Except.ok.inj htext
        exact ⟨.literal part.render :: after, .cons (.source hfields hpart) hafter, rfl⟩
      next hfields =>
        obtain rfl := Except.ok.inj htext
        exact ⟨.reference path :: after, .cons (.other hfields) hafter, rfl⟩

/-- The references that are left are the other ones. -/
theorem filterMap_of_replaced (h : List.Forall₂ (Replaced value property names) before after) :
    after.filterMap Token.path? = (before.filterMap Token.path?).filter fun path =>
      (fieldsOf? property names path).isNone := by
  induction h with
  | nil => rfl
  | cons hfirst _ ih =>
    cases hfirst with
    | literal text => exact ih
    | other hother => simp [Token.path?, hother, ih]
    | source hfields _ =>
      rw [List.filterMap_cons_none rfl, ih, List.filterMap_cons]
      simp [Token.path?, hfields]

theorem isPath_of_replaced (hproper : Proper before)
    (h : List.Forall₂ (Replaced value property names) before after) {path : List String}
    (hp : .reference path ∈ after) : IsPath path := by
  have hmem : path ∈ after.filterMap Token.path? := List.mem_filterMap.mpr ⟨_, hp, rfl⟩
  rw [filterMap_of_replaced h, List.mem_filter, List.mem_filterMap] at hmem
  obtain ⟨⟨token, htoken, heq⟩, -⟩ := hmem
  cases token with
  | literal _ => cases heq
  | reference other => exact Option.some.inj heq ▸ hproper.paths other htoken

/-- Nothing that is put in is taken for the rest of a reference, and so all pieces are found again. -/
theorem settled_of_guarded (hvalue : value.isList = false) (hdollar : '$' ∉ value.render.toList)
    (hproper : Proper before) (hguarded : Guarded property names before)
    (h : List.Forall₂ (Replaced value property names) before after) :
    Settled (after.flatMap piecesOf) := by
  induction h with
  | nil => trivial
  | @cons token token' tokens tokens' hfirst hrest ih =>
    have hsettled := ih hproper.tail hguarded.tail
    rw [List.flatMap_cons]
    cases hfirst with
    | other _ => exact ⟨hproper.paths _ List.mem_cons_self, hsettled⟩
    | source _ hpart =>
      refine settled_plain (fun hmem => hdollar ?_) hsettled
      exact FileField.render_subset_of_derive hvalue hpart hmem
    | literal text =>
      refine settled_literal (fun path hpath hinside => ?_) hsettled ?_
      · exact hproper.plain text List.mem_cons_self ⟨path, hpath, hinside⟩
      · cases hrest with
        | nil => exact .inl nofun
        | cons hnext _ =>
          cases hnext with
          | literal other => exact absurd ⟨rfl, rfl⟩ (List.isChain_cons_cons.mp hproper.apart).1
          | other _ =>
            refine .inl fun c hc => ?_
            rw [List.flatMap_cons, piecesOf, List.singleton_append, List.flatMap_cons, Piece.chars,
              toList_formatReference, List.cons_append, List.head?_cons] at hc
            exact (Option.some.inj hc).symm
          | source hfields _ =>
            refine .inr ((List.isChain_cons_cons.mp hguarded).1 ?_ text rfl)
            rw [mentions, hfields]
            rfl

/-- What ends in a character that no opening has is not open. -/
theorem not_endsOpen_append {text : List Char} {c : Char} (hdollar : c ≠ '$') (hbrace : c ≠ '{')
    (hc : isPathChar c = false) : ¬ EndsOpen (text ++ [c]) := by
  rintro (⟨front, h⟩ | ⟨body, hbody, front, h⟩)
  · exact hdollar (List.singleton_inj.mp (List.append_inj_right' h rfl)).symm
  · have hlast := congrArg List.getLast? h
    rw [List.getLast?_append, List.getLast?_append] at hlast
    cases hrest : body.getLast? with
    | none => simp [List.getLast?_cons, hrest] at hlast; exact hbrace hlast.symm
    | some last =>
      obtain rfl : last = c := by simpa [List.getLast?_cons, hrest] using hlast
      rw [hbody last (List.mem_of_getLast? hrest)] at hc
      cases hc

/-- **Putting a value in.** A text that mentions an output, and is more than one reference, becomes what
its tokens make up with the value, or the part that is asked for, in the place of every reference to the
output. Read again, it has the other references as they were, in order and no more, and between them the
literal text as it has run together, just if no complete reference stands in that text. This is so if
the value is written without a dollar sign and no literal in front of a reference to the output ends in
an opening that is not closed. -/
theorem substitute_exact {raw : String} {result : Value} (hvalue : value.isList = false)
    (hmentions : ∃ path ∈ references raw, (fieldsOf? property names path).isSome)
    (hsingle : singleReference? raw = none) (h : substitute raw value property names = .ok result) :
    ∃ tokens, List.Forall₂ (Replaced value property names) (tokenize raw) tokens ∧
      result = .str (textOf tokens) ∧
      (fuse tokens).filterMap Token.path? =
        (references raw).filter (fun path => (fieldsOf? property names path).isNone) ∧
      (tokenize (textOf tokens) = fuse tokens ↔
        ∀ text, .literal text ∈ fuse tokens → ¬ HoldsReference text) ∧
      ('$' ∉ value.render.toList → Guarded property names (tokenize raw) →
        tokenize (textOf tokens) = fuse tokens) := by
  have hany : (tokenize raw).any (mentions property names) := by
    obtain ⟨path, hp, hfields⟩ := hmentions
    obtain ⟨token, htoken, hpath⟩ := List.mem_filterMap.mp hp
    refine List.any_eq_true.mpr ⟨token, htoken, ?_⟩
    cases token with
    | literal _ => cases hpath
    | reference other => exact Option.some.inj hpath ▸ hfields
  rw [substitute] at h
  split at h
  next path htokens => rw [singleReference?, htokens] at hsingle; cases hsingle
  next =>
    rw [if_neg (by simp [hany, hvalue])] at h
    obtain ⟨texts, htexts, h⟩ := except_bind_eq_ok.mp h
    obtain ⟨tokens, hreplaced, rfl⟩ := exists_replaced htexts
    have hproper := (tokenize_spec raw).1
    have hpaths : ∀ path, .reference path ∈ tokens → IsPath path := fun path hp =>
      isPath_of_replaced hproper hreplaced hp
    refine ⟨tokens, hreplaced, (Except.ok.inj h).symm, ?_, tokenize_textOf_iff hpaths, ?_⟩
    · rw [filterMap_fuse, filterMap_of_replaced hreplaced, references]
    · intro hdollar hguarded
      have hsettled := settled_of_guarded hvalue hdollar hproper hguarded hreplaced
      rw [tokenize, ← chars_flatMap_piecesOf, pieces_of_settled hsettled, fuse]

/-- A name is put in, and the reference behind it is left. -/
theorem index_is_named : ∃ tokens,
    Value.str "--in x.idx $\x7bother\x7d" = .str (textOf tokens) ∧
      tokenize (textOf tokens) = fuse tokens ∧
      (fuse tokens).filterMap Token.path? = [["other"]] := by
  have hput : substitute "--in $\x7bA.out.name\x7d.idx $\x7bother\x7d" (.str "/data/x.bam") "out" ["A"] =
      .ok (.str "--in x.idx $\x7bother\x7d") := by decide +kernel
  obtain ⟨tokens, -, htext, hreferences, -, hguarded⟩ := substitute_exact rfl
    ⟨["A", "out", "name"], by decide +kernel, rfl⟩ (by decide +kernel) hput
  refine ⟨tokens, htext, hguarded (by decide +kernel) ?_, hreferences.trans (by decide +kernel)⟩
  have htokens : tokenize "--in $\x7bA.out.name\x7d.idx $\x7bother\x7d" =
      [.literal "--in ", .reference ["A", "out", "name"], .literal ".idx ", .reference ["other"]] := by
    decide +kernel
  rw [htokens]
  refine .cons_cons (fun _ text heq => ?_) (.cons_cons nofun (.cons_cons nofun (.singleton _)))
  rw [← Token.literal.inj heq, show "--in ".toList = "--in".toList ++ [' '] by decide]
  exact not_endsOpen_append (by decide) (by decide) (by decide)

/-- A value put in between an opening and a closing brace makes a reference of its own of them. -/
theorem braces_take_in_a_value : ∃ text,
    substitute "$\x7b$\x7bA.out\x7d\x7d" (.str "b") "out" ["A"] = .ok (.str text) ∧
      singleReference? "$\x7b$\x7bA.out\x7d\x7d" = none ∧ references text = [["b"]] ∧
      (references "$\x7b$\x7bA.out\x7d\x7d").filter
        (fun path => (fieldsOf? "out" ["A"] path).isNone) = [] :=
  ⟨"$\x7bb\x7d", by decide +kernel⟩

end Merge

end Pipework
