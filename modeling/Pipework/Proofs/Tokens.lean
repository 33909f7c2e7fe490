import Pipework.Proofs.Insertion

/-!
# Tokens and the text they make up

The tokens of a template and its text determine each other. Tokens are those of some text just if all
their references can be written, no literal is empty or stands beside another one, and no literal has
a complete reference in it. Nothing has to be asked of what stands at the joints: a dollar sign is only
found where a reference begins, so what begins in a literal is not completed by a reference behind it.
-/

namespace Pipework

/-- Whether a token is text that stands for itself. -/
def Token.isLiteral : Token → Bool
  | .literal _ => true
  | .reference _ => false

namespace Template

/-- A complete reference stands somewhere in the text. -/
def HoldsReference (text : String) : Prop :=
  ∃ path, IsPath path ∧ (formatReference path).toList <:+: text.toList

/-- Tokens as they come of reading a text. -/
structure Proper (tokens : List Token) : Prop where
  /-- References can be written. -/
  paths : ∀ path, .reference path ∈ tokens → IsPath path
  /-- Literals are not empty. -/
  nonempty : ∀ text, .literal text ∈ tokens → text ≠ ""
  /-- No reference has been overlooked in a literal. -/
  plain : ∀ text, .literal text ∈ tokens → ¬ HoldsReference text
  /-- No literal stands beside another one. -/
  apart : tokens.IsChain fun first second => ¬ (first.isLiteral ∧ second.isLiteral)

/-- Tokens of a text behind the first are tokens of a text. -/
theorem Proper.tail {token : Token} {tokens : List Token} (h : Proper (token :: tokens)) :
    Proper tokens where
  paths path hp := h.paths path (List.mem_cons_of_mem _ hp)
  nonempty text ht := h.nonempty text (List.mem_cons_of_mem _ ht)
  plain text ht := h.plain text (List.mem_cons_of_mem _ ht)
  apart := by
    cases tokens with
    | nil => exact .nil
    | cons next tokens => exact (List.isChain_cons_cons.mp h.apart).2

/-- The pieces that a token is made of. -/
def piecesOf : Token → List Piece
  | .literal text => text.toList.map .char
  | .reference path => [.reference path]

/-- The pieces of a token make up its text. -/
theorem chars_piecesOf (token : Token) : (piecesOf token).flatMap Piece.chars = token.text.toList := by
  cases token with
  | literal text => simp [piecesOf, Token.text, Piece.chars, List.flatMap_map]
  | reference path => simp [piecesOf, Token.text, Piece.chars]

/-- Tokens are written as the pieces are that they are made of. -/
theorem chars_flatMap_piecesOf (tokens : List Token) :
    (tokens.flatMap piecesOf).flatMap Piece.chars = (textOf tokens).toList := by
  rw [textOf, String.toList_join, List.flatMap_map, List.flatMap_assoc]
  exact List.flatMap_congr fun token _ => chars_piecesOf token

/-- A character in front of tokens is a piece in front of theirs. -/
theorem piecesOf_pushChar (c : Char) (tokens : List Token) :
    (pushChar c tokens).flatMap piecesOf = .char c :: tokens.flatMap piecesOf := by
  match tokens with
  | [] | .reference _ :: _ => simp [pushChar, piecesOf]
  | .literal text :: tokens => simp [pushChar, piecesOf]

/-- Joining neighbouring characters keeps the pieces. -/
theorem piecesOf_joinPieces (found : List Piece) : (joinPieces found).flatMap piecesOf = found := by
  induction found with
  | nil => rfl
  | cons piece rest ih =>
    cases piece with
    | char c => rw [joinPieces, piecesOf_pushChar, ih]
    | reference path => rw [joinPieces, List.flatMap_cons, ih, piecesOf, List.singleton_append]

/-! ### Joining what was taken apart -/

/-- Characters in front of tokens that do not begin with a literal become one. -/
theorem joinPieces_chars {text : List Char} (hne : text ≠ []) {found : List Piece}
    (h : ∀ first ∈ (joinPieces found).head?, first.isLiteral = false) :
    joinPieces (text.map .char ++ found) = .literal (String.ofList text) :: joinPieces found := by
  induction text with
  | nil => cases hne rfl
  | cons c text ih =>
    rw [List.map_cons, List.cons_append, joinPieces]
    cases text with
    | nil =>
      rw [List.map_nil, List.nil_append]
      cases htokens : joinPieces found with
      | nil => rfl
      | cons first tokens =>
        rw [htokens] at h
        cases first with
        | literal other => cases h _ rfl
        | reference path => rfl
    | cons next text =>
      rw [ih (List.cons_ne_nil _ _), pushChar]
      refine congrArg (fun whole => Token.literal whole :: joinPieces found) ?_
      exact String.toList_inj.mp (by simp)

/-- Proper tokens come back when their pieces are joined. -/
theorem Proper.joinPieces {tokens : List Token} (h : Proper tokens) :
    joinPieces (tokens.flatMap piecesOf) = tokens := by
  induction tokens with
  | nil => rfl
  | cons token tokens ih =>
    rw [List.flatMap_cons]
    cases token with
    | reference path =>
      rw [piecesOf, List.singleton_append, Template.joinPieces, ih h.tail]
    | literal text =>
      have hne : text.toList ≠ [] := by
        simpa using h.nonempty text List.mem_cons_self
      have hfirst : ∀ first ∈ tokens.head?, first.isLiteral = false := by
        intro first hfirst
        obtain ⟨rest, rfl⟩ := List.head?_eq_some_iff.mp hfirst
        have hside := (List.isChain_cons_cons.mp h.apart).1
        exact eq_false_of_ne_true fun hliteral => hside ⟨rfl, hliteral⟩
      rw [piecesOf, joinPieces_chars hne (by rwa [ih h.tail]), ih h.tail, String.ofList_toList]

/-- A character in front makes no empty literal. -/
theorem nonempty_pushChar {c : Char} {tokens : List Token}
    (h : ∀ text, .literal text ∈ tokens → text ≠ "") :
    ∀ text, .literal text ∈ pushChar c tokens → text ≠ "" := by
  intro text ht
  match tokens with
  | [] | .reference _ :: _ =>
    rcases List.mem_cons.mp ht with heq | ht
    · rw [Token.literal.inj heq]
      exact String.singleton_ne_empty
    · exact h text ht
  | .literal other :: tokens =>
    rcases List.mem_cons.mp ht with heq | ht
    · rw [Token.literal.inj heq]
      simp
    · exact h text (List.mem_cons_of_mem _ ht)

/-- A character in front makes no two literals side by side. -/
theorem apart_pushChar {c : Char} {tokens : List Token}
    (h : tokens.IsChain fun first second => ¬ (first.isLiteral ∧ second.isLiteral)) :
    (pushChar c tokens).IsChain fun first second => ¬ (first.isLiteral ∧ second.isLiteral) := by
  match tokens with
  | [] => exact .singleton _
  | .reference path :: tokens => exact .cons_cons (by simp [Token.isLiteral]) h
  | [.literal text] => exact .singleton _
  | .literal text :: next :: tokens =>
    obtain ⟨hside, hrest⟩ := List.isChain_cons_cons.mp h
    exact .cons_cons hside hrest

/-- Joining leaves no literal empty and no two of them side by side. -/
theorem joinPieces_spec (found : List Piece) :
    (∀ text, .literal text ∈ joinPieces found → text ≠ "") ∧
      (joinPieces found).IsChain fun first second => ¬ (first.isLiteral ∧ second.isLiteral) := by
  induction found with
  | nil => exact ⟨nofun, .nil⟩
  | cons piece rest ih =>
    obtain ⟨hnonempty, hapart⟩ := ih
    cases piece with
    | char c => exact ⟨nonempty_pushChar hnonempty, apart_pushChar hapart⟩
    | reference path =>
      refine ⟨fun text ht => ?_, ?_⟩
      · exact hnonempty text ((List.mem_cons.mp ht).resolve_left nofun)
      · rw [joinPieces]
        cases htokens : joinPieces rest with
        | nil => exact .singleton _
        | cons next tokens => exact .cons_cons (by simp [Token.isLiteral]) (htokens ▸ hapart)

/-! ### Where references are found -/

/-- Where no dollar sign begins a reference, none does further on. -/
theorem Settled.of_append {front behind : List Piece} (h : Settled (front ++ behind)) :
    Settled behind := by
  induction front with
  | nil => exact h
  | cons piece front ih =>
    cases piece with
    | char c => exact ih h.2
    | reference path => exact ih h.2

/-- The text ends in the opening of a reference that is not closed in it. -/
def EndsOpen (text : List Char) : Prop :=
  ['$'] <:+ text ∨ ∃ body, (∀ c ∈ body, isPathChar c) ∧ '$' :: '{' :: body <:+ text

theorem EndsOpen.cons {text : List Char} (h : EndsOpen text) (c : Char) : EndsOpen (c :: text) := by
  rcases h with h | ⟨body, hbody, h⟩
  · exact .inl (h.trans (List.suffix_cons c text))
  · exact .inr ⟨body, hbody, h.trans (List.suffix_cons c text)⟩

/-- Where a reference is cut off, the first part is open. -/
theorem endsOpen_of_cut {path : List String} (hpath : IsPath path) {front excess : List Char}
    (hne : excess ≠ []) (h : '{' :: ((joinPath path).toList ++ ['}']) = front ++ excess) :
    EndsOpen ('$' :: front) := by
  cases front with
  | nil => exact .inl (List.suffix_refl _)
  | cons brace body =>
    obtain ⟨rfl, hbody⟩ := List.cons.inj h
    refine .inr ⟨body, fun c hc => ?_, List.suffix_refl _⟩
    have hlength := congrArg List.length hbody
    have hpos := List.length_pos_iff.mpr hne
    rw [List.append_eq, List.length_append, List.length_append, List.length_singleton] at hlength
    have hinitial : body <+: (joinPath path).toList :=
      List.prefix_of_prefix_length_le ⟨excess, hbody.symm⟩ (List.prefix_append _ _) (by omega)
    exact hpath.isPathChar c (hinitial.subset hc)

/-- A reference that begins in front of something is complete there, or it is cut off and goes on
behind, but not with a dollar sign. -/
theorem referenceAfterDollar?_append {front behind : List Char} {path : List String} {width : Nat}
    (h : referenceAfterDollar? (front ++ behind) = some (path, width)) :
    IsPath path ∧ ('{' :: ((joinPath path).toList ++ ['}']) <+: front ∨
      EndsOpen ('$' :: front) ∧ ∃ c ∈ behind.head?, c ≠ '$') := by
  obtain ⟨hpath, rest, heq, -⟩ := referenceAfterDollar?_eq_some.mp h
  refine ⟨hpath, ?_⟩
  have heq : front ++ behind = '{' :: ((joinPath path).toList ++ ['}']) ++ rest := by simp [heq]
  rcases List.append_eq_append_iff.mp heq with ⟨excess, hexcess, hrest⟩ | ⟨excess, hexcess, -⟩
  · cases excess with
    | nil => exact .inl ⟨[], by rw [hexcess, List.append_nil, List.append_nil]⟩
    | cons c excess =>
      refine .inr ⟨endsOpen_of_cut hpath (List.cons_ne_nil c excess) hexcess, c, by rw [hrest]; rfl, ?_⟩
      -- What is still missing does not begin with a dollar sign.
      rintro rfl
      have hmem : '$' ∈ '{' :: ((joinPath path).toList ++ ['}']) := by simp [hexcess]
      rw [List.mem_cons, List.mem_append, List.mem_singleton] at hmem
      rcases hmem with hmem | hmem | hmem
      · cases hmem
      · exact absurd (hpath.isPathChar _ hmem) (by decide)
      · cases hmem
  · exact .inl ⟨excess, hexcess.symm⟩

/-- The characters of a literal begin no reference, as long as no reference is complete in it and it
ends at a dollar sign or at the end, or not in an opening. -/
theorem settled_literal {text : List Char} {rest : List Piece}
    (hplain : ∀ path, IsPath path → ¬ (formatReference path).toList <:+: text)
    (hrest : Settled rest)
    (hbehind : (∀ c ∈ (rest.flatMap Piece.chars).head?, c = '$') ∨ ¬ EndsOpen text) :
    Settled (text.map .char ++ rest) := by
  induction text with
  | nil => exact hrest
  | cons c text ih =>
    refine ⟨fun hc => ?_, ih (fun path hpath hinside => ?_) ?_⟩
    · rw [List.append_eq, List.flatMap_append, List.flatMap_map]
      cases hread : referenceAfterDollar? _ with
      | none => rfl
      | some found =>
        have hchars : (text.flatMap fun c => (Piece.char c).chars) = text := by
          simp [Piece.chars]
        rw [hchars] at hread
        obtain ⟨hpath, hprefix | ⟨hopen, d, hd, hne⟩⟩ := referenceAfterDollar?_append hread
        · refine absurd ?_ (hplain found.1 hpath)
          rw [hc, toList_formatReference]
          exact (List.cons_prefix_cons.mpr ⟨rfl, hprefix⟩).isInfix
        · rcases hbehind with hdollar | hclosed
          · exact absurd (hdollar d hd) hne
          · exact absurd hopen (hc ▸ hclosed)
    · exact hplain path hpath (hinside.trans (List.suffix_cons c text).isInfix)
    · exact hbehind.imp_right fun hclosed hopen => hclosed (hopen.cons c)

/-- The pieces of proper tokens are found again in the text of the tokens. -/
theorem Proper.settled {tokens : List Token} (h : Proper tokens) :
    Settled (tokens.flatMap piecesOf) := by
  induction tokens with
  | nil => trivial
  | cons token tokens ih =>
    rw [List.flatMap_cons]
    cases token with
    | reference path => exact ⟨h.paths path List.mem_cons_self, ih h.tail⟩
    | literal text =>
      refine settled_literal (fun path hpath hinside => ?_) (ih h.tail) (.inl fun c hc => ?_)
      · exact h.plain text List.mem_cons_self ⟨path, hpath, hinside⟩
      · cases tokens with
        | nil => cases hc
        | cons next tokens =>
          cases next with
          | literal other =>
            exact absurd ⟨rfl, rfl⟩ (List.isChain_cons_cons.mp h.apart).1
          | reference path =>
            rw [List.flatMap_cons, piecesOf, List.singleton_append, List.flatMap_cons, Piece.chars,
              toList_formatReference, List.cons_append, List.head?_cons] at hc
            exact (Option.some.inj hc).symm

/-- No reference is passed over when a text is read. -/
theorem not_holdsReference_of_settled {tokens : List Token} (h : Settled (tokens.flatMap piecesOf))
    {text : String} (ht : .literal text ∈ tokens) : ¬ HoldsReference text := by
  rintro ⟨path, hpath, front, behind, heq⟩
  obtain ⟨before, later, rfl⟩ := List.append_of_mem ht
  have hpieces : (before ++ .literal text :: later).flatMap piecesOf =
      (before.flatMap piecesOf ++ front.map .char) ++ .char '$' ::
        (('{' :: ((joinPath path).toList ++ '}' :: behind)).map .char ++ later.flatMap piecesOf) := by
    rw [toList_formatReference] at heq
    simp [piecesOf, ← heq]
  rw [hpieces] at h
  have hnone := h.of_append.1 rfl
  have hread := referenceAfterDollar?_eq_some.mpr
    ⟨hpath, behind ++ (later.flatMap piecesOf).flatMap Piece.chars, rfl, rfl⟩
  rw [List.flatMap_append, List.flatMap_map] at hnone
  simp [Piece.chars, hread] at hnone

/-- The tokens of a text are proper and make up the text. -/
theorem tokenize_spec (text : String) :
    Proper (tokenize text) ∧ textOf (tokenize text) = text := by
  obtain ⟨hmade, hsettled⟩ := pieces_spec text.toList
  have hpieces : (tokenize text).flatMap piecesOf = pieces 0 text.toList :=
    piecesOf_joinPieces _
  obtain ⟨hnonempty, hapart⟩ := joinPieces_spec (pieces 0 text.toList)
  rw [← hpieces] at hsettled
  refine ⟨⟨fun path hp => ?_, hnonempty, fun other ht => ?_, hapart⟩, ?_⟩
  · refine isPath_of_settled hsettled (List.mem_flatMap.mpr ⟨_, hp, ?_⟩)
    exact List.mem_singleton_self _
  · exact not_holdsReference_of_settled hsettled ht
  · rw [← String.toList_inj, ← chars_flatMap_piecesOf, hpieces, hmade]

/-- Proper tokens are found again in their text. -/
theorem Proper.tokenize_textOf {tokens : List Token} (h : Proper tokens) :
    tokenize (textOf tokens) = tokens := by
  rw [tokenize, ← chars_flatMap_piecesOf, pieces_of_settled h.settled, h.joinPieces]

/-- A reference alone is the token of a text if it can be written. -/
theorem proper_reference {path : List String} : Proper [.reference path] ↔ IsPath path where
  mp h := h.paths path List.mem_cons_self
  mpr h := {
    paths := by simpa using h
    nonempty := by simp
    plain := by simp
    apart := .singleton _ }

/-- **Reading and writing.** Tokens are those of a text just if they are proper and make up the text.
In particular a text is one reference and nothing else just if it is written as one. -/
theorem tokenize_eq_iff (text : String) (tokens : List Token) (path : List String) :
    (tokenize text = tokens ↔ Proper tokens ∧ textOf tokens = text) ∧
      (singleReference? text = some path ↔ IsPath path ∧ text = formatReference path) := by
  have hiff : ∀ tokens, tokenize text = tokens ↔ Proper tokens ∧ textOf tokens = text := by
    refine fun tokens => ⟨?_, ?_⟩
    · rintro rfl
      exact tokenize_spec text
    · rintro ⟨hproper, rfl⟩
      exact hproper.tokenize_textOf
  have hsingle : singleReference? text = some path ↔ tokenize text = [.reference path] := by
    rw [singleReference?_eq_some]
    refine ⟨fun hpieces => ?_, joinPieces_eq_reference⟩
    rw [tokenize, hpieces]
    rfl
  refine ⟨hiff tokens, ?_⟩
  have hmade : textOf [.reference path] = formatReference path := by simp [textOf, Token.text]
  rw [hsingle, hiff, proper_reference, hmade, eq_comm (a := text)]

end Template

end Pipework
