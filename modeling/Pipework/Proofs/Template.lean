import Mathlib.Data.List.TakeWhile
import Pipework.Template

/-!
# The text of templates

What is found in a text, piece by piece, and the text determine each other. Every reference that is
found is one that can be written, and a list of pieces is what is found in its own text if none of
its dollar signs begins a reference there.
-/

namespace Pipework

section Parting

variable {p : Char → Bool} {front behind : List Char}

theorem eq_false_of_mem_head?_dropWhile {l : List Char} {c : Char}
    (h : c ∈ (l.dropWhile p).head?) : p c = false := by
  have hnot := List.head?_dropWhile_not p l
  rw [Option.mem_def.mp h] at hnot
  exact hnot

/-- What is taken from the front of a text stops where the next part begins. -/
theorem takeWhile_append_stop (hf : ∀ c ∈ front, p c) (hb : ∀ c ∈ behind.head?, p c = false) :
    (front ++ behind).takeWhile p = front := by
  rw [List.takeWhile_append_of_pos hf]
  cases behind with
  | nil => simp
  | cons c behind => rw [List.takeWhile_cons_of_neg (by simp [hb c rfl]), List.append_nil]

/-- What is left behind the front of a text begins with the next part. -/
theorem dropWhile_append_stop (hf : ∀ c ∈ front, p c) (hb : ∀ c ∈ behind.head?, p c = false) :
    (front ++ behind).dropWhile p = behind := by
  rw [List.dropWhile_append_of_pos hf]
  cases behind with
  | nil => rfl
  | cons c behind => rw [List.dropWhile_cons_of_neg (by simp [hb c rfl])]

/-- The parts of a list between separators hold its other elements. -/
theorem mem_of_mem_splitOn {a : Char} {l part : List Char} (h : part ∈ l.splitOn a) :
    ∀ c ∈ part, c ∈ l ∧ c ≠ a := by
  induction l generalizing part with
  | nil => simp_all
  | cons first rest ih =>
    rw [List.splitOn_cons_eq_if_modifyHead] at h
    split at h
    · intro c hc
      rcases List.mem_cons.mp h with rfl | h
      · cases hc
      · obtain ⟨hmem, hne⟩ := ih h c hc
        exact ⟨List.mem_cons_of_mem _ hmem, hne⟩
    next hfirst =>
      obtain ⟨head, parts, hparts⟩ := List.exists_cons_of_ne_nil (List.splitOn_ne_nil a rest)
      rw [hparts, List.modifyHead_cons] at h
      intro c hc
      rcases List.mem_cons.mp h with rfl | h
      · rcases List.mem_cons.mp hc with rfl | hc
        · exact ⟨List.mem_cons_self, by simpa using hfirst⟩
        · obtain ⟨hmem, hne⟩ := ih (hparts ▸ List.mem_cons_self) c hc
          exact ⟨List.mem_cons_of_mem _ hmem, hne⟩
      · obtain ⟨hmem, hne⟩ := ih (hparts ▸ List.mem_cons_of_mem _ h) c hc
        exact ⟨List.mem_cons_of_mem _ hmem, hne⟩

/-- Parts put together again hold their own elements and separators. -/
theorem mem_intercalate {a c : Char} {parts : List (List Char)} (h : c ∈ [a].intercalate parts) :
    c = a ∨ ∃ part ∈ parts, c ∈ part := by
  induction parts with
  | nil => simp at h
  | cons part parts ih =>
    cases parts with
    | nil => exact .inr ⟨part, by simp, by simpa using h⟩
    | cons next parts =>
      rw [List.intercalate_cons_cons, List.mem_append, List.mem_append, List.mem_singleton] at h
      rcases h with (h | h) | h
      · exact .inr ⟨part, List.mem_cons_self, h⟩
      · exact .inl h
      · refine (ih h).imp_right ?_
        rintro ⟨other, hother, hc⟩
        exact ⟨other, List.mem_cons_of_mem _ hother, hc⟩

end Parting

namespace Template

/-- The segments of a path can be written as a reference. -/
structure IsPath (path : List String) : Prop where
  /-- There are some. -/
  ne_nil : path ≠ []
  /-- None is empty. -/
  ne_empty : ∀ segment ∈ path, segment ≠ ""
  /-- They have only characters that are fit for segments. -/
  chars : ∀ segment ∈ path, ∀ c ∈ segment.toList, isSegmentChar c

/-- A path is written with a dot between its names. -/
theorem toList_joinPath (path : List String) :
    (joinPath path).toList = ['.'].intercalate (path.map String.toList) := by
  rw [joinPath, String.toList_intercalate]
  rfl

/-- A reference is written as its path in braces, behind a dollar sign. -/
theorem toList_formatReference (path : List String) :
    (formatReference path).toList = '$' :: '{' :: ((joinPath path).toList ++ ['}']) := by
  simp [formatReference]

/-- A path that can be written consists of characters of names and dots. -/
theorem IsPath.isPathChar {path : List String} (h : IsPath path) :
    ∀ c ∈ (joinPath path).toList, isPathChar c := by
  intro c hc
  rw [toList_joinPath] at hc
  rw [Template.isPathChar, Bool.or_eq_true]
  rcases mem_intercalate hc with rfl | ⟨part, hpart, hc⟩
  · exact .inr (by decide)
  · obtain ⟨segment, hsegment, rfl⟩ := List.mem_map.mp hpart
    exact .inl (h.chars segment hsegment c hc)

/-- A path that can be written is cut into its names at its dots. -/
theorem IsPath.splitOn {path : List String} (h : IsPath path) :
    (joinPath path).toList.splitOn '.' = path.map String.toList := by
  rw [toList_joinPath]
  refine List.splitOn_intercalate '.' (fun part hpart hdot => ?_) (by simpa using h.ne_nil)
  obtain ⟨segment, hsegment, rfl⟩ := List.mem_map.mp hpart
  exact absurd (h.chars segment hsegment '.' hdot) (by decide)

/-- The parts of a text without characters that are unfit for paths make up a path, if none of them
is empty. -/
theorem isPath_splitOn {body : List Char} (hchars : ∀ c ∈ body, Template.isPathChar c)
    (hparts : ∀ part ∈ body.splitOn '.', part ≠ []) :
    IsPath ((body.splitOn '.').map String.ofList) where
  ne_nil := by simp
  ne_empty segment hsegment := by
    obtain ⟨part, hpart, rfl⟩ := List.mem_map.mp hsegment
    simpa using hparts part hpart
  chars segment hsegment c hc := by
    obtain ⟨part, hpart, rfl⟩ := List.mem_map.mp hsegment
    obtain ⟨hmem, hne⟩ := mem_of_mem_splitOn hpart c (by simpa using hc)
    have hfit := hchars c hmem
    rw [Template.isPathChar, Bool.or_eq_true, beq_iff_eq] at hfit
    exact hfit.resolve_right hne

/-- What is cut at its dots is joined to what it was. -/
theorem joinPath_splitOn (body : List Char) :
    (joinPath ((body.splitOn '.').map String.ofList)).toList = body := by
  rw [toList_joinPath, List.map_map]
  have hsame : (String.toList ∘ String.ofList) = id := funext fun _ => String.toList_ofList
  rw [hsame, List.map_id, List.intercalate_splitOn]

/-- The reader for references takes what can be written as one, and nothing else. -/
theorem referenceAfterDollar?_eq_some {rest : List Char} {path : List String} {width : Nat} :
    referenceAfterDollar? rest = some (path, width) ↔ IsPath path ∧
      ∃ behind, rest = '{' :: ((joinPath path).toList ++ '}' :: behind) ∧
        width = (joinPath path).toList.length + 2 := by
  constructor
  · intro h
    rw [referenceAfterDollar?.eq_def] at h
    split at h
    next inner =>
      dsimp only at h
      split at h
      next htest =>
        obtain ⟨hclose, hparts⟩ := htest
        obtain ⟨rfl, rfl⟩ := Prod.mk.inj (Option.some.inj h)
        have hchars : ∀ c ∈ inner.takeWhile Template.isPathChar, Template.isPathChar c :=
          fun c hc => List.mem_takeWhile_imp hc
        refine ⟨isPath_splitOn hchars (by simpa using hparts), ?_⟩
        obtain ⟨behind, hbehind⟩ := List.head?_eq_some_iff.mp hclose
        refine ⟨behind, ?_, ?_⟩ <;> rw [joinPath_splitOn]
        rw [← hbehind, List.takeWhile_append_dropWhile]
      next => cases h
    next => cases h
  · rintro ⟨hpath, behind, rfl, rfl⟩
    have hstop : ∀ c ∈ ('}' :: behind).head?, Template.isPathChar c = false := by
      rintro c ⟨⟩
      decide
    rw [referenceAfterDollar?, takeWhile_append_stop hpath.isPathChar hstop,
      dropWhile_append_stop hpath.isPathChar hstop, hpath.splitOn]
    have hparts : (path.map String.toList).all (· ≠ []) = true := by
      simpa using hpath.ne_empty
    rw [if_pos ⟨rfl, hparts⟩, List.map_map]
    have hsame : (String.ofList ∘ String.toList) = id := funext fun _ => String.ofList_toList
    rw [hsame, List.map_id]

/-- The characters that a piece is written with. -/
def Piece.chars : Piece → List Char
  | .char c => [c]
  | .reference path => (formatReference path).toList

/-- References can be written, and no dollar sign that stands for itself begins one. -/
def Settled : List Piece → Prop
  | [] => True
  | .char c :: rest =>
    (c = '$' → referenceAfterDollar? (rest.flatMap Piece.chars) = none) ∧ Settled rest
  | .reference path :: rest => IsPath path ∧ Settled rest

/-- To skip some characters means to go on with what is behind them. -/
theorem pieces_drop (skip : Nat) (text : List Char) :
    pieces skip text = pieces 0 (text.drop skip) := by
  induction text generalizing skip with
  | nil => cases skip <;> rfl
  | cons c rest ih =>
    cases skip with
    | zero => rfl
    | succ skip => exact ih skip

/-- One step of the scan: a reference is taken as a whole, and anything else as it is. -/
theorem pieces_cons (c : Char) (rest : List Char) :
    (∃ path behind, IsPath path ∧ c :: rest = (formatReference path).toList ++ behind ∧
        pieces 0 (c :: rest) = .reference path :: pieces 0 behind) ∨
      ((c = '$' → referenceAfterDollar? rest = none) ∧
        pieces 0 (c :: rest) = .char c :: pieces 0 rest) := by
  cases hfound : (if c = '$' then referenceAfterDollar? rest else none) with
  | none =>
    refine .inr ⟨fun hc => ?_, by rw [pieces, hfound]⟩
    rwa [if_pos hc] at hfound
  | some found =>
    obtain ⟨path, width⟩ := found
    have hc : c = '$' := by
      by_contra hne
      rw [if_neg hne] at hfound
      cases hfound
    have hread := hfound
    rw [if_pos hc] at hread
    obtain ⟨hpath, behind, rfl, rfl⟩ := referenceAfterDollar?_eq_some.mp hread
    refine .inl ⟨path, behind, hpath, ?_, ?_⟩
    · rw [toList_formatReference, hc]
      simp
    · rw [pieces, hfound]
      dsimp only
      rw [pieces_drop]
      simp

/-- What is found in a text makes up the text, and none of its dollar signs was passed over. -/
theorem pieces_spec (text : List Char) :
    (pieces 0 text).flatMap Piece.chars = text ∧ Settled (pieces 0 text) := by
  induction hlength : text.length using Nat.strong_induction_on generalizing text with
  | _ length ih =>
    subst hlength
    cases text with
    | nil => exact ⟨rfl, trivial⟩
    | cons c rest =>
      rcases pieces_cons c rest with ⟨path, behind, hpath, htext, hpieces⟩ | ⟨hno, hpieces⟩
      · have hshorter : behind.length < (c :: rest).length := by
          rw [htext, toList_formatReference]
          simp
          omega
        obtain ⟨hmade, hsettled⟩ := ih _ hshorter behind rfl
        rw [hpieces, List.flatMap_cons, hmade]
        exact ⟨htext.symm, hpath, hsettled⟩
      · obtain ⟨hmade, hsettled⟩ := ih _ (Nat.lt_succ_self _) rest rfl
        rw [hpieces, List.flatMap_cons, hmade]
        exact ⟨rfl, by rwa [hmade], hsettled⟩

/-- Settled pieces are what is found in their text. -/
theorem pieces_of_settled {found : List Piece} (h : Settled found) :
    pieces 0 (found.flatMap Piece.chars) = found := by
  induction found with
  | nil => rfl
  | cons piece rest ih =>
    cases piece with
    | char c =>
      obtain ⟨hno, hrest⟩ := h
      have hnone : (if c = '$' then referenceAfterDollar? (rest.flatMap Piece.chars) else none) =
          none := by
        split
        next hc => exact hno hc
        next => rfl
      rw [List.flatMap_cons, Piece.chars, List.singleton_append, pieces, hnone]
      dsimp only
      rw [ih hrest]
    | reference path =>
      obtain ⟨hpath, hrest⟩ := h
      have hread := referenceAfterDollar?_eq_some.mpr
        ⟨hpath, rest.flatMap Piece.chars, rfl, rfl⟩
      rw [List.flatMap_cons, Piece.chars, toList_formatReference, List.cons_append,
        List.cons_append, List.append_assoc, List.singleton_append, pieces, if_pos rfl, hread]
      dsimp only
      rw [pieces_drop]
      simp [ih hrest]

/-- A text that is one reference has it as its only token. -/
theorem tokenize_of_singleReference? {text : String} {path : List String}
    (h : singleReference? text = some path) : tokenize text = [.reference path] := by
  rw [singleReference?] at h
  split at h
  next only htokens => rw [htokens, Option.some.inj h]
  next => cases h

/-- A text that is one reference has no other. -/
theorem references_of_singleReference? {text : String} {path : List String}
    (h : singleReference? text = some path) : references text = [path] := by
  rw [references, tokenize_of_singleReference? h]
  rfl

end Template

end Pipework
