import Pipework.Proofs.Filling

/-!
# Replacing references one output at a time

The references in a text are replaced output by output, and in between the text holds some of them
still. What it comes to stays the same all along, if nothing in what it comes to can be taken for a
reference: then nothing that is put in can be taken for one either. Only a text that is left with
one reference and nothing else could become a value that is no text.
-/

namespace Pipework

open Step

namespace Template

theorem joinPieces_eq_reference {found : List Piece} {path : List String}
    (h : joinPieces found = [.reference path]) : found = [.reference path] := by
  cases found with
  | nil => cases h
  | cons piece rest =>
    cases piece with
    | char c =>
      rw [joinPieces] at h
      cases hrest : joinPieces rest with
      | nil => simp [hrest, pushChar] at h
      | cons token tokens => cases token <;> simp [hrest, pushChar] at h
    | reference other =>
      obtain ⟨hother, hrest⟩ := List.cons.inj h
      have hnil : rest = [] := by
        cases rest with
        | nil => rfl
        | cons piece rest =>
          cases piece with
          | char c =>
            rw [joinPieces] at hrest
            cases htokens : joinPieces rest with
            | nil => simp [htokens, pushChar] at hrest
            | cons token tokens => cases token <;> simp [htokens, pushChar] at hrest
          | reference _ => cases hrest
      rw [Token.reference.inj hother, hnil]

/-- A text is one reference if that is the one piece that is found in it. -/
theorem singleReference?_eq_some {text : String} {path : List String} :
    singleReference? text = some path ↔ pieces 0 text.toList = [.reference path] := by
  rw [singleReference?, tokenize]
  constructor
  · intro h
    split at h
    next found htokens => rw [joinPieces_eq_reference htokens, Option.some.inj h]
    next => cases h
  · intro h
    rw [h]
    rfl

theorem singleReference?_of_char {text : String} {c : Char}
    (h : Piece.char c ∈ pieces 0 text.toList) : singleReference? text = none := by
  cases hsingle : singleReference? text with
  | none => rfl
  | some path =>
    rw [singleReference?_eq_some.mp hsingle] at h
    simp at h

/-- The references of a text are those among its pieces. -/
theorem mem_references {text : String} {path : List String} :
    path ∈ references text ↔ Piece.reference path ∈ pieces 0 text.toList := by
  have hall : ∀ found : List Piece,
      path ∈ (joinPieces found).filterMap Token.path? ↔ Piece.reference path ∈ found := by
    intro found
    induction found with
    | nil => simp [joinPieces]
    | cons piece rest ih =>
      cases piece with
      | char c => simp [joinPieces, filterMap_pushChar, ih]
      | reference other => simp [joinPieces, Token.path?, ih]
  exact hall _

/-- Pieces come to a text only if all references among them are said. -/
theorem exists_of_spell {f : List String → Except ScopeError String} {found : List Piece}
    {text : String} (h : spell f found = .ok text) {path : List String}
    (hp : Piece.reference path ∈ found) : ∃ part, f path = .ok part := by
  induction found generalizing text with
  | nil => cases hp
  | cons piece rest ih =>
    cases piece with
    | char c =>
      obtain ⟨behind, hbehind, -⟩ := except_map_eq_ok.mp h
      exact ih hbehind ((List.mem_cons.mp hp).resolve_left nofun)
    | reference other =>
      obtain ⟨front, hfront, h⟩ := except_bind_eq_ok.mp h
      obtain ⟨behind, hbehind, -⟩ := except_bind_eq_ok.mp h
      rcases List.mem_cons.mp hp with heq | hp
      · exact ⟨front, Piece.reference.inj heq ▸ hfront⟩
      · exact ih hbehind hp

theorem hasOpening_append {front behind : List Char} (h : hasOpening (front ++ behind) = false) :
    hasOpening behind = false := by
  induction front with
  | nil => exact h
  | cons c front ih => exact ih (hasOpening_tail h).1

theorem isPath_of_settled {found : List Piece} (h : Settled found) {path : List String}
    (hpath : Piece.reference path ∈ found) : IsPath path := by
  induction found with
  | nil => cases hpath
  | cons piece rest ih =>
    cases piece with
    | char c =>
      obtain ⟨-, hrest⟩ := h
      exact ih hrest ((List.mem_cons.mp hpath).resolve_left nofun)
    | reference other =>
      obtain ⟨hother, hrest⟩ := h
      rcases List.mem_cons.mp hpath with heq | hmem
      · rwa [Piece.reference.inj heq]
      · exact ih hrest hmem

/-- If nothing in what they come to can be taken for a reference, pieces are found again in their
text: no two of them join to the opening of a reference. -/
theorem settled_of_clear {f : List String → Except ScopeError String} {found : List Piece}
    (hpaths : ∀ path, Piece.reference path ∈ found → IsPath path) {final : String}
    (hspell : spell f found = .ok final) (hclear : hasOpening final.toList = false) :
    Settled found := by
  induction found generalizing final with
  | nil => trivial
  | cons piece rest ih =>
    have hrest : ∀ path, Piece.reference path ∈ rest → IsPath path := fun path hp =>
      hpaths path (List.mem_cons_of_mem _ hp)
    cases piece with
    | reference path =>
      obtain ⟨front, -, hspell⟩ := except_bind_eq_ok.mp hspell
      obtain ⟨behind, hbehind, hspell⟩ := except_bind_eq_ok.mp hspell
      have hfinal : final = front ++ behind := (Except.ok.inj hspell).symm
      refine ⟨hpaths path List.mem_cons_self, ih hrest hbehind ?_⟩
      rw [hfinal, String.toList_append] at hclear
      exact hasOpening_append hclear
    | char c =>
      obtain ⟨behind, hbehind, hfinal⟩ := except_map_eq_ok.mp hspell
      have hlist : final.toList = c :: behind.toList := by simp [← hfinal]
      rw [hlist] at hclear
      obtain ⟨hclear, hnone⟩ := hasOpening_tail hclear
      refine ⟨fun hdollar => ?_, ih hrest hbehind hclear⟩
      -- A reference would have to begin with a brace, which is a character of its own.
      refine Option.eq_none_iff_forall_ne_some.mpr fun found hfound => ?_
      obtain ⟨-, after, hbrace, -⟩ := referenceAfterDollar?_eq_some.mp hfound
      cases rest with
      | nil => cases hbrace
      | cons next rest =>
        cases next with
        | reference path =>
          rw [List.flatMap_cons, Piece.chars, toList_formatReference] at hbrace
          exact absurd (List.cons.inj hbrace).1 (by decide)
        | char d =>
          obtain rfl : d = '{' := (List.cons.inj hbrace).1
          obtain ⟨last, -, hlast⟩ := except_map_eq_ok.mp hbehind
          exact hnone ⟨hdollar, by simp [← hlast]⟩

end Template

namespace Resolve

open Template

/-- A template comes to a text, unless it is one reference to something else. -/
theorem isText_of_valueWith {answer : List String → Except ScopeError Value}
    (hscalar : ∀ path v, answer path = .ok v → v.isList = false) {text : String} {v : Value}
    (hwhole : singleReference? text = none ∨ ∀ path u, answer path = .ok u → (u.text?).isSome)
    (h : valueWith answer (.str text) = .ok v) : (v.text?).isSome := by
  have hv := valueWith_eq_ok.mp h []
  rw [value] at hv
  split at hv
  · rcases evaluate_cases text with ⟨path, htokens, heq⟩ | heq
    · rw [heq] at hv
      have hanswer : answer path = .ok v := (ofExcept_eq_ok.mp hv).1
      refine hwhole.elim (fun hnone => ?_) fun htexts => htexts path v hanswer
      rw [singleReference?, htokens] at hnone
      cases hnone
    · rw [heq, gather_eq hscalar] at hv
      obtain ⟨out, _, hout, hv⟩ := bind_eq_ok.mp hv
      obtain ⟨hparts, rfl⟩ := ofExcept_eq_ok.mp hout
      obtain ⟨parts, -, rfl⟩ := except_map_eq_ok.mp hparts
      obtain ⟨hassemble, -⟩ := ofExcept_eq_ok.mp hv
      rw [← Except.ok.inj hassemble]
      rfl
  · obtain ⟨rfl, -⟩ := pure_eq_ok.mp hv
    rfl

/-- A value that is a text is written as itself. -/
theorem eq_str_of_text? {v : Value} (h : (v.text?).isSome) : v = .str v.render := by
  cases v with
  | str text => rfl
  | bool _ | int _ | float _ | list _ => cases h

/-- A template comes to the text its pieces come to, if one of them is a character or the references come
to texts. -/
theorem valueWith_eq_str {answer : List String → Except ScopeError Value}
    (hscalar : ∀ path v, answer path = .ok v → v.isList = false) {text final : String}
    (hwhole : (∃ c, Piece.char c ∈ pieces 0 text.toList) ∨
      ∀ path u, answer path = .ok u → (u.text?).isSome)
    (h : spell (said answer) (pieces 0 text.toList) = .ok final) :
    valueWith answer (.str text) = .ok (.str final) := by
  rw [← render_valueWith hscalar] at h
  obtain ⟨v, hv, rfl⟩ := except_map_eq_ok.mp h
  rw [hv, ← eq_str_of_text? (isText_of_valueWith hscalar (hwhole.imp_left ?_) hv)]
  rintro ⟨c, hc⟩
  exact singleReference?_of_char hc

/-- A text that is one reference comes to what the reference stands for. -/
theorem valueWith_of_singleReference? {answer : List String → Except ScopeError Value}
    {text : String} {path : List String} (h : singleReference? text = some path) :
    valueWith answer (.str text) = answer path := by
  have hpieces := singleReference?_eq_some.mp h
  have hmay : mayRefer text = true := by
    refine eq_true_of_ne_false fun hno => ?_
    have hnone := references_of_not_mayRefer hno
    rw [references_of_singleReference? h] at hnone
    cases hnone
  rw [valueWith, value, if_pos hmay, evaluate, tokenize, hpieces]
  cases hanswer : answer path <;> simp [joinPieces, answering, hanswer] <;> rfl

end Resolve

namespace Merge

open Template Resolve

variable {value : Value} {property : String} {names : List String}

/-- A piece with the value put in, if it is a reference to the output. -/
def inserted (value : Value) (property : String) (names : List String) : Piece → List Piece
  | .char c => [.char c]
  | .reference path =>
    match filler value property names path with
    | .ok text => if (fieldsOf? property names path).isSome then text.toList.map .char
        else [.reference path]
    | .error _ => []

theorem mem_inserted {found : List Piece} {path : List String}
    (h : Piece.reference path ∈ found.flatMap (inserted value property names)) :
    Piece.reference path ∈ found := by
  obtain ⟨piece, hpiece, hin⟩ := List.mem_flatMap.mp h
  cases piece with
  | char c => simp [inserted] at hin
  | reference other =>
    rw [inserted] at hin
    split at hin
    · split at hin
      · simp at hin
      · obtain rfl := Piece.reference.inj (List.mem_singleton.mp hin)
        exact hpiece
    · cases hin

theorem reference_mem_inserted {found : List Piece} {path : List String}
    (h : Piece.reference path ∈ found) (hother : fieldsOf? property names path = none) :
    Piece.reference path ∈ found.flatMap (inserted value property names) := by
  refine List.mem_flatMap.mpr ⟨_, h, ?_⟩
  rw [inserted, filler, hother]
  exact List.mem_singleton_self _

theorem char_mem_inserted {found : List Piece} {c : Char} (h : Piece.char c ∈ found) :
    Piece.char c ∈ found.flatMap (inserted value property names) :=
  List.mem_flatMap.mpr ⟨_, h, List.mem_singleton_self _⟩

/-- Where a part of the value is put in that is not written as the empty text, there are characters. -/
theorem exists_char_inserted {found : List Piece} {text : String}
    (h : spell (filler value property names) found = .ok text) {path fields : List String}
    (hpath : Piece.reference path ∈ found) (hfields : fieldsOf? property names path = some fields)
    (hwritten : ∀ part, FileField.derive value fields (joinPath path) = .ok part →
      part.render ≠ "") : ∃ c, Piece.char c ∈ found.flatMap (inserted value property names) := by
  obtain ⟨front, hfront⟩ := exists_of_spell h hpath
  have hmap := hfront
  rw [filler, hfields] at hmap
  obtain ⟨part, hpart, rfl⟩ := except_map_eq_ok.mp hmap
  obtain ⟨c, hc⟩ : ∃ c, c ∈ part.render.toList :=
    List.exists_mem_of_ne_nil _ fun hnil => hwritten part hpart (String.toList_eq_nil_iff.mp hnil)
  refine ⟨c, List.mem_flatMap.mpr ⟨_, hpath, ?_⟩⟩
  rw [inserted, hfront, hfields]
  exact List.mem_map_of_mem hc

/-- With the value put in, pieces are written as the text that was put together, and come to the
same if the references to the output are answered by the value. -/
theorem spell_inserted {found : List Piece} {text : String}
    (h : spell (filler value property names) found = .ok text)
    {answer : List String → Except ScopeError Value}
    (hanswer : ∀ path, Piece.reference path ∈ found → ∀ fields,
      fieldsOf? property names path = some fields →
        answer path = FileField.derive value fields (joinPath path)) :
    (found.flatMap (inserted value property names)).flatMap Piece.chars = text.toList ∧
      spell (said answer) (found.flatMap (inserted value property names)) =
        spell (said answer) found := by
  induction found generalizing text with
  | nil =>
    obtain rfl := Except.ok.inj h
    exact ⟨rfl, rfl⟩
  | cons piece rest ih =>
    have hothers := fun path hp => hanswer path (List.mem_cons_of_mem _ hp)
    cases piece with
    | char c =>
      obtain ⟨behind, hbehind, rfl⟩ := except_map_eq_ok.mp h
      obtain ⟨hchars, hsaid⟩ := ih hbehind hothers
      rw [List.flatMap_cons]
      refine ⟨by simp [inserted, Piece.chars, hchars], ?_⟩
      change spell (said answer) (.char c :: rest.flatMap _) = _
      rw [spell, spell, hsaid]
    | reference path =>
      obtain ⟨front, hfront, h⟩ := except_bind_eq_ok.mp h
      obtain ⟨behind, hbehind, h⟩ := except_bind_eq_ok.mp h
      obtain rfl := Except.ok.inj h
      obtain ⟨hchars, hsaid⟩ := ih hbehind hothers
      rw [List.flatMap_cons, List.flatMap_append, inserted, hfront, hchars]
      cases hfields : fieldsOf? property names path with
      | none =>
        rw [filler, hfields] at hfront
        obtain rfl := Except.ok.inj hfront
        refine ⟨by simp [Piece.chars], ?_⟩
        change spell (said answer) (.reference path :: rest.flatMap _) = _
        rw [spell, spell, hsaid]
      | some fields =>
        rw [filler, hfields] at hfront
        obtain ⟨part, hpart, rfl⟩ := except_map_eq_ok.mp hfront
        refine ⟨by simp [Piece.chars, List.flatMap_map], ?_⟩
        have hsame : answer path = .ok part :=
          (hanswer path List.mem_cons_self fields hfields).trans hpart
        simp only [Option.isSome_some, if_true]
        rw [spell_chars, hsaid, spell, said, hsame, String.ofList_toList]
        cases spell (said answer) rest <;> rfl

/-- A text with a reference to the output mentions the output. -/
theorem any_mentions {raw : String}
    (h : ∃ path ∈ references raw, (fieldsOf? property names path).isSome) :
    (tokenize raw).any (mentions property names) := by
  obtain ⟨path, hp, hfields⟩ := h
  obtain ⟨token, htoken, hpath⟩ := List.mem_filterMap.mp hp
  refine List.any_eq_true.mpr ⟨token, htoken, ?_⟩
  cases token with
  | literal _ => cases hpath
  | reference other =>
    obtain rfl := Option.some.inj hpath
    exact hfields

section Answered

variable {raw : String} {answer : List String → Except ScopeError Value}
  (hanswer : ∀ path ∈ references raw, ∀ fields, fieldsOf? property names path = some fields →
    answer path = FileField.derive value fields (joinPath path))

include hanswer

/-- The pieces of the text that was put together are those of the text before, with the value put in, if
nothing in what they come to can be taken for a reference. And they come to the same. -/
theorem pieces_inserted {text final : String}
    (hspell : spell (filler value property names) (pieces 0 raw.toList) = .ok text)
    (hcomes : spell (said answer) (pieces 0 raw.toList) = .ok final)
    (hclear : hasOpening final.toList = false) :
    pieces 0 text.toList = (pieces 0 raw.toList).flatMap (inserted value property names) ∧
      spell (said answer) (pieces 0 text.toList) = .ok final := by
  obtain ⟨hchars, hsaid⟩ := spell_inserted hspell fun path hp =>
    hanswer path (mem_references.mpr hp)
  have hsettled : Settled ((pieces 0 raw.toList).flatMap (inserted value property names)) :=
    settled_of_clear (fun path hp => isPath_of_settled (pieces_spec raw.toList).2 (mem_inserted hp))
      (hsaid.trans hcomes) hclear
  have hpieces : pieces 0 text.toList =
      (pieces 0 raw.toList).flatMap (inserted value property names) := by
    rw [← hchars, pieces_of_settled hsettled]
  exact ⟨hpieces, by rw [hpieces, hsaid, hcomes]⟩

/-- Putting a value into a text that refers to it keeps what the text comes to. Either the text was one
reference and is replaced as a whole, or it stays text, in which the other references are left. -/
theorem valueWith_substitute {new v : Value} (hvalue : value.isList = false)
    (hscalar : ∀ path v, answer path = .ok v → v.isList = false)
    (hmention : ∃ path ∈ references raw, (fieldsOf? property names path).isSome)
    (hv : valueWith answer (.str raw) = .ok v) (hclear : v.mayRefer = false)
    (hwhole : (singleReference? raw).isSome ∨ (∃ c, Piece.char c ∈ pieces 0 raw.toList) ∨
      (∀ path u, answer path = .ok u → (u.text?).isSome) ∨
      ∀ path ∈ references raw, ∀ u, answer path = .ok u → u.render ≠ "")
    (h : substitute raw value property names = .ok new) :
    (new = v ∧ (singleReference? raw).isSome) ∨ ∃ text, new = .str text ∧
      valueWith answer (.str text) = .ok v ∧
      (∀ path ∈ references text, path ∈ references raw) ∧
      (∀ path ∈ references raw, fieldsOf? property names path = none → path ∈ references text) ∧
      ((∃ c, Piece.char c ∈ pieces 0 text.toList) ∨
        ∀ path u, answer path = .ok u → (u.text?).isSome) := by
  rcases substitute_cases hvalue (any_mentions hmention) h with
    ⟨path, fields, htokens, hfields, hderive⟩ | ⟨text, rfl, hsingle, hspell⟩
  · have hsingle : singleReference? raw = some path := by rw [singleReference?, htokens]
    refine .inl ⟨?_, Option.isSome_of_eq_some hsingle⟩
    have hin : path ∈ references raw := by simp [references, htokens, Token.path?]
    have hpath : answer path = .ok v := (valueWith_of_singleReference? hsingle).symm.trans hv
    exact Except.ok.inj (hderive.symm.trans ((hanswer path hin fields hfields).symm.trans hpath))
  · obtain ⟨final, rfl⟩ : ∃ final, v = .str final :=
      ⟨_, eq_str_of_text? (isText_of_valueWith hscalar (.inl hsingle) hv)⟩
    have hcomes : spell (said answer) (pieces 0 raw.toList) = .ok final := by
      rw [← render_valueWith hscalar, hv]
      rfl
    obtain ⟨hpieces, hsame⟩ := pieces_inserted hanswer hspell hcomes hclear
    have hwhole' : (∃ c, Piece.char c ∈ pieces 0 text.toList) ∨
        ∀ path u, answer path = .ok u → (u.text?).isSome := by
      rw [hpieces]
      rcases hwhole.resolve_left (by simp [hsingle]) with ⟨c, hc⟩ | htexts | hwritten
      · exact .inl ⟨c, char_mem_inserted hc⟩
      · exact .inr htexts
      · obtain ⟨path, hp, hfields⟩ := hmention
        obtain ⟨fields, hfields⟩ := Option.isSome_iff_exists.mp hfields
        exact .inl (exists_char_inserted hspell (mem_references.mp hp) hfields fun part hpart =>
          hwritten path hp part ((hanswer path hp fields hfields).trans hpart))
    refine .inr ⟨text, rfl, valueWith_eq_str hscalar hwhole' hsame, fun path hp => ?_,
      fun path hp hother => ?_, hwhole'⟩
    · rw [mem_references, hpieces] at hp
      exact mem_references.mpr (mem_inserted hp)
    · rw [mem_references, hpieces]
      exact reference_mem_inserted (mem_references.mp hp) hother

end Answered

end Merge

end Pipework
