import Pipework.Definition.Value

/-!
# Numbers that are written

An integer is read from its text as this integer. What is written for any other number has a point or
an exponent, so that no integer is read from it, and what it is read as is what the text says.
-/

namespace Pipework

/-! ### Integers -/

namespace Decimal

/-- A sign is split off, and the rest is what follows it. -/
theorem splitSign_snd (text : List Char) :
    (splitSign text).2 = text ∨
      ∃ sign, (sign = '-' ∨ sign = '+') ∧ text = sign :: (splitSign text).2 := by
  rw [splitSign.eq_def]
  split
  · exact .inr ⟨'-', .inl rfl, rfl⟩
  · exact .inr ⟨'+', .inr rfl, rfl⟩
  · exact .inl rfl

/-- Digits have no sign. -/
theorem splitSign_digits {digits : List Char} (h : ∀ c ∈ digits, c.isDigit = true) :
    splitSign digits = (false, digits) := by
  rw [splitSign.eq_def]
  split
  next => exact absurd (h '-' List.mem_cons_self) (by decide)
  next => exact absurd (h '+' List.mem_cons_self) (by decide)
  next => rfl

/-- Digits are read as the number that they make. -/
theorem readInteger?_digits {digits : List Char} (hne : digits ≠ [])
    (h : ∀ c ∈ digits, c.isDigit = true) : readInteger? digits = some (ofDigits digits : Int) := by
  rw [readInteger?, splitSign_digits h]
  exact if_pos ⟨hne, List.all_eq_true.mpr h⟩

/-- Digits behind a minus are read as the number below zero. -/
theorem readInteger?_minus {digits : List Char} (hne : digits ≠ [])
    (h : ∀ c ∈ digits, c.isDigit = true) :
    readInteger? ('-' :: digits) = some (-(ofDigits digits : Int)) :=
  if_pos ⟨hne, List.all_eq_true.mpr h⟩

/-- The digits of a number make the number. -/
theorem ofDigits_toDigits (n : Nat) : ofDigits (Nat.toDigits 10 n) = n :=
  Nat.ofDigitChars_toDigits (by decide) (by decide)

theorem isDigit_toDigits (n : Nat) : ∀ c ∈ Nat.toDigits 10 n, c.isDigit = true := fun _ =>
  Nat.isDigit_of_mem_toDigits (by decide) (by decide)

end Decimal

open Decimal

/-- The text of an integer is its digits, behind a minus if it is below zero. -/
theorem toList_toString (n : Int) : (toString n).toList =
    if 0 ≤ n then Nat.toDigits 10 n.toNat else '-' :: Nat.toDigits 10 (-n).toNat := by
  rw [Int.toString_eq_repr, Int.repr_eq_if]
  split
  · rw [Nat.toList_repr]
  · rw [String.toList_append, Nat.toList_repr]
    rfl

/-- The text of an integer reads as this integer. -/
theorem readInteger?_toString (n : Int) : readInteger? (toString n).toList = some n := by
  rw [toList_toString]
  split
  next h =>
    rw [readInteger?_digits Nat.toDigits_ne_nil (isDigit_toDigits _), ofDigits_toDigits,
      Int.toNat_of_nonneg h]
  next h =>
    rw [readInteger?_minus Nat.toDigits_ne_nil (isDigit_toDigits _), ofDigits_toDigits,
      Int.toNat_of_nonneg (by omega), Int.neg_neg]

namespace Value

/-- An integer that fits is taken as an integer. -/
theorem ofInteger_toInt (n : Int64) : ofInteger n.toInt = .int n := by
  rw [ofInteger, if_pos ⟨n.minValue_le_toInt, n.toInt_le⟩, Int64.ofInt_toInt]

/-- An integer of 64 bits is read from its text. -/
theorem ofLiteral_toString (d : Dialect) (n : Int64) :
    ofLiteral d (toString n.toInt) = .ok (.int n) := by
  have hkept : Json.leastInteger ≤ n.toInt ∧ n.toInt ≤ Json.greatestInteger :=
    ⟨n.minValue_le_toInt, Int.le_trans n.toInt_le (by decide)⟩
  rw [ofLiteral, readInteger?_toString]
  dsimp only
  rw [if_pos hkept, ofInteger_toInt]
  rfl

end Value

/-! ### Other numbers -/

namespace NumberStyle

/-- An integer has neither a point nor an exponent. -/
theorem readInteger?_eq_none {text : List Char} {c : Char} (hmem : c ∈ text) (h : c = '.' ∨ c = 'e') :
    readInteger? text = none := by
  have hrest : c ∈ (splitSign text).2 := by
    rcases splitSign_snd text with hsame | ⟨sign, hsign, htext⟩
    · rwa [hsame]
    · rw [htext] at hmem
      refine (List.mem_cons.mp hmem).resolve_left ?_
      rintro rfl
      rcases h with rfl | rfl <;> exact absurd hsign (by decide)
  have hdigit : c.isDigit = false := by rcases h with rfl | rfl <;> rfl
  refine if_neg fun hall => ?_
  rw [List.all_eq_true] at hall
  exact absurd (hall.2 c hrest) (by simp [hdigit])

/-- What a number is written as has a point or an exponent. -/
theorem exists_mem_layout (style : NumberStyle) (d : Decimal) :
    ∃ c ∈ style.layout d, c = '.' ∨ c = 'e' := by
  rw [layout]
  split
  · refine ⟨'.', ?_, .inl rfl⟩
    rw [plain]
    dsimp only
    split
    · simp
    · split <;> simp
  · exact ⟨'e', by simp [scientific], .inr rfl⟩

end NumberStyle

namespace Binary64

/-- What is written for a finite number is its sign and its layout. -/
theorem toList_render {x : Binary64} (h : x.isFinite = true) (style : NumberStyle) :
    (x.render style).toList = if x.isNegative then '-' :: style.layout (x.shortest style.tie)
      else style.layout (x.shortest style.tie) := by
  have hnumber : x.isNaN = false := by
    rw [isNaN, beq_eq_false_iff_ne.mpr (bne_iff_ne.mp h), Bool.false_and]
  rw [render, hnumber, h]
  simp

/-- No integer is read from what is written for a finite number. -/
theorem readInteger?_render {x : Binary64} (h : x.isFinite = true) (style : NumberStyle) :
    readInteger? (x.render style).toList = none := by
  obtain ⟨c, hmem, hc⟩ := style.exists_mem_layout (x.shortest style.tie)
  rw [toList_render h]
  split
  · exact NumberStyle.readInteger?_eq_none (List.mem_cons_of_mem _ hmem) hc
  · exact NumberStyle.readInteger?_eq_none hmem hc

end Binary64

/-- What is written for a finite number is not taken for an integer. -/
theorem Value.ofLiteral_render {x : Binary64} (h : x.isFinite = true) (d : Dialect)
    (style : NumberStyle) : ofLiteral d (x.render style) = ofWideLiteral d (x.render style) := by
  rw [ofLiteral, Binary64.readInteger?_render h]

end Pipework
