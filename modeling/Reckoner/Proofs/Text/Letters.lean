import Reckoner.Text.Blank

/-! Digits, letters and blanks by their code points, and that no character is of
two of these classes. -/
namespace Reckoner.Text

variable {c : Char}

theorem isDigit_iff : c.isDigit = true ↔ 48 ≤ c.toNat ∧ c.toNat ≤ 57 := by
  simp [Char.isDigit, UInt32.le_iff_toNat_le]

theorem isAlpha_iff : c.isAlpha = true ↔
    (65 ≤ c.toNat ∧ c.toNat ≤ 90) ∨ (97 ≤ c.toNat ∧ c.toNat ≤ 122) := by
  delta Char.isAlpha Char.isUpper Char.isLower
  simp [UInt32.le_iff_toNat_le]

theorem isNarrowBlank_iff : isNarrowBlank c = true ↔
    (9 ≤ c.toNat ∧ c.toNat ≤ 13) ∨ c.toNat = 32 := by
  simp [isNarrowBlank]

theorem digit_not_alpha (digit : c.isDigit = true) : c.isAlpha = false := by
  rw [isDigit_iff] at digit
  rw [Bool.eq_false_iff, ne_eq, isAlpha_iff]
  omega

theorem ne_space (solid : isBlank c = false) : c ≠ ' ' := by
  rintro rfl
  exact absurd solid (by decide)

/-- A character of an operand, whatever the kind of the operand. -/
def IsOperand (c : Char) : Prop := c.isDigit = true ∨ c.isAlpha = true

theorem isAlphanum_iff : c.isAlphanum = true ↔ IsOperand c := by
  rw [Char.isAlphanum, Bool.or_eq_true, IsOperand, or_comm]

theorem IsOperand.bounds (operand : IsOperand c) : 48 ≤ c.toNat ∧ c.toNat ≤ 122 := by
  rw [IsOperand, isDigit_iff, isAlpha_iff] at operand
  omega

theorem IsOperand.solid (operand : IsOperand c) : isBlank c = false := by
  have bounds := operand.bounds
  simp [isBlank, isNarrowBlank]
  omega

theorem blank_not_alpha (blank : isBlank c = true) : c.isAlpha = false := by
  rw [Bool.eq_false_iff]
  intro letter
  have solid := IsOperand.solid (Or.inr letter)
  rw [blank] at solid
  cases solid

end Reckoner.Text
