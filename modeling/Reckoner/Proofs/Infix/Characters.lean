import Reckoner.Infix.Grammar
import Reckoner.Proofs.Postfix.Sheet

/-! The classes of the characters in an accepted text, as the conversion sees them:
no character is of two classes, and only the blanks are white space. -/
namespace Reckoner.Infix
open Grammar

def IsOperator (c : Char) : Prop := IsSign c ∨ IsTight c

namespace IsOperator

variable {c : Char}

theorem char (op : Operator) : IsOperator op.char := by
  cases op <;> simp [IsOperator, IsSign, IsTight, Operator.char]

theorem exists_char (operator : IsOperator c) : ∃ op : Operator, c = op.char := by
  rcases operator with (rfl | rfl) | (rfl | rfl | rfl)
  · exact ⟨.add, rfl⟩
  · exact ⟨.sub, rfl⟩
  · exact ⟨.mul, rfl⟩
  · exact ⟨.div, rfl⟩
  · exact ⟨.pow, rfl⟩

theorem none_iff : Operator.ofChar? c = none ↔ ¬IsOperator c := by
  constructor
  · intro none operator
    obtain ⟨op, rfl⟩ := operator.exists_char
    rw [Operator.ofChar?_char] at none
    cases none
  · intro other
    cases read : Operator.ofChar? c with
    | none => rfl
    | some op =>
      refine absurd ?_ other
      rw [Operator.ofChar?_eq_some.mp read]
      exact char op

/-- What is neither a parenthesis nor an operator is no symbol. -/
theorem no_symbol_iff :
    Postfix.Symbol.ofChar? c = none ↔ (c ≠ '(' ∧ c ≠ ')') ∧ ¬IsOperator c := by
  rw [Postfix.Symbol.ofChar?_eq_none, none_iff]

theorem solid (operator : IsOperator c) : Text.isBlank c = false := by
  rcases operator with (rfl | rfl) | (rfl | rfl | rfl) <;> decide

theorem other (operator : IsOperator c) : c ≠ '(' ∧ c ≠ ')' := by
  rcases operator with (rfl | rfl) | (rfl | rfl | rfl) <;> decide

theorem not_operand (operator : IsOperator c) : ¬Text.IsOperand c := by
  rcases operator with (rfl | rfl) | (rfl | rfl | rfl) <;> simp [Text.IsOperand]

end IsOperator

namespace Grammar

variable {c : Char}

theorem IsSign.operator (sign : IsSign c) : IsOperator c := Or.inl sign

theorem IsTight.operator (tight : IsTight c) : IsOperator c := Or.inr tight

theorem IsTight.unsigned (tight : IsTight c) : ¬IsSign c := by
  rcases tight with rfl | rfl | rfl <;> simp [IsSign]

theorem IsBlank.not_solid (blank : IsBlank c) : Text.isBlank c = true :=
  Text.isBlank_of_isNarrowBlank blank

theorem IsBlank.other (blank : IsBlank c) : c ≠ '(' ∧ c ≠ ')' := by
  have narrow : Text.isNarrowBlank c = true := blank
  constructor <;> rintro rfl <;> exact absurd narrow (by decide)

theorem IsBlank.not_operator (blank : IsBlank c) : ¬IsOperator c := by
  intro operator
  simpa [operator.solid] using blank.not_solid

theorem IsBlank.not_operand (blank : IsBlank c) : ¬Text.IsOperand c := by
  intro operand
  simpa [operand.solid] using blank.not_solid

theorem IsBlank.no_symbol (blank : IsBlank c) : Postfix.Symbol.ofChar? c = none :=
  IsOperator.no_symbol_iff.mpr ⟨blank.other, blank.not_operator⟩

namespace IsParenthesis

theorem solid (bracket : IsParenthesis c) : Text.isBlank c = false := by
  rcases bracket with rfl | rfl <;> decide

theorem not_operand (bracket : IsParenthesis c) : ¬Text.IsOperand c := by
  rcases bracket with rfl | rfl <;> simp [Text.IsOperand]

theorem not_operator (bracket : IsParenthesis c) : ¬IsOperator c := by
  rcases bracket with rfl | rfl <;> simp [IsOperator, IsSign, IsTight]

end IsParenthesis
end Grammar

/-- The text without tabs, line ends, form feeds and spaces. -/
def compact (text : List Char) : List Char :=
  text.filter (!Text.isNarrowBlank ·)

section Compact

variable {text : List Char} {c : Char}

theorem compact_append (front rest : List Char) :
    compact (front ++ rest) = compact front ++ compact rest :=
  List.filter_append ..

theorem compact_blank (blank : IsBlank c) : compact (text ++ [c]) = compact text := by
  have narrow : Text.isNarrowBlank c = true := blank
  simp [compact, narrow]

theorem compact_other (other : ¬IsBlank c) : compact (text ++ [c]) = compact text ++ [c] := by
  have wide : Text.isNarrowBlank c = false := by
    rw [Bool.eq_false_iff]
    exact other
  simp [compact, wide]

theorem compact_solid (solid : Text.isBlank c = false) :
    compact (text ++ [c]) = compact text ++ [c] :=
  compact_other fun blank => by simp [blank.not_solid] at solid

/-- No blank at the end, so the last character stays. -/
theorem compact_last (other : ∀ c ∈ text.getLast?, ¬IsBlank c) :
    (compact text).getLast? = text.getLast? := by
  rcases List.eq_nil_or_concat text with rfl | ⟨front, c, rfl⟩
  · rfl
  · rw [List.concat_eq_append] at other ⊢
    rw [compact_other (other c List.getLast?_concat), List.getLast?_concat, List.getLast?_concat]

end Compact
end Reckoner.Infix

namespace Reckoner.Text.IsOperand
open Infix Grammar

variable {c : Char}

theorem other (operand : IsOperand c) : c ≠ '(' ∧ c ≠ ')' := by
  constructor <;> rintro rfl <;> simp [IsOperand] at operand

theorem not_operator (operand : IsOperand c) : ¬IsOperator c :=
  fun operator => operator.not_operand operand

theorem unsigned (operand : IsOperand c) : ¬IsSign c :=
  fun sign => operand.not_operator sign.operator

theorem no_symbol (operand : IsOperand c) : Postfix.Symbol.ofChar? c = none :=
  IsOperator.no_symbol_iff.mpr ⟨operand.other, operand.not_operator⟩

end Reckoner.Text.IsOperand
