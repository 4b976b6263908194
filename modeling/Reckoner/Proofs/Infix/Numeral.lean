import Reckoner.Proofs.Dialogue.Store
import Reckoner.Proofs.Infix.LeadingSign

/-! Numerals as expressions. To the reader of numerals a sign is part of the numeral, in an
expression it is an operation on zero. An expression that reads as a numeral has the same
value by both. -/
namespace Reckoner.Infix
open Grammar Postfix Reckoner.Tree

variable {word text : List Char} {number : Int} {n : Nat}

/-- A sign before a single operand works against zero. -/
theorem value_signed (table : Table) (sign : Operator) (isSign : IsSign sign.char)
    (operand : Operand word) :
    value table (sign.char :: word) = (againstZero sign (.leaf word)).value table := by
  have additive : sign.precedence = 0 := by
    cases sign with
    | add | sub => rfl
    | _ => simp [IsSign, Operator.char] at isSign
  have alone : accepts word = true := accepts_plain (.leaf word) operand
  have accepted : accepts (sign.char :: word) = true := by
    have led := @accepts_leadingSign [] sign 0 word [] (by simpa using alone) operand isSign (.inl rfl)
    simpa using led
  have spelled : Spelled 0 (againstZero sign (.leaf word)) ('0' :: sign.char :: word) :=
    againstZero_spelled additive (.inl rfl) (.leaf word)
  exact @value_of_fed sign 0 word _ isSign accepted (operand_soft operand) spelled
    ⟨operand_digit rfl, operand⟩ table

theorem operand_of_digits? (digits : Numeral.digits? word = some n) : Operand word := by
  obtain ⟨⟨nonempty, isDigits⟩, _⟩ := digits?_eq_some.mp digits
  exact ⟨nonempty, .inl isDigits⟩

theorem leafValue_of_digits? (table : Table) (digits : Numeral.digits? word = some n) :
    leafValue table word = .ok n := by
  obtain ⟨⟨nonempty, isDigits⟩, rfl⟩ := digits?_eq_some.mp digits
  exact leafValue_digits table nonempty isDigits

theorem value_againstZero (table : Table) (sign : Operator) (digits : Numeral.digits? word = some n) :
    (againstZero sign (.leaf word)).value table = sign.combine 0 n := by
  have zero : leafValue table ['0'] = .ok 0 := rfl
  simp only [againstZero, Tree.value, zero, leafValue_of_digits? table digits]
  rfl

/-- A text that reads as an integer has that integer as its value under every table. -/
theorem value_numeral (table : Table) (read : Numeral.read? text = some number) :
    value table text = .ok number := by
  obtain ⟨n, digits, rfl⟩ | ⟨sign, word, n, rfl, digits, signed⟩ := Numeral.read?_eq_some.mp read
  · exact (value_operand table (operand_of_digits? digits)).trans (leafValue_of_digits? table digits)
  · have operand := operand_of_digits? digits
    obtain ⟨rfl, rfl⟩ | ⟨rfl, rfl⟩ := signed
    · have sum := value_signed table .add (.inl rfl) operand
      simpa [value_againstZero table .add digits, Operator.combine, Operator.char] using sum
    · have difference := value_signed table .sub (.inr rfl) operand
      simpa [value_againstZero table .sub digits, Operator.combine, Operator.char] using difference

end Reckoner.Infix
