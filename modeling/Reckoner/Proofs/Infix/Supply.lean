import Reckoner.Proofs.Infix.Effect
import Mathlib.Data.List.Infix

/-! Operators and operands of a text, counted. Along an accepted text the operators
run ahead of the operands by a surplus that never shrinks again: a sign behind
another operator adds to it, and nothing takes from it. -/
namespace Reckoner.Infix
open Grammar Text

/-- How often something begins, as far as one character and the one before it tell. -/
def starts (begins : Option Char → Char → Bool) : Option Char → List Char → Nat
  | _, [] => 0
  | before, c :: rest => (begins before c).toNat + starts begins (some c) rest

theorem starts_concat (begins : Option Char → Char → Bool) (before : Option Char)
    (text : List Char) (c : Char) :
    starts begins before (text ++ [c]) =
      starts begins before text + (begins (text.getLast?.or before) c).toNat := by
  induction text generalizing before with
  | nil => simp [starts]
  | cons d rest ih =>
    rw [List.cons_append, starts, starts, ih, List.getLast?_cons, Nat.add_assoc]
    cases rest.getLast? <;> rfl

def beginsOperand (before : Option Char) (c : Char) : Bool :=
  c.isAlphanum && !before.any Char.isAlphanum

/-- A sign behind the same sign belongs to the operator that is there. -/
def beginsOperator (before : Option Char) (c : Char) : Bool :=
  (Operator.ofChar? c).isSome && !((c = '+' || c = '-') && before = some c)

/-- The number of operands, blanks left aside. -/
def operands (text : List Char) : Nat :=
  starts beginsOperand none (compact text)

/-- The number of operators, a run of one same sign being one of them. -/
def operators (text : List Char) : Nat :=
  starts beginsOperator none (compact text)

section

variable {text : List Char} {c : Char}

theorem operands_solid (solid : isBlank c = false) :
    operands (text ++ [c]) = operands text + (beginsOperand (compact text).getLast? c).toNat := by
  rw [operands, compact_solid solid, starts_concat, Option.or_none, operands]

theorem operators_solid (solid : isBlank c = false) :
    operators (text ++ [c]) = operators text + (beginsOperator (compact text).getLast? c).toNat := by
  rw [operators, compact_solid solid, starts_concat, Option.or_none, operators]

theorem counts_blank (blank : IsBlank c) :
    operands (text ++ [c]) = operands text ∧ operators (text ++ [c]) = operators text := by
  rw [operands, operators, compact_blank blank]
  exact ⟨rfl, rfl⟩

end

section Counts

variable {before : Option Char} {c : Char}

theorem beginsOperand_other (other : ¬IsOperand c) : beginsOperand before c = false := by
  have : c.isAlphanum = false := by rwa [Bool.eq_false_iff, ne_eq, isAlphanum_iff]
  simp [beginsOperand, this]

theorem any_isAlphanum (outside : ∀ d ∈ before, ¬IsOperand d) :
    before.any Char.isAlphanum = false := by
  simp only [Bool.eq_false_iff, ne_eq, Option.any_eq_true, isAlphanum_iff]
  rintro ⟨d, last, operand⟩
  exact outside d last operand

theorem beginsOperand_first (operand : IsOperand c) (outside : ∀ d ∈ before, ¬IsOperand d) :
    beginsOperand before c = true := by
  simp only [beginsOperand, isAlphanum_iff.mpr operand, any_isAlphanum outside, Bool.not_false,
    Bool.and_true]

theorem beginsOperand_further {d : Char} (inside : IsOperand d) :
    beginsOperand (some d) c = false := by
  simp [beginsOperand, isAlphanum_iff.mpr inside]

theorem beginsOperator_other (other : ¬IsOperator c) : beginsOperator before c = false := by
  simp [beginsOperator, IsOperator.none_iff.mpr other]

theorem beginsOperator_first (operator : IsOperator c)
    (outside : ∀ d ∈ before, ¬IsOperator d) : beginsOperator before c = true := by
  obtain ⟨op, rfl⟩ := operator.exists_char
  have fresh : before ≠ some op.char := by
    rintro rfl
    exact outside _ rfl operator
  simp [beginsOperator, Operator.ofChar?_char, fresh]

end Counts

/-- The surplus of operators, counted to behind the next operand, never shrinks. -/
theorem Scan.surplus_step {text : List Char} {place next : Place} {c : Char}
    (scan : Scan text place) (move : Move place c next) :
    operators text + place.complete.toNat + operands (text ++ [c]) ≤
      operators (text ++ [c]) + next.complete.toNat + operands text := by
  have behind := scan.behind
  cases move.effect with
  | blank blank _ same =>
    obtain ⟨sameOperands, sameOperators⟩ := @counts_blank text c blank
    rw [sameOperands, sameOperators, same]
  | bracket bracket _ same =>
    rw [operands_solid bracket.solid, operators_solid bracket.solid, same,
      beginsOperand_other bracket.not_operand,
      beginsOperator_other bracket.not_operator]
    simp
  | begun awaits has target =>
    have complete : next.complete = true := by rcases target with rfl | rfl <;> rfl
    rw [operands_solid has.isOperand.solid, operators_solid has.isOperand.solid, awaits, complete]
    have := Bool.toNat_le (beginsOperand (compact text).getLast? c)
    simp
    omega
  | grown source has =>
    obtain ⟨d, last, inside⟩ := behind.inside source
    rw [operands_solid has.isOperand.solid, operators_solid has.isOperand.solid, last,
      beginsOperand_further inside.isOperand]
    simp
  | operator complete operator due =>
    rw [operands_solid operator.solid, operators_solid operator.solid,
      complete, Place.incomplete_of_due due, beginsOperand_other operator.not_operand,
      beginsOperator_first operator (behind.not_operator complete)]
    simp
  | sign awaits sign incomplete =>
    rw [operands_solid sign.operator.solid, operators_solid sign.operator.solid, awaits, incomplete,
      beginsOperand_other sign.operator.not_operand]
    simp

/-- What holds of every prefix of an accepted text from what holds of the whole. -/
theorem Scan.surplus {text front : List Char} {place : Place} (scan : Scan text place)
    (before : front <+: text) : ∃ earlier, Scan front earlier ∧
      operators front + earlier.complete.toNat + operands text ≤
        operators text + place.complete.toNat + operands front := by
  induction scan with
  | start =>
    rw [List.prefix_nil.mp before]
    exact ⟨.head, .start, Nat.le_refl _⟩
  | @next text place next c scan move ih =>
    rcases List.prefix_concat_iff.mp before with rfl | shorter
    · exact ⟨next, scan.next move, Nat.le_refl _⟩
    · obtain ⟨earlier, scanned, bound⟩ := ih shorter
      have step := scan.surplus_step move
      exact ⟨earlier, scanned, by omega⟩

end Reckoner.Infix
