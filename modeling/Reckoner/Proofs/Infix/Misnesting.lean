import Reckoner.Proofs.Infix.Nesting

/-! Where the parentheses of a text go. None is written while the text is read: a
closing one is dropped, and an opening one waits until it is closed. So a converted text
shows exactly the parentheses that were left open, and a text whose parentheses do not
nest, accepted or not, never has a value. -/
namespace Reckoner.Postfix
open Infix Infix.Grammar

theorem Waiting.char_not_closing (item : Waiting) : item.char ≠ ')' := by
  cases item with
  | parenthesis => decide
  | operator op => exact (IsOperator.char op).other.2

namespace Yard

def Bracketless (written : List Char) : Prop :=
  ∀ c ∈ written, c ≠ '(' ∧ c ≠ ')'

theorem bracketless_release {written : List Char} (bracketless : Bracketless written)
    (released : List Operator) : Bracketless (release written (released.map .operator)) := by
  induction released generalizing written with
  | nil => exact bracketless
  | cons op rest ih =>
    apply ih
    intro c member
    simp only [List.mem_cons] at member
    obtain rfl | rfl | old := member
    · decide
    · exact (IsOperator.char op).other
    · exact bracketless c old

/-- What a symbol releases has no parenthesis in it, and neither has an operand. -/
theorem bracketless_step {yard : Yard} (bracketless : Bracketless yard.written) (c : Char) :
    Bracketless (yard.step c).written := by
  obtain ⟨released, same⟩ | ⟨read, _, same⟩ := yard.written_step c
  · rw [same]
    exact bracketless_release bracketless released
  · have kept : Bracketless (yard.written.dropWhile Text.isBlank) := fun d member =>
      bracketless d ((List.dropWhile_sublist _).subset member)
    rw [same]
    intro d member
    simp only [operand, List.mem_cons] at member
    obtain rfl | rfl | old := member
    · decide
    · exact (Symbol.ofChar?_eq_none.mp read).1
    · split at old
      · exact kept d old
      · exact bracketless d old

theorem bracketless_foldl {yard : Yard} (bracketless : Bracketless yard.written)
    (text : List Char) : Bracketless (text.foldl step yard).written := by
  induction text generalizing yard with
  | nil => exact bracketless
  | cons c rest ih => exact ih (bracketless_step bracketless c)

theorem count_release (written : List Char) (items : List Waiting) :
    (release written items).count '(' = written.count '(' + items.count .parenthesis ∧
      (release written items).count ')' = written.count ')' := by
  induction items generalizing written with
  | nil => exact ⟨rfl, rfl⟩
  | cons item rest ih =>
    obtain ⟨openings, closings⟩ := ih (' ' :: item.char :: written)
    constructor
    · refine openings.trans ?_
      cases item with
      | parenthesis =>
        simp [Waiting.char]
        omega
      | operator op => simp [Waiting.char, (IsOperator.char op).other.1]
    · refine closings.trans ?_
      simp [item.char_not_closing]

end Yard

/-- A converted text has one parenthesis for each that is open at the end. -/
theorem count_ofInfix (text : List Char) :
    (ofInfix text).count '(' = openDepth text ∧ (ofInfix text).count ')' = 0 := by
  have blank : Yard.Bracketless ({} : Yard).written := by simp [Yard.Bracketless]
  have bracketless := Yard.bracketless_foldl blank (withLeadingZero text)
  have waiting := congrArg Sheet.waiting (Yard.sheet_ofText text).1
  obtain ⟨openings, closings⟩ := Yard.count_release
    ((withLeadingZero text).foldl Yard.step {}).written (Sheet.ofText text).waiting
  rw [List.count_eq_zero.mpr fun member => (bracketless '(' member).1 rfl, Sheet.count_ofText,
    Nat.zero_add] at openings
  rw [List.count_eq_zero.mpr fun member => (bracketless ')' member).2 rfl] at closings
  rw [← waiting] at openings closings
  rw [ofInfix, Text.count_trim (by decide), Text.count_trim (by decide), Yard.finish,
    List.count_reverse, List.count_reverse]
  exact ⟨openings, closings⟩

end Reckoner.Postfix

namespace Reckoner.Infix
open Postfix

/-- Whatever the text, its postfix has no closing parenthesis, and of opening ones those
that nothing closes. A text that closes too early or leaves some open has a fault under
every table. -/
theorem misnested_faulty (text : List Char) :
    ')' ∉ ofInfix text ∧ (ofInfix text).count '(' = openDepth text ∧
      ((∃ front, front <+: text ∧ front.count '(' < front.count ')') ∨
          text.count '(' ≠ text.count ')' →
        ∀ table, ∃ fault, value table text = .error fault) := by
  obtain ⟨openings, closings⟩ := count_ofInfix text
  refine ⟨List.count_eq_zero.mp closings, openings, ?_⟩
  intro misnested table
  cases found : value table text with
  | error fault => exact ⟨fault, rfl⟩
  | ok number =>
    obtain ⟨_, nested⟩ := nested_of_value found
    obtain ⟨front, before, early⟩ | unequal := misnested
    · have := nested.1 front before
      omega
    · exact absurd nested.2 unequal

/-- The form admits this text, in which one parenthesis is closed before one is opened. -/
theorem misnested_faulty_early :
    accepts ['2', '+', ')', '3', '('] = true ∧
      ')' ∉ ofInfix ['2', '+', ')', '3', '('] ∧
      ∀ table, ∃ fault, value table ['2', '+', ')', '3', '('] = .error fault := by
  have facts := misnested_faulty ['2', '+', ')', '3', '(']
  have early : ['2', '+', ')'] <+: ['2', '+', ')', '3', '('] := ⟨['3', '('], rfl⟩
  exact ⟨rfl, facts.1, facts.2.2 (.inl ⟨_, early, by decide⟩)⟩

end Reckoner.Infix
