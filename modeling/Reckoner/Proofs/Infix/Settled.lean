import Reckoner.Proofs.Infix.Characters
import Reckoner.Proofs.Postfix.Order
import Mathlib.Data.List.Induction

/-! Where no operator waits. A closing parenthesis releases all that its pair encloses,
so at the end of a text no operator waits exactly if each of them stands inside some
pair that is closed by then. -/
namespace Reckoner
open Infix

/-- Backwards through a text, with the number of parentheses that are closed behind. -/
def settled : Nat → List Char → Bool
  | _, [] => true
  | closed, c :: before =>
    if c = ')' then settled (closed + 1) before
    else if c = '(' then settled (closed - 1) before
    else (0 < closed || (Operator.ofChar? c).isNone) && settled closed before

/-- Each operator stands inside a pair of parentheses that the text closes. -/
def Settled (text : List Char) : Prop :=
  settled 0 text.reverse = true

theorem settled_other {c : Char} (bracketless : c ≠ '(' ∧ c ≠ ')') (other : ¬IsOperator c)
    (closed : Nat) (before : List Char) : settled closed (c :: before) = settled closed before := by
  rw [settled, if_neg bracketless.2, if_neg bracketless.1, IsOperator.none_iff.mpr other]
  simp

theorem settled_operator (op : Operator) (closed : Nat) (before : List Char) :
    settled closed (op.char :: before) = (decide (0 < closed) && settled closed before) := by
  rw [settled, if_neg (IsOperator.char op).other.2, if_neg (IsOperator.char op).other.1,
    Operator.ofChar?_char]
  simp

theorem settled_compact (text : List Char) (closed : Nat) :
    settled closed (compact text).reverse = settled closed text.reverse := by
  induction text using List.reverseRecOn generalizing closed with
  | nil => rfl
  | append_singleton text c ih =>
    rw [List.reverse_append, List.reverse_singleton, List.singleton_append]
    by_cases blank : Grammar.IsBlank c
    · rw [compact_blank blank, ih, settled_other blank.other blank.not_operator]
    · rw [compact_other blank, List.reverse_append, List.reverse_singleton, List.singleton_append]
      simp only [settled, ih]

namespace Postfix

/-- What waits below the given number of parentheses. -/
def Waiting.below : Nat → List Waiting → List Waiting
  | 0, waiting => waiting
  | depth + 1, waiting => below depth (waiting.dropWhile Waiting.isOperator).tail

theorem Waiting.below_operators (released : List Operator) (rest : List Waiting) (depth : Nat) :
    below (depth + 1) (released.map .operator ++ rest) = below (depth + 1) rest := by
  have taken : ∀ item ∈ released.map Waiting.operator, item.isOperator = true := by
    simp [Waiting.isOperator]
  rw [below, List.dropWhile_append_of_pos taken, below]

/-- Behind an operator an operator is on top. -/
def Sheet.Topped (sheet : Sheet) : Prop :=
  ∀ op : Operator, sheet.last? = some op.char → ∃ top rest, sheet.waiting = .operator top :: rest

theorem Waiting.top_of_repeated {old waiting rest : List Waiting} {top : Operator}
    (same : waiting = old ∨ waiting = old.modifyHead Waiting.flip) (split : old = .operator top :: rest) :
    ∃ now, waiting = .operator now :: rest := by
  subst old
  rcases same with rfl | rfl
  · exact ⟨top, rfl⟩
  · cases top <;> exact ⟨_, rfl⟩

theorem Sheet.topped_read (text : List Char) : (Sheet.read text).Topped := by
  obtain ⟨same, _⟩ := Yard.sheet_read text
  rw [← same]
  intro op last
  obtain ⟨top, below, split, _⟩ := (Yard.Orderly.initial.foldl text).topped op last
  exact ⟨top, below, split⟩

/-- Below the parentheses that are still to be closed, operators wait just for those of
the text which no pair encloses then. -/
theorem Sheet.settled_iff (text : List Char) (closed : Nat) :
    settled closed text.reverse = true ↔
      ∀ item ∈ Waiting.below closed (Sheet.read text).waiting, item.isOperator = false := by
  induction text using List.reverseRecOn generalizing closed with
  | nil =>
    have empty : Waiting.below closed [] = [] := by
      induction closed with
      | zero => rfl
      | succ closed ih => exact ih
    simp [settled, read, empty]
  | append_singleton text c ih =>
    rw [List.reverse_append, List.reverse_singleton, List.singleton_append, read_concat]
    cases read : Symbol.ofChar? c with
    | none =>
      obtain ⟨bracketless, other⟩ := IsOperator.no_symbol_iff.mp read
      rw [settled_other bracketless other, step_waiting read]
      exact ih closed
    | some s =>
      obtain ⟨released, waiting, turn, turned⟩ := (Sheet.read text).turn s
      rw [Symbol.ofChar?_eq_some.mp read, step_symbol, turned]
      cases turn with
      | opened =>
        rw [Symbol.char, settled, if_neg (by decide), if_pos rfl]
        cases closed with
        | zero =>
          rw [Nat.zero_sub, ih, Waiting.below, Waiting.below, List.forall_mem_cons]
          exact (and_iff_right rfl).symm
        | succ closed => exact ih closed
      | closed split =>
        rw [Symbol.char, settled, if_pos rfl, ih, split, Waiting.below_operators]
        rfl
      | unmatched split =>
        rw [Symbol.char, settled, if_pos rfl, ih, split, ← List.append_nil (released.map _),
          Waiting.below_operators]
        rfl
      | @repeated op _ again same =>
        obtain ⟨top, rest, split⟩ := topped_read text op (last_of_repeats again)
        obtain ⟨now, same⟩ := Waiting.top_of_repeated same split
        rw [Symbol.char, settled_operator, same]
        cases closed with
        | zero => simp [Waiting.below, Waiting.isOperator]
        | succ closed =>
          rw [decide_eq_true (Nat.succ_pos closed), Bool.true_and, ih, split]
          rfl
      | @pushed op _ _ _ split =>
        rw [Symbol.char, settled_operator]
        cases closed with
        | zero => simp [Waiting.below, Waiting.isOperator]
        | succ closed =>
          rw [decide_eq_true (Nat.succ_pos closed), Bool.true_and, ih, split,
            Waiting.below_operators]
          rfl

end Postfix
end Reckoner
