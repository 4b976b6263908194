import Reckoner.Proofs.Infix.Scan
import Reckoner.Proofs.Postfix.Evaluation
import Reckoner.Proofs.Postfix.Turn
import Mathlib.Data.List.Infix

/-! Parentheses that do not nest are always reported. As many parentheses wait in
the yard as are open, closings without an opening one left aside, and one that is
still open at the end is written as a word which no evaluation gets past. -/
namespace Reckoner

/-- Nowhere more closings than openings so far, and equally many in all. -/
def Nested (text : List Char) : Prop :=
  (∀ front, front <+: text → front.count ')' ≤ front.count '(') ∧ text.count '(' = text.count ')'

/-- One character's effect on the number of open parentheses. -/
def openStep (depth : Nat) (c : Char) : Nat :=
  if c = '(' then depth + 1 else if c = ')' then depth - 1 else depth

theorem openStep_other {c : Char} (other : c ≠ '(' ∧ c ≠ ')') (depth : Nat) :
    openStep depth c = depth := by
  rw [openStep, if_neg other.1, if_neg other.2]

def openDepth (text : List Char) : Nat :=
  text.foldl openStep 0

theorem openDepth_concat (text : List Char) (c : Char) :
    openDepth (text ++ [c]) = openStep (openDepth text) c := by
  simp [openDepth, List.foldl_append]

/-- The openings are as many as the depth and the closings together exactly where
every closing had something to close. -/
theorem openDepth_count (text : List Char) :
    text.count '(' ≤ openDepth text + text.count ')' ∧
      (text.count '(' = openDepth text + text.count ')' ↔
        ∀ front, front <+: text → front.count ')' ≤ front.count '(') := by
  induction text using List.reverseRecOn with
  | nil => simp +contextual [openDepth]
  | append_singleton text c ih =>
    obtain ⟨bound, sound⟩ := ih
    have split : (∀ front, front <+: text ++ [c] → front.count ')' ≤ front.count '(') ↔
        (text ++ [c]).count ')' ≤ (text ++ [c]).count '(' ∧
          ∀ front, front <+: text → front.count ')' ≤ front.count '(' := by
      simp only [List.prefix_concat_iff, or_imp, forall_and, forall_eq]
    rw [split, ← sound, openDepth_concat, openStep, List.count_append, List.count_append]
    by_cases opening : c = '('
    · subst opening
      simp
      omega
    · by_cases closing : c = ')'
      · subst closing
        simp
        omega
      · simp [opening, closing]
        omega

theorem nested_iff {text : List Char} (balanced : text.count '(' = text.count ')') :
    Nested text ↔ openDepth text = 0 := by
  rw [Nested, ← (openDepth_count text).2]
  omega

namespace Postfix

theorem Turn.count_parenthesis {sheet : Sheet} {s : Symbol} {released : List Operator}
    {waiting : List Waiting} (turn : Turn sheet s released waiting) :
    waiting.count .parenthesis = openStep (sheet.waiting.count .parenthesis) s.char := by
  have none (released : List Operator) : (released.map Waiting.operator).count .parenthesis = 0 := by
    rw [List.count_eq_zero]
    simp
  cases turn with
  | opened => simp [openStep, Symbol.char]
  | closed split | unmatched split => simp [split, none, openStep, Symbol.char]
  | repeated _ same =>
    rw [Symbol.char, openStep_other (Infix.IsOperator.char _).other]
    rcases same with rfl | rfl
    · rfl
    · rcases sheet.waiting with _ | ⟨_ | op, rest⟩
      · rfl
      · rfl
      · cases op <;> simp [Waiting.flip]
  | pushed _ split =>
    rw [Symbol.char, openStep_other (Infix.IsOperator.char _).other]
    simp [split, none]

/-- Every character changes the number of waiting parentheses as it changes the
number of open ones. -/
theorem Sheet.count_step (sheet : Sheet) (c : Char) :
    (sheet.step c).waiting.count .parenthesis =
      openStep (sheet.waiting.count .parenthesis) c := by
  cases read : Symbol.ofChar? c with
  | none =>
    rw [openStep_other (Symbol.ofChar?_eq_none.mp read).1, step_waiting read]
  | some s =>
    obtain ⟨released, waiting, turn, turned⟩ := sheet.turn s
    rw [Symbol.ofChar?_eq_some.mp read, step_symbol, turned]
    exact turn.count_parenthesis

theorem Sheet.count_foldl (sheet : Sheet) (text : List Char) :
    (text.foldl step sheet).waiting.count .parenthesis =
      text.foldl openStep (sheet.waiting.count .parenthesis) := by
  induction text generalizing sheet with
  | nil => rfl
  | cons c rest ih => rw [List.foldl_cons, ih, count_step, List.foldl_cons]

theorem Sheet.count_ofText (text : List Char) :
    (Sheet.ofText text).waiting.count .parenthesis = openDepth text := by
  have start : (Sheet.initial (hasLeadingSign text)).waiting = [] := by
    rw [Sheet.initial]
    split <;> rfl
  rw [Sheet.ofText, count_foldl, start]
  rfl

/-- A word that is no atom is a fault once it is reached, unless there was one before. -/
theorem run_unreadable (table : Table) {words : List (List Char)} {word : List Char}
    (member : word ∈ words) (unreadable : Atom.read? word = none) (stack : List Int) :
    ∃ fault, run table stack words = .error fault := by
  obtain ⟨front, rest, rfl⟩ := List.mem_iff_append.mp member
  rw [run_append]
  cases run table stack front with
  | error fault => exact ⟨fault, rfl⟩
  | ok reached =>
    refine ⟨.malformedExpression, ?_⟩
    change run table reached (word :: rest) = _
    rw [run_cons, step, unreadable]
    rfl

theorem parenthesis_word {text : List Char} (opened : openDepth text ≠ 0) :
    ['('] ∈ (Sheet.ofText text).finish := by
  have waits : Waiting.parenthesis ∈ (Sheet.ofText text).waiting := by
    rw [← Sheet.count_ofText] at opened
    exact List.count_pos_iff.mp (Nat.pos_of_ne_zero opened)
  rw [Sheet.finish, Sheet.release, List.mem_append]
  exact .inr (List.mem_map.mpr ⟨.parenthesis, waits, rfl⟩)

end Postfix

/-- Only an accepted text whose parentheses nest can have a value. -/
theorem Infix.nested_of_value {table : Table} {text : List Char} {number : Int}
    (found : Infix.value table text = .ok number) : accepts text = true ∧ Nested text := by
  rw [value] at found
  split at found
  · next accepted =>
    refine ⟨accepted, (nested_iff (accepts_iff.mp accepted).1).mpr ?_⟩
    by_contra opened
    obtain ⟨fault, failed⟩ :=
      Postfix.run_unreadable table (Postfix.parenthesis_word opened) rfl [0]
    rw [Postfix.value_ofInfix, failed] at found
    cases found
  · cases found

end Reckoner
