import Reckoner.Proofs.Postfix.Offence

/-! Words that need nothing from below. What lies under the values that they work on is left as
it is, so one such text behind another leaves both values, and an operator behind both combines
them. -/
namespace Reckoner.Postfix

/-- On an empty stack the words of the text leave one value, and nothing goes wrong. -/
def SelfContained (table : Table) (text : List Char) (number : Int) : Prop :=
  run table [] (Text.words text) = .ok [number]

section Frame

variable {table : Table} {stack next : List Int} {word : List Char} {words : List (List Char)}

theorem Takes.frame (takes : Takes table stack word next) (below : List Int) :
    Takes table (stack ++ below) word (next ++ below) := by
  cases takes with
  | name found => exact .name found
  | numeral numeral => exact .numeral numeral
  | operator combined => exact .operator combined

theorem run_frame (done : run table stack words = .ok next) (below : List Int) :
    run table (stack ++ below) words = .ok (next ++ below) := by
  induction words generalizing stack with
  | nil =>
    cases done
    rfl
  | cons word rest ih =>
    obtain ⟨middle, stepped, further⟩ := run_cons_eq_ok.mp done
    have takes := (takes_iff_step.mpr stepped).frame below
    exact run_cons_eq_ok.mpr ⟨middle ++ below, takes.step, ih further⟩

end Frame

theorem words_operator (op : Operator) : Text.words [op.char] = [[op.char]] := by
  cases op <;> rfl

variable {table : Table} {text behind : List Char} {number result : Int}

namespace SelfContained

theorem above (closed : SelfContained table text number) (stack : List Int) :
    run table stack (Text.words text) = .ok (number :: stack) :=
  run_frame closed stack

/-- Both values are left, the later one on top, and the operator finds them there. -/
theorem operation (first : SelfContained table text number)
    (second : SelfContained table behind result) (op : Operator) (stack : List Int) :
    run table stack (Text.words (text ++ ' ' :: behind ++ ' ' :: [op.char])) =
      (op.combine number result).map (· :: stack) := by
  rw [words_append_space, words_append_space, words_operator, run_append, run_append,
    first.above]
  change (run table (number :: stack) (Text.words behind) >>= fun _ => _) = _
  rw [second.above]
  change run table (result :: number :: stack) [[op.char]] = _
  rw [run_singleton, step_written (.operator op)]
  rfl

theorem value (closed : SelfContained table text number) : value table text = .ok number :=
  value_eq_ok.mpr ⟨[0], closed.above [0]⟩

end SelfContained

/-- A self-contained text has its value alone and behind any text that has one, for it leaves all
that lies below. Two of them and an operator have what the operator makes of their values, its
fault included, and are self-contained again if there is none. -/
theorem value_selfContained (closed : SelfContained table text number) :
    value table text = .ok number ∧
    (∀ stack, run table stack (Text.words text) = .ok (number :: stack)) ∧
    (∀ front other, value table front = .ok other →
      value table (front ++ ' ' :: text) = .ok number) ∧
    ∀ behind result, SelfContained table behind result → ∀ op : Operator,
      value table (text ++ ' ' :: behind ++ ' ' :: [op.char]) = op.combine number result ∧
      ∀ whole, op.combine number result = .ok whole →
        SelfContained table (text ++ ' ' :: behind ++ ' ' :: [op.char]) whole := by
  refine ⟨closed.value, closed.above, ?_, ?_⟩
  · intro front other valued
    obtain ⟨rest, done⟩ := value_eq_ok.mp valued
    refine value_eq_ok.mpr ⟨other :: rest, ?_⟩
    rw [words_append_space]
    exact run_append_eq_ok.mpr ⟨_, done, closed.above _⟩
  · intro behind result second op
    constructor
    · rw [Postfix.value, closed.operation second op]
      cases op.combine number result <;> rfl
    · intro whole combined
      rw [SelfContained, closed.operation second op, combined]
      rfl

/-- A difference behind two other values, as a left operand whose fault is reported, and as a
right operand. -/
theorem value_selfContained_difference :
    let less := ['1', ' ', '2', ' ', '-']
    let zero := ['3', '\n', '3', ' ', '-']
    (SelfContained ∅ less (-1) ∧ SelfContained ∅ zero 0) ∧
      value ∅ (['8', ' ', '9'] ++ ' ' :: less) = .ok (-1) ∧
      value ∅ (less ++ ' ' :: zero ++ [' ', '/']) = .error .divisionByZero ∧
      value ∅ (zero ++ ' ' :: less ++ [' ', '-']) = .ok 1 := by
  intro less zero
  have first : SelfContained ∅ less (-1) := rfl
  have second : SelfContained ∅ zero 0 := rfl
  obtain ⟨_, _, behind, quotient⟩ := value_selfContained first
  obtain ⟨_, _, _, difference⟩ := value_selfContained second
  exact ⟨⟨first, second⟩, behind ['8', ' ', '9'] 9 rfl, (quotient zero 0 second .div).1,
    (difference less (-1) first .sub).1⟩

end Reckoner.Postfix
