import Reckoner.Postfix.Rules
import Reckoner.Proofs.Postfix.Atom

/-! What one word does. It takes the stack to the next one by a rule, or is refused for one of
four causes. -/
namespace Reckoner.Postfix

/-- Why a word cannot be worked out on the stack. -/
inductive Refuses (table : Table) : List Int → List Char → Fault → Prop
  | undefined {stack : List Int} {name : Name} : name ∉ table →
      Refuses table stack name.letters .undefinedName
  | division {left : Int} {rest : List Int} :
      Refuses table (0 :: left :: rest) [Operator.div.char] .divisionByZero
  | shallow {stack : List Int} {op : Operator} : stack.length < 2 →
      Refuses table stack [op.char] .malformedExpression
  | unreadable {stack : List Int} {word : List Char} : Atom.read? word = none →
      Refuses table stack word .malformedExpression

/-- Of the operators only the division fails, and only by zero. -/
theorem combine_eq_error {op : Operator} {left right : Int} {fault : Fault} :
    op.combine left right = .error fault ↔ op = .div ∧ right = 0 ∧ fault = .divisionByZero := by
  cases op with
  | div =>
    by_cases zero : right = 0
    · simp [Operator.combine, zero, eq_comm]
    · simp [Operator.combine, zero]
  | _ => simp [Operator.combine]

variable {table : Table} {stack next : List Int} {word : List Char} {fault : Fault}

theorem step_written {atom : Atom} (written : atom.Written word) :
    step table stack word = atom.perform table stack := by
  rw [step, Atom.read?_eq_some.mpr written]

theorem Takes.step (takes : Takes table stack word next) :
    Postfix.step table stack word = .ok next := by
  cases takes with
  | name found => simp only [step_written (.name _), Atom.perform, found]
  | numeral numeral => simp only [step_written (.number numeral), Atom.perform]
  | operator combined => simp [step_written (.operator _), Atom.perform, combined, Except.map]

theorem Refuses.step (refuses : Refuses table stack word fault) :
    Postfix.step table stack word = .error fault := by
  cases refuses with
  | undefined missing => simp [step_written (.name _), Atom.perform, missing]
  | division => rfl
  | shallow few =>
    rw [step_written (.operator _)]
    rcases stack with _ | ⟨right, _ | ⟨left, rest⟩⟩
    · rfl
    · rfl
    · simp only [List.length_cons] at few
      omega
  | unreadable unread => rw [Postfix.step, unread]

/-- There is no third way. -/
theorem takes_or_refuses (table : Table) (stack : List Int) (word : List Char) :
    (∃ next, Takes table stack word next) ∨ ∃ fault, Refuses table stack word fault := by
  cases read : Atom.read? word with
  | none => exact .inr ⟨_, .unreadable read⟩
  | some atom =>
    cases Atom.read?_eq_some.mp read with
    | name name =>
      cases found : table[name]? with
      | none => exact .inr ⟨_, .undefined (by simpa using found)⟩
      | some value => exact .inl ⟨_, .name found⟩
    | number numeral => exact .inl ⟨_, .numeral numeral⟩
    | operator op =>
      rcases stack with _ | ⟨right, _ | ⟨left, rest⟩⟩
      · exact .inr ⟨_, .shallow (by simp)⟩
      · exact .inr ⟨_, .shallow (by simp)⟩
      · cases combined : op.combine left right with
        | ok value => exact .inl ⟨_, .operator combined⟩
        | error fault =>
          obtain ⟨rfl, rfl, rfl⟩ := combine_eq_error.mp combined
          exact .inr ⟨_, .division⟩

theorem takes_iff_step : Takes table stack word next ↔ step table stack word = .ok next := by
  refine ⟨Takes.step, fun stepped => ?_⟩
  obtain ⟨other, takes⟩ | ⟨fault, refuses⟩ := takes_or_refuses table stack word
  · obtain rfl : other = next := by simpa [takes.step] using stepped
    exact takes
  · rw [refuses.step] at stepped
    cases stepped

theorem refuses_iff_step : Refuses table stack word fault ↔ step table stack word = .error fault := by
  refine ⟨Refuses.step, fun failed => ?_⟩
  obtain ⟨next, takes⟩ | ⟨other, refuses⟩ := takes_or_refuses table stack word
  · rw [takes.step] at failed
    cases failed
  · obtain rfl : other = fault := by simpa [refuses.step] using failed
    exact refuses

end Reckoner.Postfix
