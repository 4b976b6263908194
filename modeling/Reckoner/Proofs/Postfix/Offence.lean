import Reckoner.Postfix.Rules
import Reckoner.Proofs.Postfix.Evaluation
import Mathlib.Data.List.Induction

/-! Postfix words judged one by one. The stack is as high as the words in front are deep and
never empty, so a text has a value if each of its words is sound, and otherwise the fault of
the first that is not, whatever stands behind. -/
namespace Reckoner.Postfix

section Depth

variable {words : List (List Char)} {word : List Char}

theorem isOperator_eq_false {atom : Atom} (written : atom.Written word)
    (other : ∀ op, atom ≠ .operator op) : isOperator word = false := by
  have read := Atom.read?_eq_some.mpr written
  cases named : Operator.ofWord? word with
  | none => simp [isOperator, named]
  | some op =>
    rw [Operator.ofWord?_eq_some.mp named, Atom.read?_operator] at read
    exact absurd (Option.some.inj read).symm (other op)

theorem depth_operand (operand : isOperand word = true) (other : isOperator word = false) :
    depth (words ++ [word]) = depth words + 1 := by
  have counts : (words ++ [word]).countP isOperand = words.countP isOperand + 1 ∧
      (words ++ [word]).countP isOperator = words.countP isOperator := by
    simp [List.countP_append, operand, other]
  simp only [depth, counts]
  omega

theorem depth_name (name : Name) : depth (words ++ [name.letters]) = depth words + 1 := by
  apply depth_operand
  · simp [isOperand, name.valid]
  · exact isOperator_eq_false (.name name) nofun

theorem depth_numeral {value : Int} (numeral : Numeral.read? word = some value) :
    depth (words ++ [word]) = depth words + 1 := by
  apply depth_operand
  · simp [isOperand, numeral]
  · exact isOperator_eq_false (.number numeral) nofun

theorem depth_operator (op : Operator) : depth (words ++ [[op.char]]) = depth words - 1 := by
  have operator : isOperator [op.char] = true := by
    simp [isOperator, Operator.ofWord?_eq_some.mpr rfl]
  have other : isOperand [op.char] = false := by
    have unlettered : isName [op.char] = false := by cases op <;> rfl
    simp [isOperand, unlettered, Numeral.read?_operator]
  have counts : (words ++ [[op.char]]).countP isOperand = words.countP isOperand ∧
      (words ++ [[op.char]]).countP isOperator = words.countP isOperator + 1 := by
    simp [List.countP_append, operator, other]
  simp only [depth, counts]
  omega

end Depth

variable {table : Table} {front words : List (List Char)} {word : List Char}
  {stack next : List Int} {fault : Fault}

namespace Yields

theorem nonempty (yields : Yields table words stack) : stack ≠ [] := by
  cases yields with
  | zero => exact List.cons_ne_nil _ _
  | word _ takes => cases takes <;> exact List.cons_ne_nil _ _

/-- The values lie one above the other, down to the zero. -/
theorem depth (yields : Yields table words stack) : depth words = stack.length := by
  induction yields with
  | zero => rfl
  | word _ takes ih =>
    cases takes with
    | name => simp [depth_name, ih]
    | numeral numeral => simp [depth_numeral numeral, ih]
    | operator => simp [depth_operator, ih]

theorem depth_pos (yields : Yields table words stack) : 1 ≤ Postfix.depth words := by
  have positive := List.length_pos_iff.mpr yields.nonempty
  have deep := yields.depth
  omega

theorem two_le_depth {left right : Int} {rest : List Int}
    (yields : Yields table words (right :: left :: rest)) : 2 ≤ Postfix.depth words := by
  have deep := yields.depth
  simp only [List.length_cons] at deep
  omega

/-- A word that can be worked out is sound. -/
theorem sound (reached : Yields table front stack) (takes : Takes table stack word next) :
    Sound table front word := by
  cases takes with
  | name found => exact .name (Std.ExtTreeMap.mem_iff_isSome_getElem?.mpr (by simp [found]))
  | numeral numeral => exact .numeral numeral
  | operator combined => exact .operator reached.two_le_depth reached combined

/-- A word that is refused is refused for what the rules say is wrong with it. -/
theorem offends (reached : Yields table front stack) (refuses : Refuses table stack word fault) :
    Offends table front word fault := by
  cases refuses with
  | undefined missing => exact .undefined missing
  | division => exact .division reached.two_le_depth reached
  | shallow few =>
    have deep := reached.depth
    have positive := reached.depth_pos
    exact .shallow (by omega)
  | unreadable unread =>
    obtain ⟨unlettered, operator, numeral⟩ := Atom.read?_eq_none.mp unread
    exact .unreadable (by simp [isOperand, unlettered, numeral]) (by simp [isOperator, operator])

end Yields

section Run

/-- The rules leave what a run leaves. -/
theorem yields_iff_run : Yields table words stack ↔ run table [0] words = .ok stack := by
  constructor
  · intro yields
    induction yields with
    | zero => rfl
    | word _ takes ih => exact run_append_eq_ok.mpr ⟨_, ih, (run_singleton ..).trans takes.step⟩
  · intro done
    induction words using List.reverseRecOn generalizing stack with
    | nil =>
      cases done
      exact .zero
    | append_singleton front word ih =>
      obtain ⟨middle, reached, stepped⟩ := run_append_eq_ok.mp done
      rw [run_singleton] at stepped
      exact .word (ih reached) (takes_iff_step.mpr stepped)

theorem Yields.unique (yields : Yields table words stack) (again : Yields table words next) :
    stack = next := by
  have same := (yields_iff_run.mp yields).symm.trans (yields_iff_run.mp again)
  simpa using same

theorem Sound.takes (sound : Sound table front word) (reached : Yields table front stack) :
    ∃ next, Takes table stack word next := by
  cases sound with
  | name member =>
    rw [Std.ExtTreeMap.mem_iff_isSome_getElem?, Option.isSome_iff_exists] at member
    obtain ⟨value, found⟩ := member
    exact ⟨_, .name found⟩
  | numeral numeral => exact ⟨_, .numeral numeral⟩
  | operator _ yields combined =>
    obtain rfl := reached.unique yields
    exact ⟨_, .operator combined⟩

theorem Offends.refuses (offends : Offends table front word fault)
    (reached : Yields table front stack) : Refuses table stack word fault := by
  cases offends with
  | undefined missing => exact .undefined missing
  | division _ yields =>
    obtain rfl := reached.unique yields
    exact .division
  | shallow shallow =>
    have deep := reached.depth
    exact .shallow (by omega)
  | unreadable operand operator =>
    simp only [isOperand, Bool.or_eq_false_iff, Option.isSome_eq_false_iff,
      Option.isNone_iff_eq_none] at operand
    simp only [isOperator, Option.isSome_eq_false_iff, Option.isNone_iff_eq_none] at operator
    exact .unreadable (Atom.read?_eq_none.mpr ⟨operand.1, operator, operand.2⟩)

theorem allSound_iff_run : AllSound table words ↔ ∃ stack, run table [0] words = .ok stack := by
  constructor
  · intro sound
    cases done : run table [0] words with
    | ok stack => exact ⟨stack, rfl⟩
    | error fault =>
      obtain ⟨front, word, rest, middle, split, reached, failed⟩ := run_eq_error.mp done
      obtain ⟨next, takes⟩ := (sound front word rest split).takes (yields_iff_run.mpr reached)
      rw [takes.step] at failed
      cases failed
  · rintro ⟨stack, done⟩ front word rest rfl
    obtain ⟨middle, reached, further⟩ := run_append_eq_ok.mp done
    obtain ⟨next, stepped, _⟩ := run_cons_eq_ok.mp further
    exact (yields_iff_run.mpr reached).sound (takes_iff_step.mpr stepped)

/-- Words that cannot all be worked out fail at the first that offends. -/
theorem run_eq_error_iff_offends : run table [0] words = .error fault ↔
    ∃ front word rest, words = front ++ word :: rest ∧ AllSound table front ∧
      Offends table front word fault := by
  rw [run_eq_error]
  constructor
  · rintro ⟨front, word, rest, middle, split, reached, failed⟩
    exact ⟨front, word, rest, split, allSound_iff_run.mpr ⟨middle, reached⟩,
      (yields_iff_run.mpr reached).offends (refuses_iff_step.mpr failed)⟩
  · rintro ⟨front, word, rest, split, sound, offends⟩
    obtain ⟨middle, reached⟩ := allSound_iff_run.mp sound
    exact ⟨front, word, rest, middle, split, reached,
      (offends.refuses (yields_iff_run.mpr reached)).step⟩

end Run

section Value

variable {text : List Char}

/-- There is always a value on top at the end. -/
theorem value_eq_ok {number : Int} : value table text = .ok number ↔
    ∃ rest, run table [0] (Text.words text) = .ok (number :: rest) := by
  rw [value]
  cases done : run table [0] (Text.words text) with
  | error fault => simp [bind, Except.bind]
  | ok stack =>
    obtain ⟨last, rest, rfl⟩ := List.exists_cons_of_ne_nil (yields_iff_run.mpr done).nonempty
    simp [bind, Except.bind, top]

theorem value_eq_error : value table text = .error fault ↔
    run table [0] (Text.words text) = .error fault := by
  rw [value]
  cases done : run table [0] (Text.words text) with
  | error other => simp [bind, Except.bind]
  | ok stack =>
    obtain ⟨last, rest, rfl⟩ := List.exists_cons_of_ne_nil (yields_iff_run.mpr done).nonempty
    simp [bind, Except.bind, top]

theorem words_append_space (front behind : List Char) :
    Text.words (front ++ ' ' :: behind) = Text.words front ++ Text.words behind :=
  Text.words_append_blank (by decide) front behind

/-- What stands behind a fault is never reached. -/
theorem value_append_fault (failed : value table text = .error fault) (behind : List Char) :
    value table (text ++ ' ' :: behind) = .error fault := by
  rw [value_eq_error] at failed ⊢
  rw [words_append_space, run_append, failed]
  rfl

end Value

/-- A text has a value if and only if each of its words is sound behind those in front of it,
and then it is the one that the rules leave last. Otherwise it has the fault of the first word
that is not sound. Where all are sound the depth is at least one, so the stack never runs out
of values, and a fault stays the same whatever is typed behind it. -/
theorem value_first_offence (table : Table) (text : List Char) :
    ((∃ number, value table text = .ok number) ↔ AllSound table (Text.words text)) ∧
    (∀ number, value table text = .ok number ↔
      ∃ rest, Yields table (Text.words text) (number :: rest)) ∧
    (∀ fault, value table text = .error fault ↔
      ∃ front word rest, Text.words text = front ++ word :: rest ∧ AllSound table front ∧
        Offends table front word fault) ∧
    (∀ front, AllSound table front →
      ∃ stack, run table [0] front = .ok stack ∧ depth front = stack.length ∧ 1 ≤ depth front) ∧
    ∀ fault behind, value table text = .error fault →
      value table (text ++ ' ' :: behind) = .error fault := by
  have valued (number : Int) : value table text = .ok number ↔
      ∃ rest, Yields table (Text.words text) (number :: rest) := by
    simp only [value_eq_ok, yields_iff_run]
  refine ⟨?_, valued, ?_, ?_, ?_⟩
  · simp only [value_eq_ok, allSound_iff_run]
    constructor
    · rintro ⟨number, rest, done⟩
      exact ⟨_, done⟩
    · rintro ⟨stack, done⟩
      obtain ⟨number, rest, rfl⟩ := List.exists_cons_of_ne_nil (yields_iff_run.mpr done).nonempty
      exact ⟨number, rest, done⟩
  · intro fault
    rw [value_eq_error, run_eq_error_iff_offends]
  · intro front sound
    obtain ⟨stack, done⟩ := allSound_iff_run.mp sound
    have yields := yields_iff_run.mpr done
    exact ⟨stack, done, yields.depth, yields.depth_pos⟩
  · intro fault behind failed
    exact value_append_fault failed behind

/-- The division comes before the name that has no value, and before the operator too many. -/
theorem value_first_offence_division :
    AllSound ∅ [['1'], ['0']] ∧ Offends ∅ [['1'], ['0']] ['/'] .divisionByZero ∧
      value ∅ ['1', ' ', '0', '\t', '/', ' ', 'x', ' ', '*', ' ', '*'] = .error .divisionByZero ∧
      depth [['1'], ['0']] = 3 := by
  obtain ⟨_, _, faulty, deep, _⟩ :=
    value_first_offence ∅ ['1', ' ', '0', '\t', '/', ' ', 'x', ' ', '*', ' ', '*']
  have reached : run ∅ [0] [['1'], ['0']] = .ok [0, 1, 0] := rfl
  have sound : AllSound ∅ [['1'], ['0']] := allSound_iff_run.mpr ⟨_, reached⟩
  have offends : Offends ∅ [['1'], ['0']] ['/'] .divisionByZero :=
    .division (by decide) (yields_iff_run.mpr reached)
  have words : Text.words ['1', ' ', '0', '\t', '/', ' ', 'x', ' ', '*', ' ', '*'] =
      [['1'], ['0']] ++ ['/'] :: [['x'], ['*'], ['*']] := by decide
  refine ⟨sound, offends, (faulty _).mpr ⟨_, _, _, words, sound, offends⟩, ?_⟩
  obtain ⟨stack, same, height, _⟩ := deep _ sound
  rw [reached] at same
  cases same
  exact height

end Reckoner.Postfix
