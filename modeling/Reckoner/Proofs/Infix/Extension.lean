import Reckoner.Proofs.Infix.Plain
import Reckoner.Proofs.Infix.Supply
import Reckoner.Proofs.Postfix.Above
import Reckoner.Proofs.Postfix.Offence

/-! A text extended by one more operation. Whatever the text left waiting is released before
the new operator, as it would be at the end, so the old value is the new left operand. That
needs the new operator to bind no tighter than anything that waits: a sign at the end of the
text does not, nor does any operator behind a pair of parentheses around all of it. -/
namespace Reckoner.Postfix

/-- What the value of a text becomes by an operator and a right operand. The fault of the
left side is the one reported. -/
def operate (table : Table) (op : Operator) (left : Except Fault Int) (word : List Char) :
    Except Fault Int := do
  let first ← left
  let second ← Tree.leafValue table word
  op.combine first second

theorem run_operation (table : Table) (words : List (List Char)) {word : List Char}
    (operand : Infix.Grammar.Operand word) (op : Operator) :
    run table [0] (words ++ [word, [op.char]]) >>= top =
      operate table op (run table [0] words >>= top) word := by
  rw [run_append]
  cases reached : run table [0] words with
  | error fault => rfl
  | ok stack =>
    obtain ⟨left, rest, rfl⟩ := List.exists_cons_of_ne_nil (yields_iff_run.mpr reached).nonempty
    change run table (left :: rest) [word, [op.char]] >>= top = operate table op (.ok left) word
    rw [run_cons, step_operand table _ operand, operate]
    cases Tree.leafValue table word with
    | error fault => rfl
    | ok right =>
      change run table (right :: left :: rest) [[op.char]] >>= top = op.combine left right
      rw [run_singleton, step, Atom.read?_operator]
      simp only [Atom.perform]
      cases op.combine left right <;> rfl

/-- The operator releases all that waits and is released itself at the end. -/
theorem Sheet.finish_operation {sheet : Sheet}
    (behind : ∃ c, sheet.last? = some c ∧ Operator.ofChar? c = none) {op : Operator}
    (binds : ∀ item ∈ sheet.waiting, item.binds op.precedence = true) {word : List Char}
    (isWord : Word word) :
    ((' ' :: op.char :: ' ' :: word).foldl step sheet).finish =
      sheet.finish ++ [word, [op.char]] := by
  have all : sheet.waiting.takeWhile (Waiting.binds op.precedence) = sheet.waiting :=
    List.takeWhile_eq_self_iff.mpr binds
  have none : sheet.waiting.dropWhile (Waiting.binds op.precedence) = [] :=
    List.dropWhile_eq_nil_iff.mpr binds
  have pushed := step_operator behind op
  rw [all, none] at pushed
  have outside : (sheet.step op.char).inOperand = false := by
    rw [pushed]
    simp [inOperand]
  rw [List.foldl_cons, step_space, List.foldl_cons, List.foldl_cons, step_space,
    foldl_word outside isWord, pushed]
  simp [finish, release, Waiting.char]

end Reckoner.Postfix

namespace Reckoner.Infix
open Grammar Text Postfix

section

variable {text word : List Char} {place : Place}

/-- An accepted text ends in a character of an operand or in a parenthesis. -/
theorem Scan.last_not_operator (scan : Scan text place) (ends : place.ends = true) :
    ∃ c, (Sheet.read text).last? = some c ∧ Operator.ofChar? c = none := by
  obtain rfl | ⟨front, c, rfl⟩ := List.eq_nil_or_concat text
  · have started : place = .head := by
      generalize empty : ([] : List Char) = text at scan
      cases scan with
      | start => rfl
      | next => simp at empty
    subst place
    cases ends
  · rw [List.concat_eq_append] at scan ⊢
    have last := scan.last c List.getLast?_concat
    have other : c ≠ ' ' ∧ ¬IsOperator c := by
      cases place with
      | first run | later run =>
        have operand := Run.Has.isOperand last
        exact ⟨ne_space operand.solid, operand.not_operator⟩
      | closed =>
        have parenthesis : IsParenthesis c := last
        exact ⟨ne_space parenthesis.solid, parenthesis.not_operator⟩
      | _ => contradiction
    refine ⟨c, ?_, IsOperator.none_iff.mpr other.2⟩
    rw [Sheet.read_concat, Sheet.step_last other.1]

/-- A text whose first operand is its only one ends inside that operand. -/
theorem Scan.operands_first (scan : Scan text place) :
    (place.leading = true → operands text = 0) ∧
      ∀ run, place = .first run → operands text = 1 := by
  induction scan with
  | start => exact ⟨fun _ => rfl, by simp⟩
  | @next text place next c scan move ih =>
    obtain ⟨leads, once⟩ := ih
    cases move with
    | nest =>
      refine ⟨fun _ => ?_, by simp⟩
      rw [operands_solid (by decide), leads rfl, beginsOperand_other (by simp [IsOperand])]
      rfl
    | leadSign sign =>
      refine ⟨fun _ => ?_, by simp⟩
      rw [operands_solid sign.operator.solid, leads rfl,
        beginsOperand_other sign.operator.not_operand]
      rfl
    | leadBlank source blank =>
      refine ⟨fun _ => ?_, by simp⟩
      rw [(counts_blank blank).1]
      apply leads
      obtain rfl | rfl := source <;> rfl
    | first leading has =>
      refine ⟨by simp [Place.leading], fun _ _ => ?_⟩
      have outside := scan.behind.not_operand (Place.incomplete_of_leading leading)
      rw [operands_solid has.isOperand.solid, leads leading,
        beginsOperand_first has.isOperand outside]
      rfl
    | @growFirst run _ has =>
      refine ⟨by simp [Place.leading], fun _ _ => ?_⟩
      obtain ⟨d, last, inside⟩ := scan.behind.inside (.inl rfl)
      rw [operands_solid has.isOperand.solid, last, beginsOperand_further inside.isOperand]
      exact once run rfl
    | _ => exact ⟨by simp, by simp⟩

theorem led_operation (led : text.foldlM Place.step .head = some place)
    (ends : place.ends = true) (op : Operator) (operand : Operand word) :
    ∃ last, (text ++ ' ' :: op.char :: ' ' :: word).foldlM Place.step .head = some last ∧
      last.ends = true := by
  obtain ⟨between, reached, isOpen⟩ := foldlM_operator op ends (.inr rfl) (.inr rfl)
  obtain ⟨run, reached'⟩ := Place.foldlM_operand operand
  have whole := Place.foldlM_trans led (Place.foldlM_trans reached ((reached' between).2 isOpen.due))
  exact ⟨.later run, by simpa using whole, rfl⟩

theorem accepts_operation (balanced : text.count '(' = text.count ')')
    (led : text.foldlM Place.step .head = some place) (ends : place.ends = true) (op : Operator)
    (operand : Operand word) : accepts (text ++ ' ' :: op.char :: ' ' :: word) = true := by
  obtain ⟨notOpening, notClosing⟩ := (IsOperator.char op).other
  have none (c : Char) (other : ¬IsOperand c) : word.count c = 0 := count_operand operand other
  apply accepts_iff.mpr
  refine ⟨?_, led_operation led ends op operand⟩
  simp [List.count_append, balanced, notOpening, notClosing,
    none '(' (by simp [IsOperand]), none ')' (by simp [IsOperand])]

/-- Only around a single operand does the form not admit parentheses. -/
theorem led_enclosed (led : text.foldlM Place.step .head = some place) (ends : place.ends = true)
    (several : 2 ≤ operands text) :
    ('(' :: text ++ [')']).foldlM Place.step .head = some .closed := by
  have enclosable : place.Enclosable := by
    cases place with
    | first run =>
      have one := (scan_of_foldlM led).operands_first.2 run rfl
      omega
    | later run => exact .inl ⟨run, rfl⟩
    | closed => exact .inr rfl
    | _ => contradiction
  have opens : ['('].foldlM Place.step .head = some .head := rfl
  have closes := Place.step_parenthesis enclosable (.inr rfl)
  apply Place.foldlM_trans (Place.foldlM_trans opens led)
  rw [List.foldlM_cons, closes]
  rfl

theorem waiting_of_nested (nested : Nested text) :
    ∀ item ∈ (Sheet.ofText text).waiting, item.isOperator = true := by
  have none : (Sheet.ofText text).waiting.count .parenthesis = 0 := by
    rw [Sheet.count_ofText]
    exact (nested_iff nested.2).mp nested
  intro item member
  cases item with
  | operator op => rfl
  | parenthesis => exact absurd member (List.count_eq_zero.mp none)

/-- Behind the text and within its parentheses the text itself is read as it is alone. -/
theorem read_enclosed (nested : Nested text) (unsigned : hasLeadingSign text = false) :
    Sheet.read ('(' :: text ++ [')']) = ⟨(Sheet.ofText text).finish, [], some ')'⟩ := by
  have above : Sheet.Above [] [.parenthesis] {} (Sheet.step {} '(') :=
    ⟨rfl, rfl, rfl, fun op => by cases op <;> rfl⟩
  have barred : Sheet.Barred [.parenthesis] := by simp [Sheet.Barred]
  have inside := above.foldl_nested barred nested.1
  have operators := waiting_of_nested nested
  rw [Sheet.ofText_unsigned unsigned] at operators ⊢
  -- the closing parenthesis releases the operators of the text and drops the opening one
  have boundary : Waiting.isOperator .parenthesis = false := rfl
  rw [Sheet.read_concat, Sheet.read, List.foldl_cons, show ')' = Symbol.closing.char from rfl,
    Sheet.step_symbol, Sheet.symbol, inside.waiting, inside.words,
    List.takeWhile_append_of_pos operators, List.dropWhile_append_of_pos operators]
  simp [boundary, Sheet.finish]

end

theorem value_behind {table : Table} {text front word : List Char} {op : Operator}
    (accepted : accepts text = true)
    (extended : accepts (front ++ ' ' :: op.char :: ' ' :: word) = true)
    (operand : Operand word) {sheet : Sheet}
    (read : Sheet.ofText (front ++ ' ' :: op.char :: ' ' :: word) =
      (' ' :: op.char :: ' ' :: word).foldl Sheet.step sheet)
    (behind : ∃ c, sheet.last? = some c ∧ Operator.ofChar? c = none)
    (binds : ∀ item ∈ sheet.waiting, item.binds op.precedence = true)
    (finish : sheet.finish = (Sheet.ofText text).finish) :
    value table (front ++ ' ' :: op.char :: ' ' :: word) =
      operate table op (value table text) word := by
  have isWord := word_of_operand operand
  rw [value, if_pos extended, value_ofInfix, read, Sheet.finish_operation behind binds isWord,
    finish, run_operation table _ operand, value, if_pos accepted, value_ofInfix]

section

variable {text word : List Char} (accepted : accepts text = true) (nested : Nested text)
  (operand : Operand word)

include accepted nested operand

/-- Whatever waits at the end binds as tightly as a sign. -/
theorem extended_sign {op : Operator} (sign : op = .add ∨ op = .sub) :
    accepts (text ++ ' ' :: op.char :: ' ' :: word) = true ∧
      ∀ table, value table (text ++ ' ' :: op.char :: ' ' :: word) =
        operate table op (value table text) word := by
  obtain ⟨balanced, place, led, ends⟩ := accepts_iff.mp accepted
  have extended := accepts_operation balanced led ends op operand
  refine ⟨extended, fun table => ?_⟩
  obtain ⟨last, lastEnds, scan⟩ := scan_of_accepts accepted
  have behind := scan.last_not_operator lastEnds
  rw [Sheet.read_withLeadingZero] at behind
  have read : Sheet.ofText (text ++ ' ' :: op.char :: ' ' :: word) =
      (' ' :: op.char :: ' ' :: word).foldl Sheet.step (Sheet.ofText text) := by
    obtain ⟨_, led', _⟩ := led_operation led ends op operand
    rw [Sheet.ofText, hasLeadingSign_append led' (by simp [IsSign]), List.foldl_append, ← Sheet.ofText]
  apply value_behind accepted extended operand read behind _ rfl
  intro item member
  have operator := waiting_of_nested nested item member
  cases item with
  | parenthesis => cases operator
  | operator other => obtain rfl | rfl := sign <;> simp [Waiting.binds, Operator.precedence]

/-- Nothing waits behind the closing parenthesis. -/
theorem extended_enclosed (several : 2 ≤ operands text) (unsigned : ∀ c ∈ text.head?, ¬IsSign c)
    (op : Operator) :
    accepts ('(' :: text ++ [')'] ++ ' ' :: op.char :: ' ' :: word) = true ∧
      ∀ table, value table ('(' :: text ++ [')'] ++ ' ' :: op.char :: ' ' :: word) =
        operate table op (value table text) word := by
  obtain ⟨balanced, place, led, ends⟩ := accepts_iff.mp accepted
  have enclosed := led_enclosed led ends several
  have extended := accepts_operation (by simp [balanced]) enclosed rfl op operand
  refine ⟨extended, fun table => ?_⟩
  have bare : hasLeadingSign text = false := by
    rw [Bool.eq_false_iff, ne_eq, hasLeadingSign_iff led]
    rintro ⟨c, head, sign⟩
    exact unsigned c head sign
  have read : Sheet.ofText ('(' :: text ++ [')'] ++ ' ' :: op.char :: ' ' :: word) =
      (' ' :: op.char :: ' ' :: word).foldl Sheet.step
        ⟨(Sheet.ofText text).finish, [], some ')'⟩ := by
    have inside : hasLeadingSign ('(' :: text ++ [')'] ++ ' ' :: op.char :: ' ' :: word) = false :=
      hasLeadingSign_nest _
    rw [Sheet.ofText_unsigned inside, Sheet.read_append, read_enclosed nested bare]
  apply value_behind accepted extended operand read ⟨')', rfl, rfl⟩
  · exact nofun
  · simp [Sheet.finish, Sheet.release]

end

/-- An accepted text whose parentheses nest, whatever signs it has, is the left operand of
what is typed behind it: of any sign, and, if it has two operands and no sign in front, of
any operator once it is enclosed in parentheses. -/
theorem value_extended {text word : List Char} (accepted : accepts text = true)
    (nested : Nested text) (operand : Operand word) :
    (∀ op, op = .add ∨ op = .sub → accepts (text ++ ' ' :: op.char :: ' ' :: word) = true ∧
      ∀ table, value table (text ++ ' ' :: op.char :: ' ' :: word) =
        operate table op (value table text) word) ∧
    (2 ≤ operands text → (∀ c ∈ text.head?, ¬IsSign c) → ∀ op,
      accepts ('(' :: text ++ [')'] ++ ' ' :: op.char :: ' ' :: word) = true ∧
        ∀ table, value table ('(' :: text ++ [')'] ++ ' ' :: op.char :: ' ' :: word) =
          operate table op (value table text) word) := by
  constructor
  · intro op sign
    exact extended_sign accepted nested operand sign
  · intro several unsigned op
    exact extended_enclosed accepted nested operand several unsigned op

/-- The second sign has no operand of its own, so the first takes the zero below: the
text has the value 1, behind a sign and in parentheses too. -/
theorem value_extended_twoSigns :
    accepts ['2', '-', '+', '3'] = true ∧ Nested ['2', '-', '+', '3'] ∧ Operand ['4'] ∧
      2 ≤ operands ['2', '-', '+', '3'] ∧ (∀ c ∈ ['2', '-', '+', '3'].head?, ¬IsSign c) ∧
      value ∅ ['2', '-', '+', '3', ' ', '-', ' ', '4'] = .ok (-3) ∧
      value ∅ ['(', '2', '-', '+', '3', ')', ' ', '*', ' ', '4'] = .ok 4 := by
  have accepted : accepts ['2', '-', '+', '3'] = true := rfl
  have nested : Nested ['2', '-', '+', '3'] := (nested_iff rfl).mpr rfl
  have operand : Operand ['4'] := operand_digit rfl
  have several : 2 ≤ operands ['2', '-', '+', '3'] := by decide
  have unsigned : ∀ c ∈ ['2', '-', '+', '3'].head?, ¬IsSign c := by simp [IsSign]
  obtain ⟨signs, operators⟩ := value_extended accepted nested operand
  have difference := (signs .sub (.inr rfl)).2 ∅
  have product := (operators several unsigned .mul).2 ∅
  exact ⟨accepted, nested, operand, several, unsigned, difference.trans rfl, product.trans rfl⟩

end Reckoner.Infix
