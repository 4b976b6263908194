import Reckoner.Proofs.Infix.Stretch
import Reckoner.Proofs.Postfix.Evaluation
import Reckoner.Proofs.Postfix.Spelling

/-! A tree typed with the parentheses that it needs has the accepted form, and its
text has the value of the tree. -/
namespace Reckoner.Infix
open Grammar Text Reckoner.Tree

/-- Where a subtree's text may begin. -/
def Place.Begins (place : Place) : Prop :=
  place = .head ∨ place.Open

theorem gap_blank {gap : List Char} (isGap : Gap gap) : AtMostOne IsBlank gap := by
  obtain rfl | rfl := isGap
  · exact .inl rfl
  · exact .inr ⟨' ', rfl, rfl⟩

theorem link_char (op : Operator) : Link [op.char] := by
  obtain sign | tight := IsOperator.char op
  · exact .inl ⟨by simp, by simpa [AllAre] using sign⟩
  · exact .inr ⟨op.char, tight, rfl⟩

/-- An operator with its spaces leads from behind one operand to before the next. -/
theorem foldlM_operator (op : Operator) {place : Place} (ends : place.ends = true)
    {before behind : List Char} (gapBefore : Gap before) (gapBehind : Gap behind) :
    ∃ last, (before ++ op.char :: behind).foldlM Place.step place = some last ∧ last.Open := by
  obtain ⟨middle, spaced, complete⟩ := Place.foldlM_before ends (gap_blank gapBefore)
  obtain ⟨linked, joined, link⟩ := Place.foldlM_link complete (link_char op)
  obtain ⟨last, reached, isOpen⟩ := Place.foldlM_behind link (gap_blank gapBehind)
  exact ⟨last, Place.foldlM_trans spaced (Place.foldlM_trans joined reached), isOpen⟩

theorem step_opening {place : Place} (begins : place.Begins) :
    ∃ next, place.step '(' = some next ∧ next.Begins := by
  rw [Place.step_of_has (show Mark.opening.Has '(' from rfl)]
  obtain rfl | rfl | rfl | rfl := begins
  · exact ⟨.head, rfl, .inl rfl⟩
  all_goals exact ⟨.opened, rfl, .inr (.inr (.inr rfl))⟩

/-- Only a single operand at the very front ends where no parenthesis may follow,
and minimal parentheses never enclose a single operand. -/
theorem foldlM_plain {level : Nat} {tree : Tree} {text : List Char} (plain : Plain level tree text)
    (leaves : tree.Leaves Operand) {place : Place} (begins : place.Begins) :
    ∃ last, text.foldlM Place.step place = some last ∧ last.ends = true ∧
      (place ≠ .head ∨ tree.root? ≠ none → last.Enclosable) := by
  induction plain generalizing place with
  | leaf word =>
    obtain ⟨run, reached⟩ := Place.foldlM_operand leaves
    obtain rfl | isOpen := begins
    · exact ⟨.first run, (reached .head).1 rfl, rfl, by simp [root?]⟩
    · exact ⟨.later run, (reached place).2 isOpen.due, rfl, fun _ => .inl ⟨run, rfl⟩⟩
  | @node level op left right first second before behind _ _ _ gapBefore gapBehind ihl ihr =>
    obtain ⟨middle, reached₁, ends₁, _⟩ := ihl leaves.1 begins
    obtain ⟨between, reached₂, isOpen⟩ := foldlM_operator op ends₁ gapBefore gapBehind
    obtain ⟨last, reached₃, ends₃, enclosable⟩ := ihr leaves.2 (.inr isOpen)
    have notHead : between ≠ .head := by
      rintro rfl
      exact absurd isOpen.due (by decide)
    refine ⟨last, ?_, ends₃, fun _ => enclosable (.inl notHead)⟩
    have whole := Place.foldlM_trans reached₁ (Place.foldlM_trans reached₂ reached₃)
    simpa using whole
  | @parentheses level tree text loose _ ih =>
    obtain ⟨inner, opened, begins'⟩ := step_opening begins
    obtain ⟨last, reached, _, enclosable⟩ := ih leaves begins'
    have node : tree.root? ≠ none := by
      obtain ⟨precedence, root, _⟩ := loose
      simp [root]
    refine ⟨.closed, ?_, rfl, fun _ => .inr rfl⟩
    have closes := Place.step_parenthesis (enclosable (.inr node)) (.inr rfl)
    rw [List.cons_append, List.foldlM_cons, opened]
    exact Place.foldlM_trans reached (by rw [List.foldlM_cons, closes]; rfl)

theorem operand_all {word : List Char} (operand : Operand word) : ∀ c ∈ word, IsOperand c := by
  intro c member
  rcases operand.2 with digits | letters
  · exact Or.inl (digits c member)
  · exact Or.inr (letters c member)

theorem operand_soft {word : List Char} (operand : Operand word) :
    ∀ c ∈ word, isBlank c = true → c = ' ' := by
  intro c member blank
  rw [(operand_all operand c member).solid] at blank
  cases blank

theorem word_of_operand {word : List Char} (operand : Operand word) : Postfix.Word word :=
  ⟨operand.1, fun c member =>
    have isOperand := operand_all operand c member
    ⟨isOperand.no_symbol, isOperand.solid⟩⟩

theorem leaves_mono {good fine : List Char → Prop} (imp : ∀ word, good word → fine word)
    {tree : Tree} (leaves : tree.Leaves good) : tree.Leaves fine := by
  induction tree with
  | leaf word => exact imp word leaves
  | node op left right ihl ihr => exact ⟨ihl leaves.1, ihr leaves.2⟩

theorem count_operand {word : List Char} (operand : Operand word) {c : Char} (other : ¬IsOperand c) :
    word.count c = 0 :=
  List.count_eq_zero.mpr fun member => other (operand_all operand c member)

theorem count_gap {gap : List Char} (isGap : Gap gap) {c : Char} (solid : c ≠ ' ') :
    gap.count c = 0 :=
  List.count_eq_zero.mpr fun member => solid (isGap.spaces c member)

theorem count_plain {level : Nat} {tree : Tree} {text : List Char} (plain : Plain level tree text)
    (leaves : tree.Leaves Operand) : text.count '(' = text.count ')' := by
  induction plain with
  | leaf word =>
    rw [count_operand leaves (by simp [IsOperand]), count_operand leaves (by simp [IsOperand])]
  | @node level op left right first second before behind _ _ _ gapBefore gapBehind ihl ihr =>
    have notBracket : op.char ≠ '(' ∧ op.char ≠ ')' := by cases op <;> decide
    simp only [List.count_append, List.count_cons_of_ne notBracket.1,
      List.count_cons_of_ne notBracket.2, count_gap gapBefore, count_gap gapBehind, ihl leaves.1,
      ihr leaves.2, ne_eq, Char.reduceEq, not_false_eq_true]
  | parentheses _ _ ih =>
    have inner := ih leaves
    simp [List.count_append, inner]

theorem plain_unsigned {level : Nat} {tree : Tree} {text : List Char} (plain : Plain level tree text)
    (leaves : tree.Leaves Operand) : ∃ c rest, text = c :: rest ∧ ¬IsSign c := by
  induction plain with
  | leaf word =>
    obtain ⟨c, rest, rfl⟩ := List.exists_cons_of_ne_nil leaves.1
    exact ⟨c, rest, rfl, (operand_all leaves c List.mem_cons_self).unsigned⟩
  | node _ _ _ _ _ ihl _ =>
    obtain ⟨c, rest, rfl, unsigned⟩ := ihl leaves.1
    exact ⟨c, _, rfl, unsigned⟩
  | parentheses _ _ _ => exact ⟨'(', _, rfl, by simp [IsSign]⟩

theorem accepts_plain {tree : Tree} {text : List Char} (plain : Plain 0 tree text)
    (leaves : tree.Leaves Operand) : accepts text = true := by
  obtain ⟨last, reached, ends, _⟩ := foldlM_plain plain leaves (.inl rfl)
  exact accepts_iff.mpr ⟨count_plain plain leaves, last, reached, ends⟩

/-- A text typed with minimal parentheses is accepted and has its tree's value:
operators of one precedence group to the left, the power too, and the fault that
is reported is the one which the evaluation from left to right meets first. -/
theorem value_plain (table : Table) {tree : Tree} {text : List Char} (plain : Plain 0 tree text)
    (leaves : tree.Leaves Operand) :
    accepts text = true ∧ value table text = tree.value table ∧
      value table text ≠ .error .malformedExpression := by
  have accepted := accepts_plain plain leaves
  have unsigned : Postfix.hasLeadingSign text = false := by
    obtain ⟨_, place, led, _⟩ := accepts_iff.mp accepted
    obtain ⟨c, rest, rfl, notSign⟩ := plain_unsigned plain leaves
    rw [Bool.eq_false_iff, ne_eq, hasLeadingSign_iff led]
    simpa using notSign
  have converted : value table text = tree.value table := by
    rw [value, if_pos accepted, Postfix.value_ofInfix,
      Postfix.Sheet.finish_spelled plain.spelled (leaves_mono (fun _ => word_of_operand) leaves)
        unsigned, Postfix.run_postorder table leaves]
    cases tree.value table <;> rfl
  exact ⟨accepted, converted, converted ▸ Postfix.tree_value_well_formed table leaves⟩

/-- Two powers in a row are grouped to the left. -/
theorem value_powers :
    Plain 0 (.node .pow (.node .pow (.node .sub (.leaf ['2']) (.leaf ['5'])) (.leaf ['3']))
        (.leaf ['2'])) ['(', '2', ' ', '-', ' ', '5', ')', '^', '3', ' ', '^', '2'] ∧
      accepts ['(', '2', ' ', '-', ' ', '5', ')', '^', '3', ' ', '^', '2'] = true ∧
      value ∅ ['(', '2', ' ', '-', ' ', '5', ')', '^', '3', ' ', '^', '2'] = .ok 729 := by
  have operand (c : Char) (digit : c.isDigit = true) : Operand [c] :=
    ⟨by simp, .inl fun d member => List.mem_singleton.mp member ▸ digit⟩
  have difference : Plain 0 (.node .sub (.leaf ['2']) (.leaf ['5'])) ['2', ' ', '-', ' ', '5'] :=
    @Plain.node 0 .sub _ _ ['2'] ['5'] [' '] [' '] (by decide) (.leaf _) (.leaf _) (.inr rfl) (.inr rfl)
  have enclosed : Plain 2 (.node .sub (.leaf ['2']) (.leaf ['5']))
      ['(', '2', ' ', '-', ' ', '5', ')'] :=
    .parentheses ⟨0, rfl, by decide⟩ difference
  have inner : Plain 2 (.node .pow (.node .sub (.leaf ['2']) (.leaf ['5'])) (.leaf ['3']))
      ['(', '2', ' ', '-', ' ', '5', ')', '^', '3'] :=
    @Plain.node 2 .pow _ _ _ ['3'] [] [] (by decide) enclosed (.leaf _) (.inl rfl) (.inl rfl)
  have whole := @Plain.node 0 .pow _ _ _ ['2'] [' '] [] (by decide) inner (.leaf _) (.inr rfl)
    (.inl rfl)
  obtain ⟨accepted, same, _⟩ := value_plain ∅ whole
    ⟨⟨⟨operand '2' rfl, operand '5' rfl⟩, operand '3' rfl⟩, operand '2' rfl⟩
  exact ⟨whole, accepted, same.trans rfl⟩

end Reckoner.Infix
