import Reckoner.Proofs.Infix.Plain
import Reckoner.Proofs.Postfix.Above
import Reckoner.Tree.Front

/-! A sign in front of the first operand of a typed tree. Its left operand is a zero, which
has two sources: the conversion writes one where a sign leads the whole text, and behind
parentheses the sign is left with the zero at the bottom of the stack. Read with a zero
typed before the sign, the text spells the tree that the sign means, so the first
source gives that tree's words at once. The second gives the same words but for the zero,
and running what is left on top of a zero is the same as running all of them. -/
namespace Reckoner.Postfix
open Infix.Grammar

/-- One value is left on the stack, above whatever was there. -/
theorem top_postorder (table : Table) {tree : Tree} (leaves : tree.Leaves Operand)
    (stack : List Int) : run table stack tree.postorder >>= top = tree.value table := by
  rw [run_postorder table leaves]
  cases tree.value table <;> rfl

namespace Sheet

theorem read_openings (count : Nat) :
    (read (List.replicate (count + 1) '(')).words = [] ∧
      (read (List.replicate (count + 1) '(')).last? = some '(' := by
  induction count with
  | zero => exact ⟨rfl, rfl⟩
  | succ count ih =>
    rw [List.replicate_succ', read_concat]
    exact ⟨ih.1, rfl⟩

/-- Behind a parenthesis a sign waits in the same way with and without a zero before it. -/
theorem above_zero {sheet : Sheet} (empty : sheet.words = []) (behind : sheet.last? = some '(')
    (sign : Operator) :
    Above [['0']] [] (sheet.step sign.char) ((sheet.step '0').step sign.char) := by
  have zero : sheet.step '0' = ⟨[['0']], sheet.waiting, some '0'⟩ := by
    rw [step_operand rfl (by decide), operand, inOperand, behind, empty]
    rfl
  rw [zero, step_operator ⟨'(', behind, rfl⟩, step_operator ⟨'0', rfl, rfl⟩, empty]
  exact ⟨release_front [['0']] [] _, (List.append_nil _).symm, rfl, fun _ => rfl⟩

theorem finish_zero (count : Nat) (sign : Operator) {text : List Char}
    (soft : ∀ c ∈ text, Text.isBlank c = true → c = ' ') :
    (read (List.replicate (count + 1) '(' ++ '0' :: sign.char :: text)).finish =
      ['0'] :: (read (List.replicate (count + 1) '(' ++ sign.char :: text)).finish := by
  obtain ⟨empty, behind⟩ := read_openings count
  have above := above_zero empty behind sign
  have started : ((read (List.replicate (count + 1) '(')).step sign.char).Started := by
    intro inside
    rw [step_operator ⟨'(', behind, rfl⟩] at inside
    simp [inOperand] at inside
  rw [read_append, read_append]
  exact (above.foldl_soft started soft).finish

end Sheet
end Reckoner.Postfix

namespace Reckoner.Infix
open Grammar Text Postfix Reckoner.Tree

section

variable {level : Nat} {tree : Tree} {text gap : List Char} {sign : Operator}

theorem head_append {good : Char → Prop} {front rest : List Char}
    (first : ∀ c ∈ front.head?, good c) (next : ∀ c ∈ rest.head?, good c) :
    ∀ c ∈ (front ++ rest).head?, good c := by
  cases front with
  | nil => exact next
  | cons c tail => exact first

/-- Behind the first operand comes none of its characters. -/
theorem plain_front (plain : Plain level tree text) :
    ∃ rest, text = List.replicate (tree.openings level) '(' ++ tree.firstWord ++ rest ∧
      ∀ c ∈ rest.head?, ¬IsOperand c := by
  induction plain with
  | leaf word => exact ⟨[], by simp [openings, firstWord], nofun⟩
  | @node level op left right first second before behind least _ _ gapBefore _ ih _ =>
    obtain ⟨rest, rfl, apart⟩ := ih
    rw [openings_node least, firstWord]
    refine ⟨rest ++ (before ++ op.char :: behind ++ second), by simp, head_append apart ?_⟩
    intro c head
    obtain rfl | rfl := gapBefore
    · cases head
      exact (IsOperator.char op).not_operand
    · cases head
      simp [IsOperand]
  | parentheses loose _ ih =>
    obtain ⟨rest, rfl, apart⟩ := ih
    rw [openings_loose loose]
    refine ⟨rest ++ [')'], by simp [List.replicate_succ], head_append apart ?_⟩
    intro c head
    cases head
    simp [IsOperand]

theorem plain_soft (plain : Plain level tree text) (leaves : tree.Leaves Operand) :
    ∀ c ∈ text, isBlank c = true → c = ' ' :=
  Sheet.spelled_soft plain.spelled (leaves_mono (fun _ => word_of_operand) leaves)

/-- A text that opens with an operand is still accepted with a sign before it. -/
theorem accepts_leadingSign {count : Nat} {word rest : List Char}
    (accepted : accepts (List.replicate count '(' ++ word ++ rest) = true) (operand : Operand word)
    (isSign : IsSign sign.char) (isGap : Gap gap) :
    accepts (List.replicate count '(' ++ sign.char :: gap ++ word ++ rest) = true := by
  obtain ⟨balanced, last, led, ends⟩ := accepts_iff.mp accepted
  have openings : AllAre (· = '(') (List.replicate count '(') := fun _ => List.eq_of_mem_replicate
  have opened := Place.foldlM_openings openings
  obtain ⟨run, reached⟩ := Place.foldlM_operand operand
  -- the operand leads to one place from every place before it, so the rest goes on as before
  have continued : rest.foldlM Place.step (.first run) = some last := by
    rw [List.foldlM_append, Place.foldlM_trans opened ((reached .head).1 rfl)] at led
    exact led
  obtain ⟨middle, reached₁, source⟩ := Place.foldlM_leadSign (.inr ⟨sign.char, isSign, rfl⟩)
  obtain ⟨place, reached₂, leading⟩ := Place.foldlM_leadBlank source (gap_blank isGap)
  have front := Place.foldlM_trans (Place.foldlM_trans opened reached₁) reached₂
  have whole := Place.foldlM_trans (Place.foldlM_trans front ((reached place).1 leading)) continued
  apply accepts_iff.mpr
  refine ⟨?_, last, by simpa using whole, ends⟩
  obtain ⟨notOpening, notClosing⟩ := isSign.operator.other
  simpa [List.count_append, notOpening, notClosing, count_gap isGap] using balanced

/-- The zero comes from the conversion where nothing stands before the sign, and from the
stack where a parenthesis does. -/
theorem value_of_fed {count : Nat} {text : List Char} {signed : Tree} (isSign : IsSign sign.char)
    (accepted : accepts (List.replicate count '(' ++ sign.char :: text) = true)
    (soft : ∀ c ∈ text, isBlank c = true → c = ' ')
    (spelled : Spelled 0 signed (List.replicate count '(' ++ '0' :: sign.char :: text))
    (leaves : signed.Leaves Operand) (table : Table) :
    value table (List.replicate count '(' ++ sign.char :: text) = signed.value table := by
  have words := leaves_mono (fun _ => word_of_operand) leaves
  rw [value, if_pos accepted, value_ofInfix]
  cases count with
  | zero =>
    have unsigned : hasLeadingSign ('0' :: sign.char :: text) = false := by
      rw [Bool.eq_false_iff, ne_eq, hasLeadingSign_cons (by decide)]
      simp [IsSign]
    have signs := (hasLeadingSign_cons isSign.operator.solid text).mpr isSign
    have converted := Sheet.finish_spelled spelled words unsigned
    rw [List.replicate_zero, List.nil_append] at converted ⊢
    rw [Sheet.ofText_unsigned unsigned, ← Sheet.ofText_signed signs] at converted
    rw [converted]
    exact top_postorder table leaves [0]
  | succ count =>
    have unsigned (rest : List Char) :
        hasLeadingSign (List.replicate (count + 1) '(' ++ rest) = false := hasLeadingSign_nest _
    have converted := Sheet.finish_spelled spelled words (unsigned _)
    -- the first word of the fed text puts the zero on an empty stack, where it is found anyway
    rw [Sheet.ofText_unsigned (unsigned _), Sheet.finish_zero count sign soft] at converted
    rw [Sheet.ofText_unsigned (unsigned _), ← top_postorder table leaves [], ← converted]
    rfl

end

/-- A sign, with or without a space behind it, may be typed in front of the first operand of
a plain text, whatever parentheses come before. The text then has the value of the tree in
which the first term of the innermost of these groups is added to zero, or subtracted from it. -/
theorem value_leadingSign {tree : Tree} {text : List Char} (plain : Plain 0 tree text)
    (leaves : tree.Leaves Operand) :
    ∃ rest, text = List.replicate (tree.openings 0) '(' ++ tree.firstWord ++ rest ∧
      (∀ c ∈ rest.head?, ¬IsOperand c) ∧
      ∀ sign, sign = .add ∨ sign = .sub → ∀ gap, Gap gap →
        accepts (List.replicate (tree.openings 0) '(' ++ sign.char :: gap ++ tree.firstWord ++
          rest) = true ∧
        ∀ table, value table (List.replicate (tree.openings 0) '(' ++ sign.char :: gap ++
          tree.firstWord ++ rest) = (tree.withSign sign).value table := by
  obtain ⟨rest, split, apart⟩ := plain_front plain
  refine ⟨rest, split, apart, ?_⟩
  intro sign isSign gap isGap
  have additive : sign.precedence = 0 := by obtain rfl | rfl := isSign <;> rfl
  have signChar : IsSign sign.char := by obtain rfl | rfl := isSign <;> simp [IsSign, Operator.char]
  have accepted := accepts_plain plain leaves
  rw [split] at accepted
  have signed := accepts_leadingSign accepted leaves.firstWord signChar isGap
  refine ⟨signed, fun table => ?_⟩
  obtain ⟨core, split', spelled⟩ := withSign_spelled additive isGap plain (.inl rfl)
  obtain rfl : core = tree.firstWord ++ rest := by
    rw [split, List.append_assoc] at split'
    exact (List.append_cancel_left split').symm
  have soft : ∀ c ∈ gap ++ tree.firstWord ++ rest, isBlank c = true → c = ' ' := by
    have whole := plain_soft plain leaves
    rw [split] at whole
    simp only [List.forall_mem_append] at whole ⊢
    exact ⟨⟨fun c member _ => isGap.spaces c member, whole.1.2⟩, whole.2⟩
  have leaves' := leaves.withSign sign (operand_digit rfl)
  have fed := @value_of_fed sign _ (gap ++ tree.firstWord ++ rest) _ signChar
    (by simpa using signed) soft (by simpa using spelled) leaves' table
  simpa using fed

/-- The sign takes the product with it, and leaves the second term and the power as they are. -/
theorem value_leadingSign_power :
    Plain 0 (.node .pow (.node .add (.node .mul (.leaf ['2']) (.leaf ['5'])) (.leaf ['1'])) (.leaf ['2']))
        ['(', '2', '*', '5', '+', '1', ')', '^', '2'] ∧
      accepts ['(', '-', ' ', '2', '*', '5', '+', '1', ')', '^', '2'] = true ∧
      value ∅ ['(', '-', ' ', '2', '*', '5', '+', '1', ')', '^', '2'] = .ok 81 := by
  have product : Plain 0 (.node .mul (.leaf ['2']) (.leaf ['5'])) ['2', '*', '5'] :=
    @Plain.node 0 .mul _ _ ['2'] ['5'] [] [] (by decide) (.leaf _) (.leaf _) (.inl rfl) (.inl rfl)
  have sum := @Plain.node 0 .add _ _ _ ['1'] [] [] (by decide) product (.leaf _) (.inl rfl) (.inl rfl)
  have enclosed := @Plain.parentheses 2 _ _ ⟨0, rfl, by decide⟩ sum
  have whole := @Plain.node 0 .pow _ _ _ ['2'] [] [] (by decide) enclosed (.leaf _) (.inl rfl)
    (.inl rfl)
  obtain ⟨rest, split, _, signs⟩ := value_leadingSign whole
    ⟨⟨⟨operand_digit rfl, operand_digit rfl⟩, operand_digit rfl⟩, operand_digit rfl⟩
  obtain rfl : rest = ['*', '5', '+', '1', ')', '^', '2'] := List.append_cancel_left split.symm
  obtain ⟨accepted, same⟩ := signs .sub (.inr rfl) [' '] (.inr rfl)
  exact ⟨whole, accepted, (same ∅).trans rfl⟩

end Reckoner.Infix
