import Reckoner.Proofs.Infix.Atoms
import Reckoner.Proofs.Infix.Missing
import Reckoner.Proofs.Postfix.Conservation

/-! Accepted texts without parentheses. Nothing is enclosed in them, so whether their operators
are supplied shows in the text as a whole: the zero at the bottom of the stack makes good one
operator too many, wherever it stands, and no second one. -/
namespace Reckoner.Infix
open Grammar Text Postfix

/-- Every tight operator is a block, and every longest run of one sign, spaces aside. -/
def blocks (text : List Char) : Nat :=
  text.count '*' + text.count '/' + text.count '^' +
    (signRuns '+' text).length + (signRuns '-' text).length

/-- The operands, with the zero that a sign works against which the text begins with. -/
def supply (text : List Char) : Nat :=
  (runs Char.isAlphanum text).length + (isSigned text).toNat

/-- How many blocks there are beyond the one that belongs between each two operands. -/
def excess (text : List Char) : Int :=
  (blocks text : Int) - ((supply text : Int) - 1)

section Blocks

variable {text : List Char} {c : Char}

theorem compact_soft (soft : ∀ d ∈ text, isBlank d = true → d = ' ') :
    compact text = unspaced text := by
  refine List.filter_congr fun d member => ?_
  by_cases space : d = ' '
  · subst space
    rfl
  · have wide : isNarrowBlank d = false := by
      rw [Bool.eq_false_iff]
      exact fun narrow => space (soft d member (isBlank_of_isNarrowBlank narrow))
    simp [space, wide]

theorem blocks_space (text : List Char) : blocks (text ++ [' ']) = blocks text := by
  simp [blocks, signRuns, unspaced_concat_space]

theorem blocks_concat (solid : c ≠ ' ') (text : List Char) :
    blocks (text ++ [c]) = blocks text + (beginsOperator (unspaced text).getLast? c).toNat := by
  simp only [blocks, signRuns, unspaced_concat solid, length_runs_concat, List.count_append,
    List.count_singleton]
  by_cases operator : IsOperator c
  · have sign (before : Option Char) (sign : Char) :
        before.any (· == sign) = decide (before = some sign) := by
      apply Bool.eq_iff_iff.mpr
      simp [Option.any_eq_true]
    obtain (rfl | rfl) | rfl | rfl | rfl := operator <;>
      simp [beginsOperator, Operator.ofChar?, sign] <;> omega
  · have other : (c ≠ '+' ∧ c ≠ '-') ∧ c ≠ '*' ∧ c ≠ '/' ∧ c ≠ '^' := by
      simpa [IsOperator, IsSign, IsTight] using operator
    simp [beginsOperator_other operator, other, beq_eq_false_iff_ne.mpr other.1.1,
      beq_eq_false_iff_ne.mpr other.1.2]

theorem operators_soft (soft : ∀ d ∈ text, isBlank d = true → d = ' ') :
    operators text = blocks text := by
  induction text using List.reverseRecOn with
  | nil => rfl
  | append_singleton text c ih =>
    simp only [List.forall_mem_append, List.forall_mem_singleton] at soft
    obtain ⟨softly, space⟩ := soft
    cases blank : isBlank c with
    | true =>
      obtain rfl := space blank
      have same := (@counts_blank text ' ' rfl).2
      simp only [same, blocks_space, ih softly]
    | false =>
      simp only [operators_solid blank, blocks_concat (ne_space blank), ih softly,
        compact_soft softly]

end Blocks

section Operands

variable {text : List Char} {place : Place}

theorem Scan.operands_eq (scan : Scan text place) :
    operands text = (runs Char.isAlphanum text).length := by
  induction scan with
  | start => rfl
  | @next text place next c scan move ih =>
    have other (other : ¬IsOperand c) (solid : isBlank c = false) :
        operands (text ++ [c]) = (runs Char.isAlphanum (text ++ [c])).length := by
      simp [operands_solid solid, beginsOperand_other other, ih,
        runs_concat_outside (kindred_alphanum.outside other)]
    -- the character before an operand's decides alike with blanks and without
    have operand (operand : IsOperand c)
        (alike : (compact text).getLast?.any Char.isAlphanum = text.getLast?.any Char.isAlphanum) :
        operands (text ++ [c]) = (runs Char.isAlphanum (text ++ [c])).length := by
      simp only [operands_solid operand.solid, beginsOperand, alike, ih, length_runs_concat]
    cases move.effect with
    | blank blank _ _ =>
      have same := (@counts_blank text c blank).1
      simp only [same, ih, runs_concat_outside (kindred_alphanum.outside blank.not_operand)]
    | bracket bracket _ _ => exact other bracket.not_operand bracket.solid
    | operator _ operator _ => exact other operator.not_operand operator.solid
    | sign _ sign _ => exact other sign.operator.not_operand sign.operator.solid
    | begun incomplete has _ =>
      refine operand has.isOperand ?_
      simp only [any_isAlphanum (scan.apart incomplete),
        any_isAlphanum (scan.behind.not_operand incomplete)]
    | grown source has =>
      refine operand has.isOperand (congrArg _ (compact_last fun d last blank => ?_))
      have inside := scan.last d last
      obtain rfl | rfl := source <;> exact blank.not_operand (Run.Has.isOperand inside)

end Operands

section Bare

variable {text : List Char}

/-- Where nothing is enclosed, what is settled has no operators. -/
theorem operators_settled (bare : ∀ c ∈ text, ¬IsParenthesis c)
    (soft : ∀ c ∈ text, isBlank c = true → c = ' ') (settled : Settled text) :
    operators text = 0 := by
  induction text using List.reverseRecOn with
  | nil => rfl
  | append_singleton text c ih =>
    simp only [List.forall_mem_append, List.forall_mem_singleton] at bare soft
    have bracketless : c ≠ '(' ∧ c ≠ ')' := not_or.mp bare.2
    obtain ⟨none, settled⟩ : Operator.ofChar? c = none ∧ Settled text := by
      simpa [Settled, Reckoner.settled, bracketless] using settled
    have before := ih bare.1 soft.1 settled
    cases blank : isBlank c with
    | true =>
      obtain rfl := soft.2 blank
      exact (@counts_blank text ' ' rfl).2.trans before
    | false =>
      have other := IsOperator.none_iff.mp none
      simp [operators_solid blank, beginsOperator_other other, before]

theorem nested_bare (bare : ∀ c ∈ text, ¬IsParenthesis c) : Nested text := by
  have none {front : List Char} (before : front <+: text) : front.count '(' = 0 ∧ front.count ')' = 0 := by
    constructor <;> refine List.count_eq_zero.mpr fun member => bare _ (before.mem member) ?_
    · exact .inl rfl
    · exact .inr rfl
  refine ⟨fun front before => ?_, ?_⟩
  · simp [none before]
  · simp [none (List.prefix_refl text)]

theorem blocks_withLeadingZero (text : List Char) : blocks (withLeadingZero text) = blocks text := by
  unfold withLeadingZero
  split
  · have zero : unspaced ('0' :: ' ' :: text) = '0' :: unspaced text := by simp [unspaced]
    simp [blocks, signRuns, zero, runs_cons_outside]
  · rfl

variable (accepted : accepts text = true) (bare : ∀ c ∈ text, ¬IsParenthesis c)
  (soft : ∀ c ∈ text, isBlank c = true → c = ' ')

include accepted

theorem operands_supply : operands (withLeadingZero text) = supply text := by
  obtain ⟨place, _, scan⟩ := scan_of_accepts accepted
  have zero : Char.isAlphanum '0' = true := by decide
  rw [scan.operands_eq, kindred_alphanum.runs_withLeadingZero, hasLeadingSign_accepted accepted, zero,
    Bool.and_true, supply]
  cases isSigned text with
  | false => simp
  | true => simp [Nat.add_comm]

include bare soft

theorem supplied_iff_excess : Supplied text ↔ excess text ≤ 1 := by
  have softly := withLeadingZero_soft soft
  have counted : operators (withLeadingZero text) = blocks text :=
    (operators_soft softly).trans (blocks_withLeadingZero text)
  have enclosed : ∀ c ∈ withLeadingZero text, ¬IsParenthesis c := by
    unfold withLeadingZero
    split
    · simpa [IsParenthesis] using bare
    · exact bare
  have enough : excess text ≤ 1 ↔ blocks text ≤ supply text := by
    unfold excess
    omega
  rw [Supplied, counted, operands_supply accepted, enough, and_iff_left]
  -- no parenthesis closes over an operator, so a settled beginning asks for nothing
  intro front before settled
  have none := operators_settled (fun c member => enclosed c (before.mem member))
    (fun c member => softly c (before.mem member)) settled
  omega

theorem wellFormed_iff_excess : WellFormed (words (ofInfix text)) ↔ excess text ≤ 1 :=
  (wellFormed_iff_supplied accepted (nested_bare bare) (harmless_of_soft (withLeadingZero_soft soft))).trans
    (supplied_iff_excess accepted bare soft)

end Bare

/-- Without parentheses and blanks other than spaces, and with a value for each of its names, an
accepted text fails for nothing but a division by zero as long as one operator at most is in
excess. With two or more in excess it has no value. -/
theorem value_of_excess {table : Table} {text : List Char} (accepted : accepts text = true)
    (bare : ∀ c ∈ text, ¬IsParenthesis c) (soft : ∀ c ∈ text, isBlank c = true → c = ' ')
    (defined : ∀ name : Name, name.letters ∈ runs Char.isAlpha text → name ∈ table) :
    (excess text ≤ 1 →
      (∃ number, value table text = .ok number) ∨ value table text = .error .divisionByZero) ∧
    (2 ≤ excess text → ∃ fault, value table text = .error fault) := by
  have wellFormed := wellFormed_iff_excess accepted bare soft
  simp only [value, if_pos accepted]
  constructor
  · intro few
    have known : Postfix.value table (ofInfix text) ≠ .error .undefinedName := by
      apply value_of_defined
      simp only [words_ofInfix]
      exact fun name member => defined name (name_of_mem_finish accepted soft name member)
    obtain number | undefined | division := value_of_wellFormed table (wellFormed.mpr few)
    · exact .inl number
    · exact absurd undefined known
    · exact .inr division
  · intro many
    have malformed : ¬WellFormed (words (ofInfix text)) := fun sound => by
      have := wellFormed.mp sound
      omega
    obtain ⟨_, _, none⟩ := value_of_not_wellFormed malformed
    cases valued : Postfix.value table (ofInfix text) with
    | ok number => exact absurd valued ((none table).1 number)
    | error fault => exact ⟨fault, rfl⟩

/-- The zero makes good one minus behind a tight operator, but not two. -/
theorem value_of_excess_minuses :
    let table : Table := (∅ : Table).insert ⟨['a'], rfl⟩ 3
    let one := ['2', ' ', '*', ' ', '-', 'a']
    let two := ['2', '*', '-', 'a', '*', '-', '3']
    (accepts one = true ∧ excess one = 1 ∧
      ((∃ number, value table one = .ok number) ∨ value table one = .error .divisionByZero)) ∧
    (accepts two = true ∧ excess two = 2 ∧ ∃ fault, value table two = .error fault) := by
  intro table one two
  have defined {text : List Char} (names : runs Char.isAlpha text = [['a']]) (name : Name)
      (member : name.letters ∈ runs Char.isAlpha text) : name ∈ table := by
    obtain ⟨letters, valid⟩ := name
    obtain rfl : letters = ['a'] := by simpa [names] using member
    simp [table]
  have acceptedOne : accepts one = true := rfl
  have acceptedTwo : accepts two = true := rfl
  obtain ⟨valued, _⟩ := value_of_excess acceptedOne (by simp [one, IsParenthesis])
    (by simp [one, isBlank, isNarrowBlank]) (defined (by decide))
  obtain ⟨_, refused⟩ := value_of_excess acceptedTwo (by simp [two, IsParenthesis])
    (by simp [two, isBlank, isNarrowBlank]) (defined (by decide))
  exact ⟨⟨acceptedOne, by decide, valued (by decide)⟩, acceptedTwo, by decide, refused (by decide)⟩

end Reckoner.Infix
