import Reckoner.Proofs.Infix.Operands
import Reckoner.Proofs.Postfix.Evaluation
import Mathlib.Data.List.Infix

/-! The words that an accepted text is converted to, where spaces are its only blanks. Each is
an operator, an operand as it is typed, or a parenthesis that nothing closes; only the
parenthesis is no atom. -/
namespace Reckoner.Postfix
open Infix Infix.Grammar Text

/-- One operator, one opening parenthesis, or one operand. -/
def IsPiece (word : List Char) : Prop :=
  (∃ op : Operator, word = [op.char]) ∨ word = ['('] ∨ Operand word

namespace IsPiece

variable {word : List Char}

theorem read?_eq_none (piece : IsPiece word) : Atom.read? word = none ↔ word = ['('] := by
  constructor
  · intro unread
    obtain ⟨op, rfl⟩ | bracket | ⟨nonempty, digits | letters⟩ := piece
    · simp [Atom.read?_operator] at unread
    · exact bracket
    · simp [Atom.read?_digits nonempty digits] at unread
    · obtain ⟨name, rfl⟩ := name_of_letters nonempty letters
      simp [Atom.read?_name] at unread
  · rintro rfl
    rfl

theorem operand (piece : IsPiece word) (whole : isRun Char.isAlphanum word = true) :
    Operand word := by
  obtain ⟨op, rfl⟩ | rfl | operand := piece
  · exact absurd whole (kindred_alphanum.isRun_symbol (IsOperator.char op).not_operand)
  · exact absurd whole (kindred_alphanum.isRun_symbol (IsParenthesis.not_operand (.inl rfl)))
  · exact operand

end IsPiece

namespace Sheet

variable {sheet : Sheet} {words : List (List Char)} {c : Char}

theorem pieces_release (pieces : ∀ word ∈ words, IsPiece word) (items : List Waiting) :
    ∀ word ∈ release words items, IsPiece word := by
  intro word member
  rcases List.mem_append.mp member with old | new
  · exact pieces word old
  · obtain ⟨item, _, rfl⟩ := List.mem_map.mp new
    cases item with
    | parenthesis => exact .inr (.inl rfl)
    | operator op => exact .inl ⟨op, rfl⟩

theorem pieces_symbol (pieces : ∀ word ∈ sheet.words, IsPiece word) (s : Symbol) :
    ∀ word ∈ (sheet.step s.char).words, IsPiece word := by
  obtain ⟨released, waiting, _, turned⟩ := sheet.turn s
  simpa only [step_symbol, turned, release_operators] using
    pieces_release pieces (released.map .operator)

/-- A character of an operand leaves all words but the last as they are. -/
theorem mem_words_of_operand (operand : IsOperand c) {last word : List Char}
    (split : (sheet.step c).words = words ++ [last]) (member : word ∈ words) :
    word ∈ sheet.words := by
  have moved := (operand_words operand sheet).2
  rw [split] at moved
  split at moved
  · obtain ⟨rfl, _⟩ := List.append_inj' moved rfl
    exact List.mem_of_mem_dropLast member
  · obtain ⟨rfl, _⟩ := List.append_inj' moved rfl
    exact member

end Sheet
end Reckoner.Postfix

namespace Reckoner.Infix
open Grammar Text Postfix

/-- The text's very first character is a sign. -/
def isSigned (text : List Char) : Bool :=
  text.head?.any fun c => c = '+' || c = '-'

theorem hasLeadingSign_accepted {text : List Char} (accepted : accepts text = true) :
    hasLeadingSign text = isSigned text := by
  obtain ⟨_, place, led, _⟩ := accepts_iff.mp accepted
  apply Bool.eq_iff_iff.mpr
  simp [hasLeadingSign_iff led, isSigned, IsSign, Option.any_eq_true]

theorem Scan.pieces {text : List Char} {place : Place} (scan : Scan text place)
    (soft : ∀ d ∈ text, isBlank d = true → d = ' ') : ∀ word ∈ (Sheet.read text).words, IsPiece word := by
  induction scan with
  | start => simp [Sheet.read]
  | @next text place next c scan move ih =>
    have written := ((scan.next move).typed kindred_alphanum soft).2
    simp only [List.forall_mem_append, List.forall_mem_singleton] at soft
    obtain ⟨softly, space⟩ := soft
    have pieces := ih softly
    simp only [Sheet.read_concat] at written ⊢
    have symbol (symbol : IsOperator c ∨ IsParenthesis c) :
        ∀ word ∈ ((Sheet.read text).step c).words, IsPiece word := by
      obtain ⟨s, rfl⟩ := Sheet.exists_symbol symbol
      exact Sheet.pieces_symbol pieces s
    have operand {run : Run} (has : run.Has c) (ended : EndsIn run ((Sheet.read text).step c).words) :
        ∀ word ∈ ((Sheet.read text).step c).words, IsPiece word := by
      obtain ⟨front, last, split, nonempty, all⟩ := ended
      simp only [split, List.forall_mem_append, List.forall_mem_singleton]
      refine ⟨fun word member => ?_, .inr (.inr (operand_of_run nonempty all))⟩
      exact pieces word (Sheet.mem_words_of_operand has.isOperand split member)
    cases move.effect with
    | blank blank _ _ => simpa only [space blank.not_solid, Sheet.step_space] using pieces
    | bracket bracket _ _ => exact symbol (.inr bracket)
    | begun _ has target => obtain rfl | rfl := target <;> exact operand has written
    | grown source has => obtain rfl | rfl := source <;> exact operand has written
    | operator _ operator _ => exact symbol (.inl operator)
    | sign _ sign _ => exact symbol (.inl sign.operator)

theorem pieces_ofInfix {text : List Char} (accepted : accepts text = true)
    (soft : ∀ d ∈ text, isBlank d = true → d = ' ') : ∀ word ∈ words (ofInfix text), IsPiece word := by
  obtain ⟨place, _, scan⟩ := scan_of_accepts accepted
  have pieces := scan.pieces (withLeadingZero_soft soft)
  simp only [Sheet.read_withLeadingZero] at pieces
  simpa only [words_ofInfix, Sheet.finish] using Sheet.pieces_release pieces _

/-- Where an accepted text has no blanks but spaces, its conversion has operators, opening
parentheses and operands for words. The operands are, in order, the runs of digits and letters
as they are typed, behind a zero if the text begins with a sign, and each is all digits or all
letters. So only a parenthesis is no atom. -/
theorem ofInfix_pieces {text : List Char} (accepted : accepts text = true)
    (soft : ∀ c ∈ text, isBlank c = true → c = ' ') :
    (∀ word ∈ words (ofInfix text), IsPiece word) ∧
      (words (ofInfix text)).filter (isRun Char.isAlphanum) =
        (if isSigned text then [['0']] else []) ++ runs Char.isAlphanum text ∧
      (∀ word ∈ runs Char.isAlphanum text, Operand word) ∧
      ∀ word ∈ words (ofInfix text), (Atom.read? word = none ↔ word = ['(']) := by
  have pieces := pieces_ofInfix accepted soft
  have typed : (words (ofInfix text)).filter (isRun Char.isAlphanum) =
      (if isSigned text then [['0']] else []) ++ runs Char.isAlphanum text := by
    have zero : Char.isAlphanum '0' = true := by decide
    rw [words_ofInfix, operands_finish accepted soft kindred_alphanum,
      kindred_alphanum.runs_withLeadingZero, hasLeadingSign_accepted accepted, zero, Bool.and_true]
  refine ⟨pieces, typed, fun word member => ?_, fun word member => (pieces word member).read?_eq_none⟩
  have kept : word ∈ (words (ofInfix text)).filter (isRun Char.isAlphanum) :=
    typed ▸ List.mem_append_right _ member
  obtain ⟨written, whole⟩ := List.mem_filter.mp kept
  exact (pieces word written).operand whole

/-- Both parentheses face the wrong way, so the closing one is dropped and the opening one stays. -/
theorem ofInfix_pieces_bracket :
    let text := ['-', ' ', '1', '2', '*', ')', '-', 'a', 'b', '(', ' ', '+', '3']
    accepts text = true ∧
      (words (ofInfix text)).filter (isRun Char.isAlphanum) =
        [['0'], ['1', '2'], ['a', 'b'], ['3']] ∧
      Operand ['a', 'b'] ∧ ['('] ∈ words (ofInfix text) ∧ Atom.read? ['('] = none := by
  intro text
  have accepted : accepts text = true := rfl
  have soft : ∀ c ∈ text, isBlank c = true → c = ' ' := by
    simp [text, isBlank, isNarrowBlank]
  obtain ⟨_, typed, operands, unread⟩ := ofInfix_pieces accepted soft
  have kept : ['('] ∈ words (ofInfix text) := by decide
  exact ⟨accepted, typed.trans rfl, operands _ (by decide), kept, (unread _ kept).mpr rfl⟩

end Reckoner.Infix
