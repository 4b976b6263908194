import Reckoner.Proofs.Infix.Blanks
import Reckoner.Proofs.Postfix.Tally
import Reckoner.Table

/-! The operands that a conversion leaves. In an accepted text with no blanks but spaces the
conversion keeps every operand as it is typed: it glues no two of them together, takes none
apart and makes up none, the zero before a leading sign aside. -/
namespace Reckoner.Text

/-- One run of the class and nothing else. -/
def isRun (inside : Char → Bool) (word : List Char) : Bool :=
  !word.isEmpty && word.all inside

end Reckoner.Text

namespace Reckoner.Infix
open Grammar Text Postfix

/-- A class of characters that has all digits or none, all letters or none, and no others. -/
structure Kindred (inside : Char → Bool) : Prop where
  operand : ∀ c, inside c = true → IsOperand c
  same : ∀ {run : Run} {c d : Char}, run.Has c → run.Has d → inside c = inside d

theorem kindred_alpha : Kindred Char.isAlpha where
  operand _ letter := .inr letter
  same {run c d} has has' := by
    cases run with
    | letters => exact (show c.isAlpha = true from has).trans (show d.isAlpha = true from has').symm
    | digits => rw [digit_not_alpha has, digit_not_alpha has']

theorem kindred_alphanum : Kindred Char.isAlphanum where
  operand _ operand := isAlphanum_iff.mp operand
  same has has' :=
    (isAlphanum_iff.mpr has.isOperand).trans (isAlphanum_iff.mpr has'.isOperand).symm

section

variable {inside : Char → Bool} (kindred : Kindred inside)

include kindred

theorem Kindred.outside {c : Char} (other : ¬IsOperand c) : inside c = false := by
  rw [Bool.eq_false_iff]
  intro isInside
  exact other (kindred.operand c isInside)

theorem Kindred.isRun_eq {run : Run} {word : List Char} {c : Char} (nonempty : word ≠ [])
    (all : ∀ d ∈ word, run.Has d) (has : run.Has c) : isRun inside word = inside c := by
  obtain ⟨d, rest, rfl⟩ := List.exists_cons_of_ne_nil nonempty
  have each : ∀ e ∈ d :: rest, inside e = inside c := fun e member =>
    kindred.same (all e member) has
  cases isInside : inside c with
  | true =>
    have whole : (d :: rest).all inside = true :=
      List.all_eq_true.mpr fun e member => (each e member).trans isInside
    simpa [isRun] using whole
  | false => simp [isRun, each d List.mem_cons_self, isInside]

theorem Kindred.isRun_symbol {c : Char} (other : ¬IsOperand c) : ¬isRun inside [c] = true := by
  simp [isRun, kindred.outside other]

/-- No symbol is an operand, so what a symbol releases adds none. -/
theorem Kindred.symbol (sheet : Sheet) (s : Symbol) :
    (sheet.step s.char).words.filter (isRun inside) = sheet.words.filter (isRun inside) := by
  obtain ⟨released, waiting, turn, turned⟩ := sheet.turn s
  have none : (released.map fun op => [op.char]).filter (isRun inside) = [] := by
    rw [List.filter_eq_nil_iff, List.forall_mem_map]
    exact fun op _ => kindred.isRun_symbol (IsOperator.char op).not_operand
  rw [Sheet.step_symbol, turned, List.filter_append, none, List.append_nil]

theorem Kindred.finish (sheet : Sheet) :
    sheet.finish.filter (isRun inside) = sheet.words.filter (isRun inside) := by
  have none : (sheet.waiting.map fun item => [item.char]).filter (isRun inside) = [] := by
    rw [List.filter_eq_nil_iff, List.forall_mem_map]
    intro item _
    apply kindred.isRun_symbol
    cases item with
    | parenthesis => exact IsParenthesis.not_operand (.inl rfl)
    | operator op => exact (IsOperator.char op).not_operand
  rw [Sheet.finish, Sheet.release, List.filter_append, none, List.append_nil]

end

theorem Scan.apart {text : List Char} {place : Place} (scan : Scan text place)
    (incomplete : place.complete = false) : ∀ d ∈ text.getLast?, ¬IsOperand d := by
  intro d last
  have last := scan.last d last
  cases place with
  | head => exact last ▸ IsParenthesis.not_operand (.inl rfl)
  | headSigned | signs | signed => exact (IsSign.operator last).not_operand
  | headSpaced => exact IsBlank.not_operand last
  | tight => exact (IsTight.operator last).not_operand
  | opened => exact last.elim IsBlank.not_operand IsParenthesis.not_operand
  | first run | later run | closed | spaced => simp at incomplete

section

variable {inside : Char → Bool} (kindred : Kindred inside) {text : List Char} {place : Place}
  (scan : Scan text place) (soft : ∀ d ∈ text, isBlank d = true → d = ' ')
  (same : (Sheet.read text).words.filter (isRun inside) = runs inside text)
  {run : Run} {c : Char} (has : run.Has c)

include kindred scan soft same has

theorem Scan.typed_begun (incomplete : place.complete = false) :
    ((Sheet.read text).step c).words.filter (isRun inside) = runs inside (text ++ [c]) ∧
      EndsIn run ((Sheet.read text).step c).words := by
  have all : ∀ d ∈ [c], run.Has d := by simpa using has
  have single := kindred.isRun_eq (by simp) all has
  rw [Sheet.words_begun has.isOperand (.inl (scan.outside incomplete soft))]
  refine ⟨?_, _, [c], rfl, by simp, all⟩
  rw [List.filter_append, same]
  cases isInside : inside c with
  | true =>
    rw [runs_concat_first isInside fun d last => kindred.outside (scan.apart incomplete d last)]
    simp [single, isInside]
  | false =>
    rw [runs_concat_outside isInside]
    simp [single, isInside]

theorem Scan.typed_grown (source : place = .first run ∨ place = .later run)
    (ended : EndsIn run (Sheet.read text).words) :
    ((Sheet.read text).step c).words.filter (isRun inside) = runs inside (text ++ [c]) ∧
      EndsIn run ((Sheet.read text).step c).words := by
  obtain ⟨front, word, split, nonempty, all⟩ := ended
  obtain ⟨d, last, before⟩ := scan.behind.inside source
  have joins := Sheet.inside_of_other ((scan.last_soft soft).trans last) before.isOperand.no_symbol
  have words := (Sheet.operand_words has.isOperand (Sheet.read text)).2
  rw [if_pos joins, split, extend_concat] at words
  have grown := Run.has_concat all has
  rw [words]
  refine ⟨?_, front, _, rfl, by simp, grown⟩
  -- the word is an operand of the class before and after, or neither before nor after
  have isWord := kindred.isRun_eq nonempty all has
  have isGrown := kindred.isRun_eq (by simp) grown has
  rw [split, List.filter_append] at same
  rw [List.filter_append]
  cases isInside : inside c with
  | true =>
    have joined : ∀ d ∈ text.getLast?, inside d = true := by
      intro d last
      have before : run.Has d := by
        have last := scan.last d last
        obtain rfl | rfl := source <;> exact last
      exact (kindred.same before has).trans isInside
    rw [runs_concat isInside joined, ← same]
    simp [isWord, isGrown, isInside]
  | false =>
    rw [runs_concat_outside isInside, ← same]
    simp [isWord, isGrown, isInside]

end

/-- The operands written so far are the runs read so far, the last of which may still grow. -/
theorem Scan.typed {inside : Char → Bool} (kindred : Kindred inside) {text : List Char}
    {place : Place} (scan : Scan text place) (soft : ∀ d ∈ text, isBlank d = true → d = ' ') :
    (Sheet.read text).words.filter (isRun inside) = runs inside text ∧
      place.Written (Sheet.read text).words := by
  induction scan with
  | start => exact ⟨by simp [Sheet.read], trivial⟩
  | @next text place next c scan move ih =>
    simp only [List.forall_mem_append, List.forall_mem_singleton] at soft
    obtain ⟨softly, space⟩ := soft
    obtain ⟨same, written⟩ := ih softly
    have symbol (other : ¬IsOperand c) (symbol : IsOperator c ∨ IsParenthesis c) :
        ((Sheet.read text).step c).words.filter (isRun inside) = runs inside (text ++ [c]) := by
      obtain ⟨s, rfl⟩ := Sheet.exists_symbol symbol
      rw [kindred.symbol, same, runs_concat_outside (kindred.outside other)]
    rw [Sheet.read_concat]
    cases move.effect with
    | blank blank _ _ =>
      refine ⟨?_, move.last.written blank.not_operand _⟩
      rw [runs_concat_outside (kindred.outside blank.not_operand), space blank.not_solid,
        Sheet.step_space, same]
    | bracket bracket _ _ =>
      have other := bracket.not_operand
      exact ⟨symbol other (.inr bracket), move.last.written other _⟩
    | begun incomplete has target =>
      obtain ⟨grown, ended⟩ := scan.typed_begun kindred softly same has incomplete
      obtain rfl | rfl := target <;> exact ⟨grown, ended⟩
    | grown source has =>
      obtain rfl | rfl := source
      · exact scan.typed_grown kindred softly same has (.inl rfl) written
      · exact scan.typed_grown kindred softly same has (.inr rfl) written
    | operator _ operator _ =>
      have other := operator.not_operand
      exact ⟨symbol other (.inl operator), move.last.written other _⟩
    | sign _ sign _ =>
      have other := sign.operator.not_operand
      exact ⟨symbol other (.inl sign.operator), move.last.written other _⟩

theorem Kindred.runs_withLeadingZero {inside : Char → Bool} (kindred : Kindred inside)
    (text : List Char) : runs inside (withLeadingZero text) =
      (if hasLeadingSign text && inside '0' then [['0']] else []) ++ runs inside text := by
  have space : inside ' ' = false := kindred.outside (by simp [IsOperand])
  unfold withLeadingZero
  cases hasLeadingSign text with
  | false => rfl
  | true =>
    have zero := runs_append_outside space ['0'] text
    cases isInside : inside '0' with
    | false => simpa [runs_cons_outside isInside] using zero
    | true => simpa [runs_of_inside (List.cons_ne_nil '0' []) (by simpa using isInside)] using zero

section

variable {text : List Char} (accepted : accepts text = true)
  (soft : ∀ d ∈ text, isBlank d = true → d = ' ')

include accepted soft

/-- The operands of the postfix text are those that are typed, as they are typed. -/
theorem operands_finish {inside : Char → Bool} (kindred : Kindred inside) :
    (Sheet.ofText text).finish.filter (isRun inside) = runs inside (withLeadingZero text) := by
  obtain ⟨place, _, scan⟩ := scan_of_accepts accepted
  rw [kindred.finish, ← Sheet.read_withLeadingZero]
  exact (scan.typed kindred (withLeadingZero_soft soft)).1

theorem name_of_mem_finish (name : Name) (member : name.letters ∈ (Sheet.ofText text).finish) :
    name.letters ∈ runs Char.isAlpha text := by
  have kept : name.letters ∈ (Sheet.ofText text).finish.filter (isRun Char.isAlpha) :=
    List.mem_filter.mpr ⟨member, name.valid⟩
  have digit : Char.isAlpha '0' = false := by decide
  simpa [operands_finish accepted soft kindred_alpha, kindred_alpha.runs_withLeadingZero, digit]
    using kept

end

end Reckoner.Infix
