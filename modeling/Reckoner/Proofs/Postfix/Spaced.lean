import Reckoner.Proofs.Infix.Scan
import Reckoner.Proofs.Postfix.Spelling
import Reckoner.Proofs.Postfix.Turn

/-! The postfix text itself. While a text without hard blanks is read, all that is written is
words with one space behind each, so the postfix text is its words joined by spaces. For a
spelled tree these are the words of its post-order. -/
namespace Reckoner.Text

/-- Each word with one space behind it. -/
def spaced (words : List (List Char)) : List Char :=
  words.flatMap (· ++ [' '])

def Solid (word : List Char) : Prop :=
  word ≠ [] ∧ ∀ c ∈ word, isBlank c = false

variable {words : List (List Char)} {word : List Char}

theorem spaced_concat (words : List (List Char)) (word : List Char) :
    spaced (words ++ [word]) = spaced words ++ word ++ [' '] := by
  simp [spaced]

theorem intercalate_concat (words : List (List Char)) (word : List Char) :
    [' '].intercalate (words ++ [word]) = spaced words ++ word := by
  induction words with
  | nil => simp [spaced]
  | cons first rest ih =>
    obtain ⟨next, others, split⟩ := List.exists_cons_of_ne_nil (l := rest ++ [word]) (by simp)
    rw [split] at ih
    rw [List.cons_append, split, List.intercalate_cons_cons, ih]
    simp [spaced]

theorem words_spaced (solid : ∀ word ∈ words, Solid word) : Text.words (spaced words) = words := by
  induction words with
  | nil => exact words_nil
  | cons word rest ih =>
    obtain ⟨⟨occupied, unblank⟩, others⟩ := List.forall_mem_cons.mp solid
    have split : spaced (word :: rest) = word ++ ' ' :: spaced rest := by simp [spaced]
    rw [split, words_append_blank (by decide), words_of_no_blank occupied unblank, ih others]
    rfl

/-- The space behind the last word is trimmed away. -/
theorem trim_spaced (solid : ∀ word ∈ words, Solid word) :
    trim (spaced words) = [' '].intercalate words := by
  obtain rfl | ⟨front, last, rfl⟩ := List.eq_nil_or_concat words
  · rfl
  · rw [List.concat_eq_append] at solid ⊢
    rw [spaced_concat, trim_concat_blank (by decide), intercalate_concat]
    have ends := solid last (by simp)
    cases front with
    | nil => exact trim_solid ends.2
    | cons first rest =>
      have begins := solid first (by simp)
      have framed := trim_framed (' ' :: spaced rest) ⟨begins.1, ends.1⟩
        (List.forall_mem_append.mpr ⟨begins.2, ends.2⟩)
      simpa [spaced] using framed

end Reckoner.Text

namespace Reckoner.Postfix
open Text

namespace Yard

/-- The text written, last character first, is solid words with a space behind each. -/
def Tidy (written : List Char) : Prop :=
  ∃ words, (∀ word ∈ words, Solid word) ∧ written.reverse = spaced words

theorem tidy_nil : Tidy [] :=
  ⟨[], nofun, rfl⟩

theorem tidy_word {written : List Char} (tidy : Tidy written) {c : Char} (solid : isBlank c = false) :
    Tidy (' ' :: c :: written) := by
  obtain ⟨words, all, same⟩ := tidy
  refine ⟨words ++ [[c]], ?_, by simp [spaced, same]⟩
  simpa [Solid, or_imp, forall_and, solid] using all

theorem tidy_release {written : List Char} (tidy : Tidy written) (items : List Waiting) :
    Tidy (release written items) := by
  induction items generalizing written with
  | nil => exact tidy
  | cons item rest ih => exact ih (tidy_word tidy item.char_solid)

/-- A character that joins takes the place of the space behind the last word. -/
theorem tidy_operand {yard : Yard} (tidy : Tidy yard.written) {c : Char} (solid : isBlank c = false) :
    Tidy (yard.operand c).written := by
  unfold operand
  split
  · obtain ⟨words, all, same⟩ := tidy
    obtain rfl | ⟨front, last, rfl⟩ := List.eq_nil_or_concat words
    · have none : yard.written = [] := by simpa [spaced] using same
      rw [none]
      exact tidy_word tidy_nil solid
    · rw [List.concat_eq_append] at all same
      obtain ⟨before, d, rfl⟩ := (List.eq_nil_or_concat last).resolve_left (all last (by simp)).1
      rw [List.concat_eq_append] at all same
      have ends : isBlank d = false := (all (before ++ [d]) (by simp)).2 d (by simp)
      have shape : yard.written = ' ' :: d :: (spaced front ++ before).reverse := by
        simpa [spaced] using congrArg List.reverse same
      have kept : yard.written.dropWhile isBlank = d :: (spaced front ++ before).reverse := by
        rw [shape, List.dropWhile_cons_of_pos (by decide), List.dropWhile_cons_of_neg (by simp [ends])]
      refine ⟨front ++ [before ++ [d] ++ [c]], ?_, by simp [kept, spaced]⟩
      simpa [Solid, or_imp, forall_and, solid] using all
  · exact tidy_word tidy solid

theorem tidy_foldl {yard : Yard} (tidy : Tidy yard.written) {text : List Char}
    (soft : ∀ c ∈ text, isBlank c = true → c = ' ') : Tidy (text.foldl step yard).written := by
  induction text generalizing yard with
  | nil => exact tidy
  | cons c rest ih =>
    obtain ⟨softly, others⟩ := List.forall_mem_cons.mp soft
    refine ih ?_ others
    obtain ⟨released, same⟩ | ⟨_, space, same⟩ := yard.written_step c
    · rw [same]
      exact tidy_release tidy _
    · have solid : isBlank c = false := Bool.eq_false_iff.mpr fun blank => space (softly blank)
      rw [same]
      exact tidy_operand tidy solid

end Yard

/-- Without hard blanks a text is converted to its words with single spaces between them. -/
theorem ofInfix_soft {text : List Char} (soft : ∀ c ∈ text, isBlank c = true → c = ' ') :
    ofInfix text = [' '].intercalate (Sheet.ofText text).finish := by
  have read := @Yard.tidy_foldl {} Yard.tidy_nil _ (Infix.withLeadingZero_soft soft)
  obtain ⟨words, all, same⟩ := Yard.tidy_release read
    ((withLeadingZero text).foldl Yard.step {}).waiting
  have converted : ofInfix text = trim (spaced words) := congrArg trim same
  have found : words = (Sheet.ofText text).finish := by
    rw [← words_ofInfix, converted, words_trim, words_spaced all]
  rw [converted, trim_spaced all, found]

/-- However a tree is typed, it is converted to its words in post-order with single spaces
between them: parentheses beyond those needed and spaces of any number leave no trace. The
leaves may be any words without symbols and blanks, so the text need not have the accepted
form. -/
theorem ofInfix_spelled {tree : Tree} {text : List Char} (spelled : Tree.Spelled 0 tree text)
    (leaves : tree.Leaves Word) : ofInfix text = [' '].intercalate tree.postorder := by
  have unsigned := Sheet.spelled_unsigned spelled leaves
  rw [ofInfix_soft (Sheet.spelled_soft spelled leaves), Sheet.finish_spelled spelled leaves unsigned]

/-- The form has no parentheses behind a first operand. -/
theorem ofInfix_spelled_refused :
    Tree.Spelled 0 (.node .mul (.leaf ['1']) (.node .sub (.leaf ['a', '.']) (.leaf ['2'])))
        ['(', '(', '1', ')', ')', ' ', '*', '(', 'a', '.', '-', ' ', ' ', '(', '2', ')', ')', ' '] ∧
      Infix.accepts
        ['(', '(', '1', ')', ')', ' ', '*', '(', 'a', '.', '-', ' ', ' ', '(', '2', ')', ')', ' '] =
          false ∧
      ofInfix
        ['(', '(', '1', ')', ')', ' ', '*', '(', 'a', '.', '-', ' ', ' ', '(', '2', ')', ')', ' '] =
          ['1', ' ', 'a', '.', ' ', '2', ' ', '-', ' ', '*'] := by
  have none : Tree.Spaces [] := by simp [Tree.Spaces]
  have one : Tree.Spaces [' '] := by simp [Tree.Spaces]
  have two : Tree.Spaces [' ', ' '] := by simp [Tree.Spaces]
  have first : Tree.Spelled 1 (.leaf ['1']) ['(', '(', '1', ')', ')', ' '] :=
    .spaced none one (.parentheses (.parentheses (.leaf ['1'])))
  have second : Tree.Spelled 1 (.leaf ['2']) [' ', ' ', '(', '2', ')'] :=
    .spaced two none (.parentheses (.leaf ['2']))
  have inner := @Tree.Spelled.node 0 .sub _ _ _ _ (by decide) (.leaf ['a', '.']) second
  have enclosed : Tree.Spelled 2 (.node .sub (.leaf ['a', '.']) (.leaf ['2']))
      ['(', 'a', '.', '-', ' ', ' ', '(', '2', ')', ')', ' '] :=
    .spaced none one (.parentheses inner)
  have whole := @Tree.Spelled.node 0 .mul _ _ _ _ (by decide) first enclosed
  have leaves : Tree.Leaves Word
      (.node .mul (.leaf ['1']) (.node .sub (.leaf ['a', '.']) (.leaf ['2']))) := by
    simp [Tree.Leaves, Word, Symbol.ofChar?, Operator.ofChar?, isBlank, isNarrowBlank]
  exact ⟨whole, rfl, (ofInfix_spelled whole leaves).trans rfl⟩

end Reckoner.Postfix
