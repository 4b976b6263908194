import Reckoner.Proofs.Infix.Characters
import Reckoner.Proofs.Postfix.Turn

/-! Numbers of a sheet that its finished words tell: how many of them are operands, and how
many characters of some kind they have, signs for one. A symbol leaves the first as it is and
is itself one character, unless it repeats a sign; an operand begins a word or joins one. -/
namespace Reckoner.Postfix.Sheet
open Text

def operandWords (sheet : Sheet) : Nat :=
  sheet.finish.countP (·.all Char.isAlphanum)

def isSign (c : Char) : Bool := c = '+' || c = '-'

def signs (sheet : Sheet) : Nat :=
  sheet.finish.flatten.countP isSign

/-- How many characters of a kind the finished words have. -/
def tally (kind : Char → Bool) (sheet : Sheet) : Nat :=
  sheet.finish.flatten.countP kind

variable {sheet : Sheet} {c : Char}

theorem operandWords_release (words : List (List Char)) (items : List Waiting) :
    (release words items).countP (·.all Char.isAlphanum) = words.countP (·.all Char.isAlphanum) := by
  have none : (items.map fun item => [item.char]).countP (·.all Char.isAlphanum) = 0 := by
    rw [List.countP_map, List.countP_eq_zero]
    intro item _
    rcases item with _ | op
    · decide
    · cases op <;> decide
  rw [release, List.countP_append, none, Nat.add_zero]

theorem tally_release (kind : Char → Bool) (words : List (List Char)) (items : List Waiting) :
    (release words items).flatten.countP kind =
      words.flatten.countP kind + items.countP (kind ·.char) := by
  simp only [release, List.flatten_append, List.countP_append, ← List.flatMap_def,
    ← List.map_eq_flatMap, List.countP_map]
  rfl

theorem operandWords_eq (sheet : Sheet) :
    sheet.operandWords = sheet.words.countP (·.all Char.isAlphanum) :=
  operandWords_release ..

theorem tally_eq (kind : Char → Bool) (sheet : Sheet) : sheet.tally kind =
    sheet.words.flatten.countP kind + sheet.waiting.countP (kind ·.char) :=
  tally_release ..

theorem operandWords_symbol (sheet : Sheet) (s : Symbol) :
    (sheet.step s.char).operandWords = sheet.operandWords := by
  obtain ⟨released, waiting, _, turned⟩ := sheet.turn s
  rw [step_symbol, turned, operandWords_eq, operandWords_eq, ← release_operators]
  exact operandWords_release ..

/-- Where a sign is repeated, a kind that has one of the signs must have the other. -/
theorem tally_symbol {kind : Char → Bool} (bracket : kind '(' = false) (sheet : Sheet) {s : Symbol}
    (signs : ∀ op, s = .operator op → sheet.repeats op = true → kind '+' = kind '-') :
    (sheet.step s.char).tally kind = sheet.tally kind + (sheet.begins (kind ·.char) s).toNat := by
  obtain ⟨released, waiting, turn, turned⟩ := sheet.turn s
  have counted := turn.countP (kind ·.char) bracket fun op same again item => by
    have alike := signs op same again
    rcases item with _ | (_ | _) <;> simp [Waiting.flip, Waiting.char, Operator.char, alike]
  simp only [step_symbol, turned, tally_eq, ← release_operators, tally_release]
  omega

theorem signs_symbol (sheet : Sheet) (s : Symbol) :
    (sheet.step s.char).signs = sheet.signs + (sheet.begins (isSign ·.char) s).toNat :=
  @tally_symbol isSign rfl sheet s fun _ _ _ => rfl

/-- A character of an operand is the last one that is written, unless it is blank. -/
theorem flatten_operand (sheet : Sheet) (c : Char) :
    (sheet.operand c).words.flatten = sheet.words.flatten ++ [c].filter (!isBlank ·) := by
  cases blank : isBlank c with
  | true => simp [operand, blank]
  | false =>
    obtain none | ⟨front, word, split⟩ := List.eq_nil_or_concat sheet.words
    · simp [operand, blank, none]
    · cases inside : sheet.inOperand <;> simp [operand, blank, inside, split]

theorem tally_other {kind : Char → Bool} (read : Symbol.ofChar? c = none) (sheet : Sheet) :
    (sheet.step c).tally kind = sheet.tally kind + ([c].filter (!isBlank ·)).countP kind := by
  by_cases space : c = ' '
  · simp [space, isBlank, isNarrowBlank]
  · have waits : (sheet.operand c).waiting = sheet.waiting := rfl
    simp only [tally_eq, step_operand read space, flatten_operand, List.countP_append, waits]
    omega

theorem operand_words (operand : IsOperand c) (sheet : Sheet) : (sheet.step c).waiting = sheet.waiting ∧
    (sheet.step c).words = if sheet.inOperand then extend sheet.words c else sheet.words ++ [[c]] := by
  rw [step_operand operand.no_symbol (ne_space operand.solid), Sheet.operand, if_neg (by simp [operand.solid])]
  exact ⟨rfl, rfl⟩

theorem signs_operand (operand : IsOperand c) (sheet : Sheet) :
    (sheet.step c).signs = sheet.signs := by
  have unsigned : isSign c = false := by
    have other := operand.unsigned
    simpa [isSign, Infix.Grammar.IsSign] using other
  exact (tally_other operand.no_symbol sheet).trans (by simp [operand.solid, unsigned, signs, tally])

/-- Behind an operand a further character of it makes no new word. -/
theorem operandWords_joined (operand : IsOperand c) (inside : sheet.inOperand = true)
    (stands : sheet.words ≠ []) : (sheet.step c).operandWords = sheet.operandWords := by
  obtain ⟨front, word, split⟩ := (List.eq_nil_or_concat sheet.words).resolve_left stands
  rw [operandWords_eq, operandWords_eq, (operand_words operand sheet).2, if_pos inside, split,
    List.concat_eq_append, extend_concat]
  simp [isAlphanum_iff.mpr operand]

theorem words_begun (operand : IsOperand c) (outside : sheet.inOperand = false ∨ sheet.words = []) :
    (sheet.step c).words = sheet.words ++ [[c]] := by
  rw [(operand_words operand sheet).2]
  rcases outside with apart | none
  · rw [if_neg (by simp [apart])]
  · rw [none, extend_nil, List.nil_append, ite_self]

theorem operandWords_begun (operand : IsOperand c)
    (outside : sheet.inOperand = false ∨ sheet.words = []) :
    (sheet.step c).operandWords = sheet.operandWords + 1 := by
  rw [operandWords_eq, operandWords_eq, words_begun operand outside]
  simp [isAlphanum_iff.mpr operand]

theorem words_of_operandWords (positive : 0 < sheet.operandWords) : sheet.words ≠ [] := by
  intro none
  rw [operandWords_eq, none] at positive
  cases positive

end Reckoner.Postfix.Sheet
