import Reckoner.Infix.Grammar
import Reckoner.Postfix.Stack
import Reckoner.Proofs.Text.Letters

/-! How words are read as atoms. Letters are a name, at most one sign and digits a numeral,
one of five characters an operator; no word is of two of these kinds, and any other word is no
atom. -/
namespace Reckoner
open Infix.Grammar

namespace Postfix

theorem name_of_letters {word : List Char} (nonempty : word ≠ [])
    (letters : AllAre (·.isAlpha = true) word) : ∃ name : Name, name.letters = word := by
  have valid : isName word = true := by
    rw [isName, Bool.and_eq_true]
    exact ⟨by simpa using nonempty, List.all_eq_true.mpr letters⟩
  exact ⟨⟨word, valid⟩, rfl⟩

theorem digits?_eq {word : List Char} (nonempty : word ≠ [])
    (digits : AllAre (·.isDigit = true) word) :
    Numeral.digits? word = some (Nat.ofDigitChars 10 word 0) :=
  if_pos ⟨nonempty, List.all_eq_true.mpr digits⟩

theorem digits?_eq_some {word : List Char} {number : Nat} :
    Numeral.digits? word = some number ↔
      (word ≠ [] ∧ AllAre (·.isDigit = true) word) ∧ Nat.ofDigitChars 10 word 0 = number := by
  rw [Numeral.digits?, Option.ite_none_right_eq_some, List.all_eq_true, Option.some.injEq]
  rfl

theorem Name.read?_digits {c : Char} {rest : List Char} (digit : c.isDigit = true) :
    Name.read? (c :: rest) = none := by
  simp [Name.read?, isName, Text.digit_not_alpha digit]

end Postfix

/-- At most one sign, and digits. -/
theorem Numeral.read?_eq_some {text : List Char} {number : Int} : read? text = some number ↔
    (∃ n, digits? text = some n ∧ number = n) ∨
    ∃ sign word n, text = sign :: word ∧ digits? word = some n ∧
      (sign = '+' ∧ number = n ∨ sign = '-' ∧ number = -n) := by
  constructor
  · intro read
    unfold read? at read
    split at read
    · next word =>
      obtain ⟨n, digits, same⟩ := Option.map_eq_some_iff.mp read
      exact .inr ⟨'+', word, n, rfl, digits, .inl ⟨rfl, same.symm⟩⟩
    · next word =>
      obtain ⟨n, digits, same⟩ := Option.map_eq_some_iff.mp read
      exact .inr ⟨'-', word, n, rfl, digits, .inr ⟨rfl, same.symm⟩⟩
    · obtain ⟨n, digits, same⟩ := Option.map_eq_some_iff.mp read
      exact .inl ⟨n, digits, same.symm⟩
  · rintro (⟨n, digits, rfl⟩ | ⟨sign, word, n, rfl, digits, ⟨rfl, rfl⟩ | ⟨rfl, rfl⟩⟩)
    · obtain ⟨⟨nonempty, isDigits⟩, _⟩ := Postfix.digits?_eq_some.mp digits
      obtain ⟨c, rest, rfl⟩ := List.exists_cons_of_ne_nil nonempty
      simp [read?_of_isDigit (isDigits c List.mem_cons_self), digits]
    · simp [read?, digits]
    · simp [read?, digits]

/-- A numeral begins with a sign or a digit. -/
theorem Numeral.head_of_read? {text : List Char} {value : Int} (read : read? text = some value) :
    ∃ c rest, text = c :: rest ∧ c.isAlpha = false := by
  unfold read? at read
  split at read
  · exact ⟨_, _, rfl, rfl⟩
  · exact ⟨_, _, rfl, rfl⟩
  · obtain ⟨n, digits, _⟩ := Option.map_eq_some_iff.mp read
    obtain ⟨⟨nonempty, isDigits⟩, _⟩ := Postfix.digits?_eq_some.mp digits
    obtain ⟨c, rest, rfl⟩ := List.exists_cons_of_ne_nil nonempty
    exact ⟨c, rest, rfl, Text.digit_not_alpha (isDigits c List.mem_cons_self)⟩

theorem Name.read?_of_numeral {text : List Char} {value : Int}
    (numeral : Numeral.read? text = some value) : Name.read? text = none := by
  obtain ⟨c, rest, rfl, other⟩ := Numeral.head_of_read? numeral
  simp [Name.read?, isName, other]

theorem Name.read?_letters (name : Name) : Name.read? name.letters = some name :=
  Name.read?_eq_some_iff.mpr rfl

theorem Name.read?_eq_none {text : List Char} : Name.read? text = none ↔ isName text = false := by
  simp [Name.read?]

theorem Operator.ofWord?_eq_some {word : List Char} {op : Operator} :
    ofWord? word = some op ↔ word = [op.char] := by
  constructor
  · intro read
    unfold ofWord? at read
    split at read
    · rw [ofChar?_eq_some.mp read]
    · cases read
  · rintro rfl
    exact ofChar?_char op

/-- A sign alone is no numeral. -/
theorem Numeral.read?_operator (op : Operator) : read? [op.char] = none := by
  cases op <;> rfl

namespace Postfix.Atom

theorem read?_name (name : Name) : read? name.letters = some (.name name) := by
  rw [read?, Name.read?_letters]

theorem read?_operator (op : Operator) : read? [op.char] = some (.operator op) := by
  cases op <;> rfl

theorem read?_numeral {word : List Char} {value : Int} (numeral : Numeral.read? word = some value) :
    read? word = some (.number value) := by
  have unlettered := Name.read?_of_numeral numeral
  have other : Operator.ofWord? word = none := by
    cases named : Operator.ofWord? word with
    | none => rfl
    | some op =>
      rw [Operator.ofWord?_eq_some.mp named, Numeral.read?_operator] at numeral
      cases numeral
  simp only [read?, unlettered, other, numeral, Option.map_some]

theorem read?_digits {word : List Char} (nonempty : word ≠ [])
    (digits : AllAre (·.isDigit = true) word) :
    read? word = some (.number (Nat.ofDigitChars 10 word 0)) :=
  read?_numeral (Numeral.read?_eq_some.mpr (.inl ⟨_, digits?_eq nonempty digits, rfl⟩))

/-- How an atom is written. -/
inductive Written : Atom → List Char → Prop
  | name (name : Name) : Written (.name name) name.letters
  | operator (op : Operator) : Written (.operator op) [op.char]
  | number {word : List Char} {value : Int} :
      Numeral.read? word = some value → Written (.number value) word

theorem read?_eq_some {word : List Char} {atom : Atom} :
    read? word = some atom ↔ atom.Written word := by
  constructor
  · intro read
    unfold read? at read
    split at read
    · next letters named =>
      cases read
      rw [← Name.read?_eq_some_iff.mp named]
      exact .name letters
    · next op _ named =>
      cases read
      rw [Operator.ofWord?_eq_some.mp named]
      exact .operator op
    · obtain ⟨value, numeral, rfl⟩ := Option.map_eq_some_iff.mp read
      exact .number numeral
  · intro written
    cases written with
    | name name => exact read?_name name
    | operator op => exact read?_operator op
    | number numeral => exact read?_numeral numeral

theorem name_of_read? {word : List Char} {name : Name} (read : read? word = some (.name name)) :
    name.letters = word := by
  cases read?_eq_some.mp read
  rfl

/-- A word that is no atom is of none of the three kinds. -/
theorem read?_eq_none {word : List Char} : read? word = none ↔
    isName word = false ∧ Operator.ofWord? word = none ∧ Numeral.read? word = none := by
  rw [← Name.read?_eq_none]
  unfold read?
  split <;> simp [*]

end Postfix.Atom
end Reckoner
