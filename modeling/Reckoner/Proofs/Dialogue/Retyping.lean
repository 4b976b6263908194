import Reckoner.Proofs.Infix.Numeral

/-! Replies typed back. The text of an integer is an expression with that integer as its value,
and a right side that an assignment takes for it, so nothing is lost between what a dialogue
prints and what it reads. -/
namespace Reckoner

section Text

variable {number : Int} {c : Char}

theorem Numeral.mem_write (member : c ∈ write number) : c = '-' ∨ c.isDigit = true := by
  have digit {n : Nat} (inside : c ∈ Nat.toDigits 10 n) : c.isDigit = true :=
    Nat.isDigit_of_mem_toDigits (by decide) (by decide) inside
  cases number with
  | ofNat n => exact .inr (digit member)
  | negSucc n => exact (List.mem_cons.mp member).imp_right digit

theorem Numeral.write_ne_nil (number : Int) : write number ≠ [] := by
  cases number with
  | ofNat n => exact Nat.toDigits_ne_nil
  | negSucc n => exact List.cons_ne_nil _ _

/-- Neither a blank nor one of the characters that make a line something else than an
expression. -/
theorem Numeral.write_plain (member : c ∈ write number) :
    Text.isBlank c = false ∧ c ≠ '/' ∧ c ≠ '=' := by
  obtain rfl | digit := mem_write member
  · decide
  · refine ⟨Text.IsOperand.solid (.inl digit), ?_, ?_⟩
    · rintro rfl
      exact absurd digit (by decide)
    · rintro rfl
      exact absurd digit (by decide)

theorem Numeral.trim_write (number : Int) : Text.trim (write number) = write number :=
  Text.trim_solid fun _ member => (write_plain member).1

theorem Name.solid (name : Name) : ∀ c ∈ name.letters, Text.isBlank c = false :=
  fun c member => Text.IsOperand.solid (.inr (name.alpha c member))

end Text

namespace Dialogue

theorem ofLine_write (number : Int) :
    Request.ofLine (Numeral.write number) = .expression (Numeral.write number) := by
  rw [Request.ofLine, Numeral.trim_write]
  split
  · next none => exact absurd none (Numeral.write_ne_nil number)
  · next slash =>
    have inside : '/' ∈ Numeral.write number := by simp [slash]
    exact absurd rfl (Numeral.write_plain inside).2.1
  · apply if_neg
    intro equals
    exact (Numeral.write_plain (List.contains_iff_mem.mp equals)).2.2 rfl

/-- Typed alone, the text of an integer is replied to by that integer. -/
theorem respond_write (table : Table) (number : Int) :
    respond table (Numeral.write number) = (.value number, table) := by
  have worth : Infix.value table (Numeral.write number) = .ok number :=
    Infix.value_numeral table (Numeral.read?_write number)
  simp only [respond, ofLine_write, worth, Reply.ofValue]

/-- Behind a name and an equals sign, it sets the name to that integer. -/
theorem sets_write (table : Table) (name : Name) (number : Int) :
    Sets table (name.letters ++ [' ', '=', ' '] ++ Numeral.write number) name number := by
  have noEquals : '=' ∉ name.letters ++ [' '] := by
    simp only [List.mem_append, List.mem_singleton, Char.reduceEq, or_false]
    intro letter
    exact absurd (name.alpha '=' letter) (by decide)
  have left : Text.trim (name.letters ++ [' ']) = name.letters :=
    (Text.trim_concat_blank (by decide) _).trans (Text.trim_solid name.solid)
  have right : Text.trim (' ' :: Numeral.write number) = Numeral.write number :=
    (Text.trim_cons_blank (by decide) _).trans (Numeral.trim_write number)
  have whole : Text.trim (name.letters ++ [' ', '=', ' '] ++ Numeral.write number) =
      (name.letters ++ [' ']) ++ '=' :: ' ' :: Numeral.write number := by
    rw [Text.trim_framed _ ⟨name.nonempty, Numeral.write_ne_nil number⟩]
    · simp
    · simp only [List.forall_mem_append]
      exact ⟨name.solid, fun c member => (Numeral.write_plain member).1⟩
  refine ⟨_, _, whole, noEquals, left, ?_⟩
  simpa only [right] using .numeral (Numeral.read?_write number)

/-- A value that was replied can be typed again, alone or as the right side of an assignment,
in the same dialogue or in any other: it is replied to by itself, and a name that is set to it
has it. -/
theorem respond_retyped {table : Table} {line : List Char} {number : Int}
    (replied : (respond table line).1 = .value number) (other : Table) :
    respond other (respond table line).1.text = (.value number, other) ∧
      ∀ name : Name, ∃ changed,
        respond other (name.letters ++ [' ', '=', ' '] ++ (respond table line).1.text) =
          (.silent, changed) ∧
        (respond changed name.letters).1 = .value number := by
  simp only [replied, Reply.text]
  refine ⟨respond_write other number, fun name => ?_⟩
  refine ⟨_, respond_of_sets (sets_write other name number), ?_⟩
  simp [respond_name (Text.trim_solid name.solid)]

/-- The difference is negative, so its text has a sign of its own. -/
theorem respond_retyped_negative :
    (respond ∅ ['2', '-', '7']).1 = .value (-5) ∧
      (respond ∅ ['2', '-', '7']).1.text = ['-', '5'] ∧
      respond ∅ ['-', '5'] = (.value (-5), ∅) ∧
      ∃ changed, respond ∅ ['a', ' ', '=', ' ', '-', '5'] = (.silent, changed) ∧
        (respond changed ['a']).1 = .value (-5) := by
  have replied : (respond ∅ ['2', '-', '7']).1 = .value (-5) := rfl
  have text : (respond ∅ ['2', '-', '7']).1.text = ['-', '5'] := by decide
  obtain ⟨again, assigned⟩ := respond_retyped replied ∅
  rw [text] at again assigned
  exact ⟨replied, text, again, assigned ⟨['a'], rfl⟩⟩

end Dialogue
end Reckoner
