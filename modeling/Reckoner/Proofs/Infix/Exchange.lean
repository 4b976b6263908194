import Reckoner.Proofs.Infix.Slot

/-! A name may be exchanged for its value. Where the two stand in one slot the postfix words
differ in that word only, and the stack gets the same value from both. -/
namespace Reckoner.Postfix
open Infix.Grammar

/-- Two operands of one value are the same to the stack. -/
theorem run_slot {table : Table} {word other : List Char} (operand : Operand word)
    (operand' : Operand other) (same : Tree.leafValue table word = Tree.leafValue table other)
    (stack : List Int) (before after : List (List Char)) :
    run table stack (before ++ word :: after) = run table stack (before ++ other :: after) := by
  simp only [run_append, run_cons, step_operand table _ operand, step_operand table _ operand', same]

end Reckoner.Postfix

namespace Reckoner.Infix
open Grammar Text Postfix

theorem last_append {good : Char → Prop} {front rest : List Char}
    (first : ∀ c ∈ front.getLast?, good c) (next : ∀ c ∈ rest.getLast?, good c) :
    ∀ c ∈ (front ++ rest).getLast?, good c := by
  intro c last
  rw [List.getLast?_append, Option.mem_def, Option.or_eq_some_iff] at last
  obtain here | ⟨_, before⟩ := last
  · exact next c here
  · exact first c before

/-- One occurrence after the other, with what has been exchanged already in front. -/
theorem value_exchanged_behind {table : Table} {word other text changed : List Char}
    (letters : ∀ c ∈ word, c.isAlpha = true) (nonempty : word ≠ []) (operand : Operand other)
    (unlettered : ∀ c ∈ other, c.isAlpha = false)
    (same : Tree.leafValue table other = Tree.leafValue table word)
    (exchanged : Exchanged word other text changed)
    (front : List Char) (outside : ∀ c ∈ front.getLast?, c.isAlpha = false)
    (accepted : accepts (front ++ text) = true)
    (soft : ∀ c ∈ front ++ text, isBlank c = true → c = ' ') :
    accepts (front ++ changed) = true ∧
      value table (front ++ changed) = value table (front ++ text) := by
  induction exchanged generalizing front with
  | rest text => exact ⟨accepted, rfl⟩
  | @occurrence before behind changed apart _ ih =>
    have apart' : Apart (front ++ before) behind := ⟨last_append outside apart.1, apart.2⟩
    have outside' : ∀ c ∈ (front ++ before ++ other).getLast?, c.isAlpha = false :=
      last_append apart'.1 fun c last => unlettered c (List.mem_of_getLast? last)
    simp only [← List.append_assoc] at accepted soft ⊢
    obtain ⟨first, last, slot⟩ := value_slot letters nonempty apart' accepted soft
    have isWord : Operand word := ⟨nonempty, .inr letters⟩
    obtain ⟨accepted', value'⟩ := slot other operand
    have exchange : value table (front ++ before ++ other ++ behind) =
        value table (front ++ before ++ word ++ behind) := by
      rw [value', (slot word isWord).2, run_slot operand isWord same]
    have soft' : ∀ c ∈ front ++ before ++ other ++ behind, isBlank c = true → c = ' ' := by
      simp only [List.forall_mem_append] at soft ⊢
      exact ⟨⟨soft.1.1, operand_soft operand⟩, soft.2⟩
    rw [← exchange]
    exact ih _ outside' accepted' soft'

/-- In an accepted text without blanks but spaces, a name is as good as the digits of its
value wherever it stands as an operand, whatever surrounds it: the text with some or all of
these occurrences exchanged is accepted too, and has the same value or the same fault. -/
theorem value_exchanged {table : Table} {text changed digits : List Char} {name : Name}
    {number : Nat} (accepted : accepts text = true)
    (soft : ∀ c ∈ text, isBlank c = true → c = ' ') (found : table[name]? = some (number : Int))
    (numeral : Numeral.digits? digits = some number)
    (exchanged : Exchanged name.letters digits text changed) :
    accepts changed = true ∧ value table changed = value table text := by
  obtain ⟨⟨nonempty, isDigits⟩, rfl⟩ := digits?_eq_some.mp numeral
  have same : Tree.leafValue table digits = Tree.leafValue table name.letters := by
    rw [leafValue_digits table nonempty isDigits, leafValue_name, found]
    rfl
  have unlettered : ∀ c ∈ digits, c.isAlpha = false := fun c member =>
    digit_not_alpha (isDigits c member)
  exact value_exchanged_behind name.alpha name.nonempty ⟨nonempty, .inl isDigits⟩ unlettered same
    exchanged [] (by simp) accepted soft

/-- The second of two occurrences is exchanged, for a numeral with a zero in front. -/
theorem value_exchanged_second :
    let name : Name := ⟨['x'], rfl⟩
    let table : Table := (∅ : Table).insert name 5
    accepts ['-', 'x', '*', '(', '2', '-', 'x', ')'] = true ∧ table[name]? = some 5 ∧
      Numeral.digits? ['0', '5'] = some 5 ∧
      Exchanged name.letters ['0', '5'] ['-', 'x', '*', '(', '2', '-', 'x', ')']
        ['-', 'x', '*', '(', '2', '-', '0', '5', ')'] ∧
      value table ['-', 'x', '*', '(', '2', '-', '0', '5', ')'] = .ok 15 := by
  intro name table
  have accepted : accepts ['-', 'x', '*', '(', '2', '-', 'x', ')'] = true := rfl
  have soft : ∀ c ∈ ['-', 'x', '*', '(', '2', '-', 'x', ')'], isBlank c = true → c = ' ' := by
    simp [isBlank, isNarrowBlank]
  have found : table[name]? = some ((5 : Nat) : Int) := rfl
  have apart : Apart ['-', 'x', '*', '(', '2', '-'] [')'] :=
    ⟨by rintro c ⟨⟩; rfl, by rintro c ⟨⟩; rfl⟩
  have exchanged : Exchanged name.letters ['0', '5'] ['-', 'x', '*', '(', '2', '-', 'x', ')']
      ['-', 'x', '*', '(', '2', '-', '0', '5', ')'] :=
    @Exchanged.occurrence _ _ ['-', 'x', '*', '(', '2', '-'] [')'] [')'] apart (.rest _)
  have same := (value_exchanged accepted soft found rfl exchanged).2
  exact ⟨accepted, found, rfl, exchanged, same.trans rfl⟩

end Reckoner.Infix
