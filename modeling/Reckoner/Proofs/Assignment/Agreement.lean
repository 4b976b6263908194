import Reckoner.Proofs.Assignment.Outcome
import Reckoner.Proofs.Infix.Numeral

/-! The right side of an assignment as an expression. An assignment reads a numeral with its
sign and looks a name up; an expression is checked, converted and worked out against a zero.
What the one can resolve the other works out to the same, and a name without a value is missed
by both. -/
namespace Reckoner.Assignment

variable {table : Table} {line right : List Char}

/-- The two ways agree on all that an assignment takes for its right side. -/
theorem value_eq_resolve (taken : resolve table right ≠ .error .malformedAssignment) :
    Infix.value table right = resolve table right := by
  cases named : Name.read? right with
  | some source =>
    obtain rfl := Name.read?_eq_some_iff.mp named
    have valued := Infix.value_operand table (Infix.operand_of_name source)
    rw [valued, Postfix.leafValue_name, resolve, Name.read?_letters]
  | none =>
    cases numeral : Numeral.read? right with
    | none => simp [resolve, named, numeral] at taken
    | some value =>
      rw [Infix.value_numeral table numeral]
      simp [resolve, named, numeral]

theorem value_of_worth {value : Int} (worth : Worth table right value) :
    Infix.value table right = .ok value := by
  have resolved := resolve_eq_ok.mpr worth
  rw [value_eq_resolve (by simp [resolved]), resolved]

/-- What an assignment stores is the value of its right side as an expression, with the table as
it is before the assignment; and a name that it misses there is missed by the expression too. -/
theorem perform_agrees (table : Table) (line : List Char) :
    (∀ changed, perform table line = (.ok (), changed) →
      ∃ (name : Name) (right : List Char) (value : Int), Sides line name.letters right ∧
        changed = table.insert name value ∧ Infix.value table right = .ok value) ∧
    (∀ after, perform table line = (.error .undefinedName, after) →
      ∃ (name : Name) (right : List Char), Sides line name.letters right ∧
        Infix.value table right = .error .undefinedName) := by
  constructor
  · intro changed done
    cases outcome_iff_perform.mpr done with
    | copy sides found => exact ⟨_, _, _, sides, rfl, value_of_worth (.copy found)⟩
    | numeral sides denotes =>
      have read := Numeral.denotes_iff.mp denotes
      exact ⟨_, _, _, sides, rfl, value_of_worth (.numeral read)⟩
  · intro after failed
    cases outcome_iff_perform.mpr failed with
    | @undefined name source sides missing =>
      have unresolved : resolve table source.letters = .error .undefinedName := by
        simp [resolve, Name.read?_letters, missing]
      refine ⟨name, source.letters, sides, ?_⟩
      rw [value_eq_resolve (by simp [unresolved]), unresolved]

/-- To the assignment the minus belongs to the numeral, to the expression it is a difference. -/
theorem perform_agrees_negative :
    let negative := ['a', ' ', '=', '\u3000', '-', '0', '0', '7', '\r']
    let unknown := ['a', '=', ' ', 'x']
    (perform ∅ negative = (.ok (), (∅ : Table).insert ⟨['a'], rfl⟩ (-7)) ∧
      Infix.value ∅ ['-', '0', '0', '7'] = .ok (-7)) ∧
    perform ∅ unknown = (.error .undefinedName, ∅) ∧ Infix.value ∅ ['x'] = .error .undefinedName := by
  intro negative unknown
  let a : Name := ⟨['a'], rfl⟩
  have sides : Sides negative a.letters ['-', '0', '0', '7'] := sides?_eq_some.mp rfl
  have done : perform ∅ negative = (.ok (), (∅ : Table).insert a (-7)) :=
    (Outcome.numeral sides (Numeral.denotes_iff.mpr rfl)).perform
  have sides' : Sides unknown a.letters ['x'] := sides?_eq_some.mp rfl
  have failed : perform ∅ unknown = (.error .undefinedName, ∅) := rfl
  obtain ⟨name, right, value, stored, same, valued⟩ := (perform_agrees ∅ negative).1 _ done
  obtain ⟨named, rfl⟩ := sides.unique stored
  obtain rfl : a = name := by
    cases name
    cases named
    rfl
  have number : value = -7 := by simpa using (congrArg (·[a]?) same).symm
  obtain ⟨_, right', missing, undefined⟩ := (perform_agrees ∅ unknown).2 _ failed
  obtain ⟨_, rfl⟩ := sides'.unique missing
  exact ⟨⟨done, number ▸ valued⟩, failed, undefined⟩

end Reckoner.Assignment
