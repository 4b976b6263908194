import Reckoner.Proofs.Dialogue.Assigning
import Reckoner.Proofs.Infix.Plain

/-! The table as the history of a dialogue. One step lemma says what a line leaves of the
table; along a run the value of a name is the one it was set to last, and a name that has
been set keeps having a value. -/
namespace Reckoner.Infix
open Grammar

theorem operand_of_name (name : Name) : Operand name.letters :=
  ⟨name.nonempty, .inr name.alpha⟩

/-- An operand alone is an expression and has its own value. -/
theorem value_operand (table : Table) {word : List Char} (operand : Operand word) :
    value table word = Tree.leafValue table word := by
  have leaves : (Tree.leaf word).Leaves Operand := operand
  have accepted : accepts word = true := accepts_plain (.leaf word) leaves
  have unsigned : Postfix.hasLeadingSign word = false := by
    obtain ⟨c, rest, rfl⟩ := List.exists_cons_of_ne_nil operand.1
    have first := operand_all operand c List.mem_cons_self
    rw [Bool.eq_false_iff, ne_eq, hasLeadingSign_cons first.solid]
    exact first.unsigned
  have converted : (Postfix.Sheet.ofText word).finish = [word] :=
    Postfix.Sheet.finish_spelled (@Tree.Spelled.leaf 0 word) (word_of_operand operand) unsigned
  rw [value, if_pos accepted, Postfix.value_ofInfix, converted, Postfix.run_singleton,
    Postfix.step_operand table _ operand]
  cases Tree.leafValue table word <;> rfl

end Reckoner.Infix

namespace Reckoner.Dialogue

variable {table : Table} {line : List Char} {lines : List (List Char)} {name other : Name}
  {value : Int}

/-- Typed alone, a name is an expression. -/
theorem respond_name (named : Text.trim line = name.letters) :
    respond table line = ((table[name]?).elim (.fault .undefinedName) .value, table) := by
  have letter := name.alpha
  obtain ⟨c, rest, shape⟩ := List.exists_cons_of_ne_nil name.nonempty
  have noEquals : name.letters.contains '=' = false := by
    rw [Bool.eq_false_iff, ne_eq, List.contains_iff_mem]
    intro member
    exact absurd (letter '=' member) (by decide)
  have asked : Request.ofLine line = .expression name.letters := by
    rw [Request.ofLine, named]
    split
    · next empty => simp [shape] at empty
    · next slash =>
      rw [slash] at letter
      exact absurd (letter '/' List.mem_cons_self) (by decide)
    · exact if_neg (by simpa using noEquals)
  simp only [respond, asked, Infix.value_operand table (Infix.operand_of_name name),
    Postfix.leafValue_name]
  cases table[name]? <;> rfl

section Step

theorem getElem?_respond_sets (sets : Sets table line name value) :
    (respond table line).2[name]? = some value ∧
      ∀ other, other ≠ name → (respond table line).2[other]? = table[other]? := by
  rw [respond_of_sets sets]
  exact ⟨Std.ExtTreeMap.getElem?_insert_self, fun other => Table.getElem?_insert_other⟩

/-- A line that does not set the name leaves what it has. -/
theorem getElem?_respond_other (apart : ∀ value, ¬Sets table line name value) :
    (respond table line).2[name]? = table[name]? := by
  by_cases found : ∃ other value, Sets table line other value
  · obtain ⟨other, value, sets⟩ := found
    apply (getElem?_respond_sets sets).2
    rintro rfl
    exact apart value sets
  · rw [(respond_of_not_sets fun other value sets => found ⟨other, value, sets⟩).1]

theorem mem_respond (member : name ∈ table) : name ∈ (respond table line).2 := by
  rw [Std.ExtTreeMap.mem_iff_isSome_getElem?] at member ⊢
  by_cases sets : ∃ value, Sets table line name value
  · obtain ⟨value, sets⟩ := sets
    rw [(getElem?_respond_sets sets).1]
    rfl
  · rwa [getElem?_respond_other fun value here => sets ⟨value, here⟩]

/-- Only a line that sets a name changes the table, and those are the assignments that are
replied to by silence. -/
theorem respond_change (table : Table) (line : List Char) :
    ((respond table line).2 ≠ table → Assigning line ∧ (respond table line).1 = .silent) ∧
      (Assigning line ∧ (respond table line).1 = .silent ↔
        ∃ name value, Sets table line name value) := by
  by_cases found : ∃ name value, Sets table line name value
  · obtain ⟨name, value, sets⟩ := found
    have carried : Assigning line ∧ (respond table line).1 = .silent :=
      ⟨sets.assigning, by rw [respond_of_sets sets]⟩
    exact ⟨fun _ => carried, fun _ => ⟨name, value, sets⟩, fun _ => carried⟩
  · obtain ⟨kept, spoken⟩ :=
      respond_of_not_sets fun name value sets => found ⟨name, value, sets⟩
    exact ⟨fun changed => absurd kept changed,
      fun carried => absurd carried.2 (spoken carried.1), fun sets => absurd sets found⟩

end Step

section Run

theorem tableAfter_append (table : Table) (lines more : List (List Char)) :
    tableAfter table (lines ++ more) = tableAfter (tableAfter table lines) more :=
  List.foldl_append

theorem mem_tableAfter (member : name ∈ table) (lines : List (List Char)) :
    name ∈ tableAfter table lines := by
  induction lines generalizing table with
  | nil => exact member
  | cons line rest ih => exact ih (mem_respond member)

theorem untouched_cons : Untouched table (line :: lines) name ↔
    (∀ value, ¬Sets table line name value) ∧ Untouched (respond table line).2 lines name := by
  constructor
  · intro untouched
    constructor
    · intro value
      exact untouched [] line lines value rfl
    · intro before next behind value split
      exact untouched (line :: before) next behind value (by rw [split]; rfl)
  · rintro ⟨first, rest⟩ before next behind value split
    cases before with
    | nil =>
      cases split
      exact first value
    | cons _ before =>
      cases split
      exact rest before next behind value rfl

theorem lastSet_cons : LastSet table (line :: lines) name value ↔
    LastSet (respond table line).2 lines name value ∨
      Sets table line name value ∧ Untouched (respond table line).2 lines name := by
  constructor
  · rintro ⟨before, next, behind, split, sets, untouched⟩
    cases before with
    | nil =>
      cases split
      exact .inr ⟨sets, untouched⟩
    | cons _ before =>
      cases split
      exact .inl ⟨before, next, behind, rfl, sets, untouched⟩
  · rintro (⟨before, next, behind, rfl, sets, untouched⟩ | ⟨sets, untouched⟩)
    · exact ⟨line :: before, next, behind, rfl, sets, untouched⟩
    · exact ⟨[], line, lines, rfl, sets, untouched⟩

/-- The value behind the lines is the one set last, or the one before them all. -/
theorem getElem?_tableAfter : (tableAfter table lines)[name]? = some value ↔
    LastSet table lines name value ∨ Untouched table lines name ∧ table[name]? = some value := by
  induction lines generalizing table with
  | nil => simp [tableAfter, LastSet, Untouched]
  | cons line rest ih =>
    change (tableAfter (respond table line).2 rest)[name]? = some value ↔ _
    rw [ih, lastSet_cons, untouched_cons, or_assoc]
    apply or_congr_right
    by_cases found : ∃ result, Sets table line name result
    · obtain ⟨result, sets⟩ := found
      have only : Sets table line name value ↔ result = value := by
        constructor
        · exact fun again => (sets.unique again).2
        · rintro rfl
          exact sets
      simp only [(getElem?_respond_sets sets).1, only, Option.some.injEq]
      constructor
      · exact fun ⟨untouched, same⟩ => .inl ⟨same, untouched⟩
      · rintro (⟨same, untouched⟩ | ⟨⟨none, _⟩, _⟩)
        · exact ⟨untouched, same⟩
        · exact absurd sets (none result)
    · have none : ∀ result, ¬Sets table line name result := fun result sets => found ⟨result, sets⟩
      rw [getElem?_respond_other none]
      constructor
      · exact fun ⟨untouched, same⟩ => .inr ⟨⟨none, untouched⟩, same⟩
      · rintro (⟨sets, _⟩ | ⟨⟨_, untouched⟩, same⟩)
        · exact absurd sets (none value)
        · exact ⟨untouched, same⟩

end Run

/-- Names are only ever added, one line sets one name at most, and after any lines the value of
a name is what the last assignment to it that was carried out resolved to then. That value is
what the name typed alone is replied to with. -/
theorem table_history (lines : List (List Char)) :
    (∀ name ∈ tableAfter ∅ lines,
      (name.letters ≠ [] ∧ ∀ c ∈ name.letters, c.isAlpha = true) ∧
        ∀ more, name ∈ tableAfter ∅ (lines ++ more)) ∧
    (∀ table line,
      ((respond table line).2 ≠ table → Assigning line ∧ (respond table line).1 = .silent) ∧
      (Assigning line ∧ (respond table line).1 = .silent ↔
        ∃ name value, Sets table line name value) ∧
      ∀ name value, Sets table line name value →
        (respond table line).2[name]? = some value ∧
          ∀ other, other ≠ name → (respond table line).2[other]? = table[other]?) ∧
    (∀ name value, (tableAfter ∅ lines)[name]? = some value ↔ LastSet ∅ lines name value) ∧
    ∀ line name, Text.trim line = name.letters →
      (∀ value, LastSet ∅ lines name value →
        respond (tableAfter ∅ lines) line = (.value value, tableAfter ∅ lines)) ∧
      (Untouched ∅ lines name →
        respond (tableAfter ∅ lines) line = (.fault .undefinedName, tableAfter ∅ lines)) := by
  have values (name : Name) (value : Int) :
      (tableAfter ∅ lines)[name]? = some value ↔ LastSet ∅ lines name value := by
    rw [getElem?_tableAfter, Std.ExtTreeMap.getElem?_empty]
    simp
  refine ⟨?_, ?_, values, ?_⟩
  · intro name member
    refine ⟨⟨name.nonempty, name.alpha⟩, ?_⟩
    intro more
    rw [tableAfter_append]
    exact mem_tableAfter member more
  · intro table line
    obtain ⟨changes, carried⟩ := respond_change table line
    exact ⟨changes, carried, fun name value sets => getElem?_respond_sets sets⟩
  · intro line name named
    rw [respond_name named]
    constructor
    · intro value last
      rw [(values name value).mpr last]
      rfl
    · intro untouched
      cases found : (tableAfter ∅ lines)[name]? with
      | none => rfl
      | some value =>
        obtain ⟨before, last, behind, split, sets, _⟩ := (values name value).mp found
        exact absurd sets (untouched before last behind value split)

/-- A copy keeps its value when the source is set again, and an assignment that fails is none. -/
theorem table_history_copy :
    let lines := [['a', '=', '5'], ['/', 'e', 'x', 'i', 't'], ['b', ' ', '=', ' ', 'a'],
      ['a', '=', '7'], ['b', '=', 'c']]
    LastSet ∅ lines ⟨['b'], rfl⟩ 5 ∧ Text.trim [' ', 'b'] = ['b'] ∧
      respond (tableAfter ∅ lines) [' ', 'b'] = (.value 5, tableAfter ∅ lines) := by
  intro lines
  obtain ⟨_, _, values, typed⟩ := table_history lines
  have last : LastSet ∅ lines ⟨['b'], rfl⟩ 5 := (values _ _).mp rfl
  exact ⟨last, rfl, (typed [' ', 'b'] ⟨['b'], rfl⟩ rfl).1 5 last⟩

end Reckoner.Dialogue
