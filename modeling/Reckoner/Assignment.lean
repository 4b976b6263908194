import Reckoner.Fault
import Reckoner.Numeral
import Reckoner.Table
import Reckoner.Text.Blank

/-! Assignments of a numeral or of the present value of another name. -/
namespace Reckoner.Assignment

/-- The texts on either side of the first equals sign, trimmed. -/
def sides? (line : List Char) : Option (List Char × List Char) :=
  match line.dropWhile (· ≠ '=') with
  | _ :: right => some (Text.trim (line.takeWhile (· ≠ '=')), Text.trim right)
  | [] => none

/-- A right side of letters is a name and must have a value; any other must be a
numeral. -/
def resolve (table : Table) (right : List Char) : Except Fault Int :=
  match Name.read? right with
  | some name => (table[name]?).elim (.error .undefinedName) .ok
  | none => (Numeral.read? right).elim (.error .malformedAssignment) .ok

/-- An assignment works on the table in place. It is changed last, when nothing can fail any
more. -/
def assign (line : List Char) : ExceptT Fault (StateM Table) Unit := do
  let some (left, right) := sides? line | throw .malformedAssignment
  let some name := Name.read? left | throw .malformedName
  let value ← ofExcept (resolve (← get) right)
  modify (·.insert name value)

/-- What comes of an assignment, and the table that it leaves, whether or not it failed. -/
def perform (table : Table) (line : List Char) : Except Fault Unit × Table :=
  (assign line).run.run table

/-- The name that a line is to set and the value to set it to, told without a change. A bad name
is reported whatever stands on the right. -/
def read (table : Table) (line : List Char) : Except Fault (Name × Int) :=
  match sides? line with
  | none => .error .malformedAssignment
  | some (left, right) =>
    match Name.read? left with
    | none => .error .malformedName
    | some name => (resolve table right).map (name, ·)

/-- Step by step, an assignment is the reading of the whole line and then one change, or none if
the reading fails. -/
theorem perform_eq (table : Table) (line : List Char) :
    perform table line =
      match read table line with
      | .ok (name, value) => (.ok (), table.insert name value)
      | .error cause => (.error cause, table) := by
  rw [perform, assign, read]
  cases sides? line with
  | none => rfl
  | some sides =>
    obtain ⟨left, right⟩ := sides
    cases named : Name.read? left with
    | none =>
      simp only [named]
      rfl
    | some name =>
      simp only [named]
      change ((ofExcept (resolve table right) : ExceptT Fault (StateM Table) Int) >>= _).run.run
        table = _
      cases resolve table right <;> rfl

variable {table : Table} {line : List Char}

theorem perform_of_read {name : Name} {value : Int} (done : read table line = .ok (name, value)) :
    perform table line = (.ok (), table.insert name value) := by
  rw [perform_eq, done]

theorem perform_of_fault {cause : Fault} (failed : read table line = .error cause) :
    perform table line = (.error cause, table) := by
  rw [perform_eq, failed]

end Reckoner.Assignment
