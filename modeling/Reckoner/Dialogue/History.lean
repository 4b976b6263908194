import Reckoner.Dialogue

/-! The history of a dialogue: which of its lines set a name, and to what. What a name was
set to last is its value, whatever has been said since. -/
namespace Reckoner

/-- What the right side of an assignment is worth: the value that a name has at present, or
the integer that a numeral reads as. -/
inductive Assignment.Worth (table : Table) : List Char → Int → Prop
  | copy {source : Name} {value : Int} : table[source]? = some value →
      Worth table source.letters value
  | numeral {text : List Char} {value : Int} : Numeral.read? text = some value →
      Worth table text value

namespace Dialogue

/-- A line that asks for an assignment, whether or not it can be carried out. -/
def Assigning (line : List Char) : Prop :=
  Text.trim line ≠ [] ∧ (∀ c ∈ (Text.trim line).head?, c ≠ '/') ∧ '=' ∈ Text.trim line

/-- With the table as it is, the line sets the name to the value. -/
def Sets (table : Table) (line : List Char) (name : Name) (value : Int) : Prop :=
  ∃ before behind, Text.trim line = before ++ '=' :: behind ∧ '=' ∉ before ∧
    Text.trim before = name.letters ∧ Assignment.Worth table (Text.trim behind) value

/-- The table behind the lines. A farewell among them is followed by the next line like any
other reply. -/
def tableAfter (table : Table) (lines : List (List Char)) : Table :=
  lines.foldl (fun table line => (respond table line).2) table

/-- None of the lines sets the name. -/
def Untouched (table : Table) (lines : List (List Char)) (name : Name) : Prop :=
  ∀ before line behind value, lines = before ++ line :: behind →
    ¬Sets (tableAfter table before) line name value

/-- The last of the lines that sets the name sets it to the value, by the table as it is
before that line. -/
def LastSet (table : Table) (lines : List (List Char)) (name : Name) (value : Int) : Prop :=
  ∃ before line behind, lines = before ++ line :: behind ∧
    Sets (tableAfter table before) line name value ∧
    Untouched (tableAfter table (before ++ [line])) behind name

end Dialogue
end Reckoner
