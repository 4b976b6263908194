import Reckoner.Assignment

/-! The outcomes of an assignment, told from the texts on either side of its first equals sign
and from the table. -/
namespace Reckoner

/-- At most one sign and at least one digit, and the integer that they are in decimal. -/
inductive Numeral.Denotes : List Char → Int → Prop
  | unsigned {digits : List Char} : digits ≠ [] → (∀ c ∈ digits, c.isDigit = true) →
      Denotes digits (Nat.ofDigitChars 10 digits 0)
  | plus {digits : List Char} : digits ≠ [] → (∀ c ∈ digits, c.isDigit = true) →
      Denotes ('+' :: digits) (Nat.ofDigitChars 10 digits 0)
  | minus {digits : List Char} : digits ≠ [] → (∀ c ∈ digits, c.isDigit = true) →
      Denotes ('-' :: digits) (-(Nat.ofDigitChars 10 digits 0 : Int))

namespace Assignment

/-- The trimmed texts on either side of the first equals sign of the line. -/
def Sides (line left right : List Char) : Prop :=
  ∃ before behind, line = before ++ '=' :: behind ∧ '=' ∉ before ∧
    Text.trim before = left ∧ Text.trim behind = right

/-- What comes of an assignment and the table behind it: a cause and the same table, or success
and the table with one name set. -/
inductive Outcome (table : Table) (line : List Char) : Except Fault Unit → Table → Prop
  | noEquals : '=' ∉ line → Outcome table line (.error .malformedAssignment) table
  | badName {left right : List Char} : Sides line left right → isName left = false →
      Outcome table line (.error .malformedName) table
  | undefined {name source : Name} : Sides line name.letters source.letters → source ∉ table →
      Outcome table line (.error .undefinedName) table
  | copy {name source : Name} {value : Int} : Sides line name.letters source.letters →
      table[source]? = some value → Outcome table line (.ok ()) (table.insert name value)
  | numeral {name : Name} {right : List Char} {value : Int} : Sides line name.letters right →
      Numeral.Denotes right value → Outcome table line (.ok ()) (table.insert name value)
  | badValue {name : Name} {right : List Char} : Sides line name.letters right →
      isName right = false → (∀ value, ¬Numeral.Denotes right value) →
      Outcome table line (.error .malformedAssignment) table

end Assignment
end Reckoner
