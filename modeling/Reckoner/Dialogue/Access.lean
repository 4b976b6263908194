import Reckoner.Request
import Reckoner.Table

/-! What a request may have to do with the table, told from its text alone: the name that it
would set, and the names that it may look up. -/
namespace Reckoner.Request

/-- An assignment sets the name on the left of its first equals sign. -/
inductive Writes : Request → Name → Prop
  | assignment {before behind : List Char} {name : Name} : '=' ∉ before →
      Text.trim before = name.letters → Writes (.assignment (before ++ '=' :: behind)) name

/-- The names looked up are among the runs of letters of a right side, or of an expression. -/
inductive Reads : Request → Name → Prop
  | assignment {before behind : List Char} {name : Name} : '=' ∉ before →
      name.letters ∈ Text.runs Char.isAlpha behind →
      Reads (.assignment (before ++ '=' :: behind)) name
  | expression {text : List Char} {name : Name} :
      name.letters ∈ Text.runs Char.isAlpha text → Reads (.expression text) name

/-- Neither request sets a name that the other one sets or looks up. -/
def Independent (first second : Request) : Prop :=
  ∀ name, (first.Writes name → ¬second.Writes name ∧ ¬second.Reads name) ∧
    (second.Writes name → ¬first.Writes name ∧ ¬first.Reads name)

theorem Independent.symm {first second : Request} (independent : first.Independent second) :
    second.Independent first :=
  fun name => (independent name).symm

end Reckoner.Request
