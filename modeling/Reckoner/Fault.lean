/-! What can be wrong with a line, by cause and without a position, and the
words in which it is reported. -/
namespace Reckoner

inductive Fault
  | malformedExpression
  | malformedName
  | malformedAssignment
  | undefinedName
  | unknownCommand
  | divisionByZero
  deriving DecidableEq, Repr

def Fault.message : Fault → String
  | .malformedExpression => "Invalid expression"
  | .malformedName => "Invalid identifier"
  | .malformedAssignment => "Invalid assignment"
  | .undefinedName => "Unknown variable"
  | .unknownCommand => "Unknown command"
  | .divisionByZero => "Division by zero"

end Reckoner
