import Reckoner.Assignment
import Reckoner.Infix.Form
import Reckoner.Request

/-! A dialogue replies to one line after another. Its state is the table, which
only an assignment can change. -/
namespace Reckoner

inductive Reply
  | silent
  | value (number : Int)
  | help
  | fault (cause : Fault)
  | farewell
  deriving DecidableEq, Repr

namespace Reply

def helpText : String :=
  "The program calculates integer expressions with + - * / ^ and parentheses.\n" ++
  "Assign a variable with `name = value`, where the value is a number or another variable,\n" ++
  "then use its name in expressions. Type /exit to quit."

def farewellText : String := "Bye!"

def text : Reply → List Char
  | .silent => []
  | .value number => Numeral.write number
  | .help => helpText.toList
  | .fault cause => cause.message.toList
  | .farewell => farewellText.toList

/-- A reply is printed as a line, and a silent one not at all. -/
def printed : Reply → List Char
  | .silent => []
  | reply => reply.text ++ ['\n']

def ofCommand : Option Command → Reply
  | some .exit => .farewell
  | some .help => .help
  | none => .fault .unknownCommand

def ofValue : Except Fault Int → Reply
  | .ok number => .value number
  | .error cause => .fault cause

def ofAssignment : Except Fault Unit → Reply
  | .ok () => .silent
  | .error cause => .fault cause

end Reply

/-- The reply to a line and the table after it. -/
def Dialogue.respond (table : Table) (line : List Char) : Reply × Table :=
  match Request.ofLine line with
  | .nothing => (.silent, table)
  | .command known => (.ofCommand known, table)
  | .assignment line =>
    let (outcome, changed) := Assignment.perform table line
    (.ofAssignment outcome, changed)
  | .expression line => (.ofValue (Infix.value table line), table)

end Reckoner
