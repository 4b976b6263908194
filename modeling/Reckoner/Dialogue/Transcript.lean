import Reckoner.Dialogue
import Reckoner.Text.Lines

/-! A whole run of a dialogue: what it prints for its input, how it ends and the
table it leaves. -/
namespace Reckoner

/-- How a run ends: with a farewell, on request or because the lines are used
up, or at a line that cannot be read as text. -/
inductive Ending
  | farewell
  | unreadable
  deriving DecidableEq, Repr

def Ending.message? : Ending → Option String
  | .farewell => none
  | .unreadable => some "stream did not contain valid UTF-8"

/-- What is printed when the run ends so. -/
def Ending.printed : Ending → List Char
  | .farewell => Reply.farewell.printed
  | .unreadable => []

/-- What one line leads to: something printed and a table to go on with, or the
end of the run. -/
inductive Turn
  | proceed (printed : List Char) (table : Table)
  | stop (ending : Ending)

/-- The turn at a line, `none` being one that is no text. -/
def Turn.ofLine (table : Table) : Option (List Char) → Turn
  | none => .stop .unreadable
  | some line =>
    match Dialogue.respond table line with
    | (.farewell, _) => .stop .farewell
    | (reply, changed) => .proceed reply.printed changed

structure Transcript where
  output : List Char
  ending : Ending
  table : Table

namespace Transcript

/-- Nothing but an end. -/
def ended (ending : Ending) (table : Table) : Transcript :=
  ⟨ending.printed, ending, table⟩

/-- The same run with something printed before it. -/
def after (printed : List Char) (rest : Transcript) : Transcript :=
  { rest with output := printed ++ rest.output }

/-- The run over the given lines. Those behind the one that ends the run have no
effect. -/
def ofLines (table : Table) : List (Option (List Char)) → Transcript
  | [] => ended .farewell table
  | line :: rest =>
    match Turn.ofLine table line with
    | .proceed printed changed => (ofLines changed rest).after printed
    | .stop ending => ended ending table

/-- The run over bytes. A carriage return before a line feed needs no rule, for
lines are trimmed. -/
def ofBytes (table : Table) (input : List UInt8) : Transcript :=
  ofLines table (Text.linesOfBytes input)

def ofText (table : Table) (input : List Char) : Transcript :=
  ofLines table ((Text.lines input).map some)

end Transcript
end Reckoner
