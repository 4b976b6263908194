import Reckoner.Text.Blank

/-! What a line asks for, told from its shape alone. -/
namespace Reckoner

inductive Command
  | exit
  | help
  deriving DecidableEq, Repr

def Command.ofWord? (word : List Char) : Option Command :=
  if word = "/exit".toList then some .exit
  else if word = "/help".toList then some .help
  else none

inductive Request
  | nothing
  /-- A line with a slash in front, and the command if there is one so named. -/
  | command (known : Option Command)
  | assignment (line : List Char)
  | expression (line : List Char)
  deriving DecidableEq, Repr

/-- Blanks around a line do not count. A slash in front decides before an equals
sign further on does. -/
def Request.ofLine (line : List Char) : Request :=
  match Text.trim line with
  | [] => .nothing
  | '/' :: rest => .command (Command.ofWord? ('/' :: rest))
  | trimmed => if trimmed.contains '=' then .assignment trimmed else .expression trimmed

end Reckoner
