import Reckoner.Postfix.Stack
import Reckoner.Postfix.Yard

/-! The accepted form of an expression, as a table of places between which its
characters lead, and the value of an expression as it is typed. Where a sign may
belong to a run of signs or to the operand behind it, one place stands for both
readings, so nothing is tried twice. Of parentheses only the number is compared,
not how they are nested. -/
namespace Reckoner.Infix

/-- What a character is to the form; a tight operator is one of `*`, `/`, `^`. -/
inductive Mark
  | blank
  | opening
  | closing
  | sign
  | tight
  | digit
  | letter
  deriving DecidableEq, Repr

def Mark.ofChar? : Char → Option Mark
  | '(' => some .opening
  | ')' => some .closing
  | '+' | '-' => some .sign
  | '*' | '/' | '^' => some .tight
  | c =>
    if Text.isNarrowBlank c then some .blank
    else if c.isDigit then some .digit
    else if c.isAlpha then some .letter
    else none

/-- An operand is a run of digits or a run of letters. -/
inductive Run
  | digits
  | letters
  deriving DecidableEq, Repr

inductive Place
  /-- Before the first operand, behind opening parentheses at most. -/
  | head
  /-- Behind the sign of the first operand. -/
  | headSigned
  /-- Behind the blank before the first operand. -/
  | headSpaced
  /-- Inside the first operand, which no parenthesis may follow. -/
  | first (run : Run)
  /-- Inside a later operand. -/
  | later (run : Run)
  /-- Behind the parentheses that follow a later operand. -/
  | closed
  /-- Behind the blank before an operator. -/
  | spaced
  /-- Inside a run of signs, the last of which may be the operand's own. -/
  | signs
  /-- Behind a tight operator. -/
  | tight
  /-- Behind an operator and a blank or parentheses. -/
  | opened
  /-- Behind the sign of a later operand. -/
  | signed
  deriving DecidableEq, Repr

namespace Place

def next : Place → Mark → Option Place
  | .head, .opening => some .head
  | .head, .sign => some .headSigned
  | .head, .blank | .headSigned, .blank => some .headSpaced
  | .head, .digit | .headSigned, .digit | .headSpaced, .digit => some (.first .digits)
  | .head, .letter | .headSigned, .letter | .headSpaced, .letter => some (.first .letters)
  | .first .digits, .digit => some (.first .digits)
  | .first .letters, .letter => some (.first .letters)
  | .later .digits, .digit => some (.later .digits)
  | .later .letters, .letter => some (.later .letters)
  | .later _, .opening | .later _, .closing => some .closed
  | .closed, .opening | .closed, .closing => some .closed
  | .first _, .blank | .later _, .blank | .closed, .blank => some .spaced
  | .first _, .sign | .later _, .sign | .closed, .sign | .spaced, .sign => some .signs
  | .first _, .tight | .later _, .tight | .closed, .tight | .spaced, .tight => some .tight
  | .signs, .sign => some .signs
  | .signs, .blank | .tight, .blank => some .opened
  | .signs, .opening | .tight, .opening | .opened, .opening => some .opened
  | .signs, .closing | .tight, .closing | .opened, .closing => some .opened
  | .tight, .sign | .opened, .sign => some .signed
  | .signs, .digit | .tight, .digit | .opened, .digit | .signed, .digit => some (.later .digits)
  | .signs, .letter | .tight, .letter | .opened, .letter | .signed, .letter =>
    some (.later .letters)
  | _, _ => none

def step (place : Place) (c : Char) : Option Place :=
  (Mark.ofChar? c).bind place.next

/-- An expression may end inside an operand or behind closing parentheses. -/
def ends : Place → Bool
  | .first _ | .later _ | .closed => true
  | _ => false

end Place

/-- The text has the form from its first to its very last character, and as
many opening as closing parentheses. -/
def accepts (text : List Char) : Bool :=
  text.count '(' == text.count ')' && (text.foldlM Place.step .head).any Place.ends

/-- A text without the accepted form is refused before any name is looked up. -/
def value (table : Table) (text : List Char) : Except Fault Int :=
  if accepts text then Postfix.value table (Postfix.ofInfix text)
  else .error .malformedExpression

end Reckoner.Infix
