import Reckoner.Operator
import Reckoner.Text.Blank

/-! From infix to postfix, one character at a time. Operators and opening
parentheses wait in the yard until what binds tighter has been written. Any
text is converted, well formed or not; only the space is passed over, so every
other character which is no symbol belongs to an operand. -/
namespace Reckoner.Postfix

inductive Symbol
  | opening
  | closing
  | operator (op : Operator)
  deriving DecidableEq, Repr

def Symbol.ofChar? : Char → Option Symbol
  | '(' => some .opening
  | ')' => some .closing
  | c => (Operator.ofChar? c).map .operator

/-- What waits to be written. -/
inductive Waiting
  | parenthesis
  | operator (op : Operator)
  deriving DecidableEq, Repr

namespace Waiting

def char : Waiting → Char
  | .parenthesis => '('
  | .operator op => op.char

def isOperator : Waiting → Bool
  | .parenthesis => false
  | .operator _ => true

/-- Whether this is an operator which binds at least as tightly as one of the
given precedence. -/
def binds (precedence : Nat) : Waiting → Bool
  | .parenthesis => false
  | .operator op => precedence ≤ op.precedence

/-- Adding becomes subtracting and the reverse. -/
def flip : Waiting → Waiting
  | .operator .add => .operator .sub
  | .operator .sub => .operator .add
  | other => other

end Waiting

/-- The text written so far with its last character first, what waits with the
latest arrival first, and the last character which was not a space. -/
structure Yard where
  written : List Char := []
  waiting : List Waiting := []
  last? : Option Char := none
  deriving DecidableEq, Repr

namespace Yard

/-- Write out what waited, the head of the list first, each as a word. -/
def release (written : List Char) (items : List Waiting) : List Char :=
  items.foldl (fun text item => ' ' :: item.char :: text) written

/-- A closing parenthesis writes what waits since the nearest opening one, and
drops that one if there is one. -/
def close (yard : Yard) : Yard :=
  { yard with
    written := release yard.written (yard.waiting.takeWhile Waiting.isOperator)
    waiting := (yard.waiting.dropWhile Waiting.isOperator).tail }

/-- An operator writes those before it which bind at least as tightly, and
waits in their place. -/
def push (yard : Yard) (op : Operator) : Yard :=
  { yard with
    written := release yard.written (yard.waiting.takeWhile (Waiting.binds op.precedence))
    waiting := .operator op :: yard.waiting.dropWhile (Waiting.binds op.precedence) }

/-- A sign behind the same sign is no new operator: a minus turns the waiting
sign around, a plus leaves it. -/
def repeatSign (yard : Yard) (op : Operator) : Yard :=
  if op = .sub then { yard with waiting := yard.waiting.modifyHead Waiting.flip } else yard

/-- Whether the sign continues a run of that one sign. Behind a sign an operator always waits
(`Orderly.topped`), so to ask whether anything does would make no difference
(`Orderly.repeats_waiting`). -/
def repeats (yard : Yard) (op : Operator) : Bool :=
  (op = .add || op = .sub) && yard.last? = some op.char

def symbol (yard : Yard) : Symbol → Yard
  | .opening => { yard with waiting := .parenthesis :: yard.waiting }
  | .closing => yard.close
  | .operator op => if yard.repeats op then yard.repeatSign op else yard.push op

/-- Whether the last character belongs to an operand. -/
def inOperand (yard : Yard) : Bool :=
  yard.last?.any fun c => (Symbol.ofChar? c).isNone

/-- A character of an operand begins a word, or joins the last one if it
follows another such character. Blanks that end the text so far are lost when
it joins. -/
def operand (yard : Yard) (c : Char) : Yard :=
  let before := if yard.inOperand then yard.written.dropWhile Text.isBlank else yard.written
  { yard with written := ' ' :: c :: before }

def step (yard : Yard) (c : Char) : Yard :=
  if c = ' ' then yard
  else
    let moved := match Symbol.ofChar? c with
      | some s => yard.symbol s
      | none => yard.operand c
    { moved with last? := some c }

/-- Write all that still waits. -/
def finish (yard : Yard) : List Char :=
  (release yard.written yard.waiting).reverse

end Yard

/-- A text that begins with a sign, blanks aside. -/
def hasLeadingSign (text : List Char) : Bool :=
  match Text.trim text with
  | c :: _ => c = '+' || c = '-'
  | [] => false

/-- A leading sign works against a zero written before it. -/
def withLeadingZero (text : List Char) : List Char :=
  if hasLeadingSign text then '0' :: ' ' :: text else text

/-- The postfix text of an infix one, a space behind each word but the last. A
parenthesis that is never closed is written as a word of its own, one that was
never opened is dropped. -/
def ofInfix (text : List Char) : List Char :=
  Text.trim ((withLeadingZero text).foldl Yard.step {}).finish

end Reckoner.Postfix
