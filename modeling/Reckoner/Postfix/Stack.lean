import Reckoner.Numeral
import Reckoner.Operator
import Reckoner.Table
import Reckoner.Text.Blank

/-! The value of a postfix text, worked out on a stack whose head is its top.
The stack begins with one zero, so that an operator with a single operand has
something to work against. -/
namespace Reckoner.Postfix

inductive Atom
  | name (letters : Name)
  | operator (op : Operator)
  | number (value : Int)
  deriving DecidableEq

/-- Names, operators and numerals have no word in common. -/
def Atom.read? (word : List Char) : Option Atom :=
  match Name.read? word, Operator.ofWord? word with
  | some letters, _ => some (.name letters)
  | none, some op => some (.operator op)
  | none, none => (Numeral.read? word).map .number

/-- An operator takes its right operand from the top and its left one from
below. -/
def Atom.perform (table : Table) (stack : List Int) : Atom → Except Fault (List Int)
  | .name letters =>
    match table[letters]? with
    | some value => .ok (value :: stack)
    | none => .error .undefinedName
  | .operator op =>
    match stack with
    | right :: left :: rest => (op.combine left right).map (· :: rest)
    | _ => .error .malformedExpression
  | .number value => .ok (value :: stack)

/-- A word that is no atom is a fault only once it is reached. -/
def step (table : Table) (stack : List Int) (word : List Char) : Except Fault (List Int) :=
  match Atom.read? word with
  | some atom => atom.perform table stack
  | none => .error .malformedExpression

def run (table : Table) (stack : List Int) (words : List (List Char)) : Except Fault (List Int) :=
  words.foldlM (step table) stack

def top : List Int → Except Fault Int
  | value :: _ => .ok value
  | [] => .error .malformedExpression

/-- The value on top at the end, whatever is left below it. -/
def value (table : Table) (text : List Char) : Except Fault Int :=
  run table [0] (Text.words text) >>= top

end Reckoner.Postfix
