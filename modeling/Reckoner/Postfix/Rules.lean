import Reckoner.Numeral
import Reckoner.Operator
import Reckoner.Table

/-! The rules of postfix words: which values they leave, how many those are, and which word is
the first with something wrong about it. -/
namespace Reckoner.Postfix

/-- A word that brings a value of its own, as a name or as a numeral. -/
def isOperand (word : List Char) : Bool :=
  isName word || (Numeral.read? word).isSome

def isOperator (word : List Char) : Bool :=
  (Operator.ofWord? word).isSome

/-- One to begin with, one more behind an operand and one less behind an operator. -/
def depth (words : List (List Char)) : Int :=
  1 + (words.countP isOperand : Int) - (words.countP isOperator : Int)

/-- What a word that can be worked out makes of the stack. -/
inductive Takes (table : Table) : List Int → List Char → List Int → Prop
  | name {stack : List Int} {name : Name} {value : Int} : table[name]? = some value →
      Takes table stack name.letters (value :: stack)
  | numeral {stack : List Int} {word : List Char} {value : Int} :
      Numeral.read? word = some value → Takes table stack word (value :: stack)
  | operator {rest : List Int} {op : Operator} {left right value : Int} :
      op.combine left right = .ok value →
      Takes table (right :: left :: rest) [op.char] (value :: rest)

/-- The values that the words leave, the latest first and the zero they begin with last. -/
inductive Yields (table : Table) : List (List Char) → List Int → Prop
  | zero : Yields table [] [0]
  | word {words : List (List Char)} {word : List Char} {stack next : List Int} :
      Yields table words stack → Takes table stack word next → Yields table (words ++ [word]) next

/-- A word that can be worked out behind the words in front of it: a name with a value, a
numeral, or an operator with two values to combine. -/
inductive Sound (table : Table) (front : List (List Char)) : List Char → Prop
  | name {name : Name} : name ∈ table → Sound table front name.letters
  | numeral {word : List Char} {value : Int} :
      Numeral.read? word = some value → Sound table front word
  | operator {op : Operator} {left right value : Int} {rest : List Int} : 2 ≤ depth front →
      Yields table front (right :: left :: rest) → op.combine left right = .ok value →
      Sound table front [op.char]

/-- What is wrong with a word behind the words in front of it. -/
inductive Offends (table : Table) (front : List (List Char)) : List Char → Fault → Prop
  | undefined {name : Name} : name ∉ table → Offends table front name.letters .undefinedName
  | division {left : Int} {rest : List Int} : 2 ≤ depth front →
      Yields table front (0 :: left :: rest) → Offends table front ['/'] .divisionByZero
  | shallow {op : Operator} : depth front = 1 → Offends table front [op.char] .malformedExpression
  | unreadable {word : List Char} : isOperand word = false → isOperator word = false →
      Offends table front word .malformedExpression

/-- Each of the words is sound behind those in front of it. -/
def AllSound (table : Table) (words : List (List Char)) : Prop :=
  ∀ front word rest, words = front ++ word :: rest → Sound table front word

end Reckoner.Postfix
