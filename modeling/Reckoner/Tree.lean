import Reckoner.Numeral
import Reckoner.Operator
import Reckoner.Table

/-! Expressions as trees: their value, by recursion, and their words in
post-order. Nothing here depends on how an expression is typed. -/
namespace Reckoner

inductive Tree
  | leaf (word : List Char)
  | node (op : Operator) (left right : Tree)
  deriving DecidableEq, Repr

namespace Tree

/-- A leaf of letters has the value of that name, one of digits is a numeral. -/
def leafValue (table : Table) (word : List Char) : Except Fault Int :=
  match Name.read? word with
  | some name => (table[name]?).elim (.error .undefinedName) .ok
  | none => (Numeral.digits? word).elim (.error .malformedExpression) fun n => .ok n

/-- The left operand comes first, so its fault is the one reported. -/
def value (table : Table) : Tree → Except Fault Int
  | .leaf word => leafValue table word
  | .node op left right => do
    let first ← left.value table
    let second ← right.value table
    op.combine first second

def postorder : Tree → List (List Char)
  | .leaf word => [word]
  | .node op left right => left.postorder ++ right.postorder ++ [[op.char]]

/-- What holds of every leaf. -/
def Leaves (good : List Char → Prop) : Tree → Prop
  | .leaf word => good word
  | .node _ left right => left.Leaves good ∧ right.Leaves good

end Tree
end Reckoner
