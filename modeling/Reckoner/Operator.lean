import Reckoner.Fault

/-! The five operators: their signs, how tightly they bind and what they make
of two integers of any size. All of them group to the left, the power too. A
power is held within 32 bits: the exact one is cut toward zero to an integer,
which matters for negative exponents only, and an integer out of range gives the
nearest end of the range. -/
namespace Reckoner

inductive Operator
  | add
  | sub
  | mul
  | div
  | pow
  deriving DecidableEq, Repr

namespace Operator

def char : Operator → Char
  | .add => '+'
  | .sub => '-'
  | .mul => '*'
  | .div => '/'
  | .pow => '^'

def ofChar? : Char → Option Operator
  | '+' => some .add
  | '-' => some .sub
  | '*' => some .mul
  | '/' => some .div
  | '^' => some .pow
  | _ => none

/-- A word names an operator if it is that one character. -/
def ofWord? : List Char → Option Operator
  | [c] => ofChar? c
  | _ => none

/-- The higher, the tighter. -/
def precedence : Operator → Nat
  | .add | .sub => 0
  | .mul | .div => 1
  | .pow => 2

theorem ofChar?_char (op : Operator) : ofChar? op.char = some op := by
  cases op <;> rfl

theorem ofChar?_eq_some {c : Char} {op : Operator} : ofChar? c = some op ↔ c = op.char := by
  constructor
  · intro read
    unfold ofChar? at read
    split at read <;> cases read <;> rfl
  · rintro rfl
    exact ofChar?_char op

end Operator

namespace Power

def least : Int := -2147483648

def greatest : Int := 2147483647

/-- From here on an exponent counts as even: binary fractions of 53 digits,
which exponents are taken in, are spaced by at least two. -/
def parityLimit : Nat := Nat.pow 2 53

/-- The absolute value of the power. Thirty-two factors of two or more are out
of range already, and so is the reciprocal of zero. -/
def magnitude (base : Nat) (exponent : Int) : Nat :=
  let product := Nat.pow base (min exponent.natAbs 32)
  if 0 ≤ exponent then product
  else if product = 0 then Nat.pow 2 32
  else 1 / product

def isNegative (base exponent : Int) : Bool :=
  base < 0 && exponent % 2 = 1 && exponent.natAbs < parityLimit

/-- The base raised to the exponent; an empty product is one, of zeros too. -/
def power (base exponent : Int) : Int :=
  let size : Int := magnitude base.natAbs exponent
  max least (min greatest (if isNegative base exponent then -size else size))

end Power

/-- A quotient is cut toward zero. -/
def Operator.combine (op : Operator) (left right : Int) : Except Fault Int :=
  match op with
  | .add => .ok (left + right)
  | .sub => .ok (left - right)
  | .mul => .ok (left * right)
  | .div => if right = 0 then .error .divisionByZero else .ok (left.tdiv right)
  | .pow => .ok (Power.power left right)

end Reckoner
