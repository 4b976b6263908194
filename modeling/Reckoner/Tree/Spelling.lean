import Reckoner.Tree

/-! How a tree may be typed. A subtree stands at a level: the precedence that
its root operator must have at least, to stand there without parentheses. The
left operand stands at the level of its operator, the right one a level higher,
because operators group to the left. -/
namespace Reckoner.Tree

/-- Any number of spaces. -/
def Spaces (text : List Char) : Prop :=
  ∀ c ∈ text, c = ' '

/-- One space or none. -/
def Gap (text : List Char) : Prop :=
  text = [] ∨ text = [' ']

/-- The precedence of the operator at the root, if there is one. -/
def root? : Tree → Option Nat
  | .leaf _ => none
  | .node op _ _ => some op.precedence

/-- The tree has to be parenthesised at the level. -/
def Loose (level : Nat) (tree : Tree) : Prop :=
  ∃ precedence, tree.root? = some precedence ∧ precedence < level

/-- Spellings with parentheses only where they are needed, and at most one space
on either side of an operator. -/
inductive Plain : Nat → Tree → List Char → Prop
  | leaf {level : Nat} (word : List Char) : Plain level (.leaf word) word
  | node {level : Nat} {op : Operator} {left right : Tree} {first second before behind : List Char} :
      level ≤ op.precedence → Plain op.precedence left first →
      Plain (op.precedence + 1) right second → Gap before → Gap behind →
      Plain level (.node op left right) (first ++ before ++ op.char :: behind ++ second)
  | parentheses {level : Nat} {tree : Tree} {text : List Char} :
      tree.Loose level → Plain 0 tree text → Plain level tree ('(' :: text ++ [')'])

/-- Spellings with any parentheses beyond those needed, and any number of spaces
around every word and parenthesis. -/
inductive Spelled : Nat → Tree → List Char → Prop
  | leaf {level : Nat} (word : List Char) : Spelled level (.leaf word) word
  | node {level : Nat} {op : Operator} {left right : Tree} {first second : List Char} :
      level ≤ op.precedence → Spelled op.precedence left first →
      Spelled (op.precedence + 1) right second →
      Spelled level (.node op left right) (first ++ op.char :: second)
  | parentheses {level : Nat} {tree : Tree} {text : List Char} :
      Spelled 0 tree text → Spelled level tree ('(' :: text ++ [')'])
  | spaced {level : Nat} {tree : Tree} {text before behind : List Char} :
      Spaces before → Spaces behind → Spelled level tree text →
      Spelled level tree (before ++ text ++ behind)

theorem Gap.spaces {text : List Char} (gap : Gap text) : Spaces text := by
  rcases gap with rfl | rfl <;> simp [Spaces]

theorem Spelled.operation {level : Nat} {op : Operator} {left right : Tree}
    {first second before behind : List Char} (least : level ≤ op.precedence)
    (isLeft : Spelled op.precedence left first) (isRight : Spelled (op.precedence + 1) right second)
    (gapBefore : Gap before) (gapBehind : Gap behind) :
    Spelled level (.node op left right) (first ++ before ++ op.char :: behind ++ second) := by
  have none : Spaces [] := by simp [Spaces]
  have leftSpaced : Spelled op.precedence left ([] ++ first ++ before) :=
    .spaced none gapBefore.spaces isLeft
  have rightSpaced : Spelled (op.precedence + 1) right (behind ++ second ++ []) :=
    .spaced gapBehind.spaces none isRight
  simpa using Spelled.node least leftSpaced rightSpaced

/-- A plain spelling is one of the wider kind. -/
theorem Plain.spelled {level : Nat} {tree : Tree} {text : List Char}
    (plain : Plain level tree text) : Spelled level tree text := by
  induction plain with
  | leaf word => exact .leaf word
  | parentheses _ _ ih => exact .parentheses ih
  | node least _ _ gapBefore gapBehind ihl ihr => exact .operation least ihl ihr gapBefore gapBehind

end Reckoner.Tree
