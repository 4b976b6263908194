import Reckoner.Infix.Form

/-! The accepted form said as a decomposition of the text, with no order in which
it is read: a head with the first operand, then any number of groups which each
bring an operator and one more operand. In such a text an operand of letters may
be exchanged for another operand wherever it occurs. -/
namespace Reckoner.Infix

namespace Grammar

def AtMostOne (good : Char → Prop) (text : List Char) : Prop :=
  text = [] ∨ ∃ c, good c ∧ text = [c]

def AllAre (good : Char → Prop) (text : List Char) : Prop :=
  ∀ c ∈ text, good c

def IsBlank (c : Char) : Prop := Text.isNarrowBlank c = true

def IsSign (c : Char) : Prop := c = '+' ∨ c = '-'

def IsTight (c : Char) : Prop := c = '*' ∨ c = '/' ∨ c = '^'

def IsParenthesis (c : Char) : Prop := c = '(' ∨ c = ')'

/-- Digits only or letters only, and at least one of them. -/
def Operand (text : List Char) : Prop :=
  text ≠ [] ∧ (AllAre (·.isDigit = true) text ∨ AllAre (·.isAlpha = true) text)

/-- A run of signs, or one operator of the other kind. -/
def Link (text : List Char) : Prop :=
  (text ≠ [] ∧ AllAre IsSign text) ∨ ∃ c, IsTight c ∧ text = [c]

inductive Head : List Char → Prop
  | mk {parentheses sign blank operand : List Char} :
      AllAre (· = '(') parentheses → AtMostOne IsSign sign → AtMostOne IsBlank blank →
      Operand operand → Head (parentheses ++ sign ++ blank ++ operand)

inductive Group : List Char → Prop
  | mk {before link behind parentheses sign operand closing : List Char} :
      AtMostOne IsBlank before → Link link → AtMostOne IsBlank behind →
      AllAre IsParenthesis parentheses → AtMostOne IsSign sign → Operand operand →
      AllAre IsParenthesis closing →
      Group (before ++ link ++ behind ++ parentheses ++ sign ++ operand ++ closing)

/-- A head and the groups behind it. -/
inductive Form : List Char → Prop
  | mk {head : List Char} {groups : List (List Char)} :
      Head head → (∀ group ∈ groups, Group group) → Form (head ++ groups.flatten)

end Grammar

/-- No letter stands right before the occurrence and none right behind it, so a word inside a
longer one is no occurrence. -/
def Apart (before behind : List Char) : Prop :=
  (∀ c ∈ before.getLast?, c.isAlpha = false) ∧ ∀ c ∈ behind.head?, c.isAlpha = false

/-- Some occurrences of the word are exchanged, from left to right; there may be others, and
the whole text may be left as it is. -/
inductive Exchanged (word other : List Char) : List Char → List Char → Prop
  | rest (text : List Char) : Exchanged word other text text
  | occurrence {before behind changed : List Char} : Apart before behind →
      Exchanged word other behind changed →
      Exchanged word other (before ++ word ++ behind) (before ++ other ++ changed)

end Reckoner.Infix
