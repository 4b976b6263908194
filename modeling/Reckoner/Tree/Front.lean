import Reckoner.Tree.Spelling

/-! The front of a typed tree: its opening parentheses and the operand behind them. A sign
typed between the two belongs to the first term of the innermost group that is opened
there, and works against zero. -/
namespace Reckoner.Tree

/-- The operand that is typed first. -/
def firstWord : Tree → List Char
  | .leaf word => word
  | .node _ left _ => left.firstWord

/-- How many parentheses are typed before the first operand, for a tree at the level. -/
def openings : Nat → Tree → Nat
  | _, .leaf _ => 0
  | level, .node op left _ =>
    (if op.precedence < level then 1 else 0) + left.openings op.precedence

/-- Change what the last of these parentheses encloses, or the whole tree if there are none. -/
def onFirstGroup (change : Tree → Tree) : Tree → Tree
  | .leaf word => change (.leaf word)
  | .node op left right =>
    if left.openings op.precedence = 0 then change (.node op left right)
    else .node op (left.onFirstGroup change) right

/-- Change the leftmost of the terms that are added and subtracted. -/
def onFirstTerm (change : Tree → Tree) : Tree → Tree
  | .leaf word => change (.leaf word)
  | .node op left right =>
    if op.precedence = 0 then .node op (left.onFirstTerm change) right
    else change (.node op left right)

def againstZero (sign : Operator) (term : Tree) : Tree :=
  .node sign (.leaf ['0']) term

/-- What the tree becomes by a sign in front of its first operand. -/
def withSign (sign : Operator) (tree : Tree) : Tree :=
  tree.onFirstGroup (onFirstTerm (againstZero sign))

section Leaves

variable {good : List Char → Prop} {change : Tree → Tree} {tree : Tree}

theorem Leaves.firstWord (leaves : tree.Leaves good) : good tree.firstWord := by
  induction tree with
  | leaf word => exact leaves
  | node op left right ih _ => exact ih leaves.1

theorem Leaves.onFirstTerm (kept : ∀ term : Tree, term.Leaves good → (change term).Leaves good)
    (leaves : tree.Leaves good) : (tree.onFirstTerm change).Leaves good := by
  induction tree with
  | leaf word => exact kept _ leaves
  | node op left right ih _ =>
    rw [Tree.onFirstTerm]
    split
    · exact ⟨ih leaves.1, leaves.2⟩
    · exact kept _ leaves

theorem Leaves.onFirstGroup (kept : ∀ group : Tree, group.Leaves good → (change group).Leaves good)
    (leaves : tree.Leaves good) : (tree.onFirstGroup change).Leaves good := by
  induction tree with
  | leaf word => exact kept _ leaves
  | node op left right ih _ =>
    rw [Tree.onFirstGroup]
    split
    · exact kept _ leaves
    · exact ⟨ih leaves.1, leaves.2⟩

theorem Leaves.withSign (sign : Operator) (zero : good ['0']) (leaves : tree.Leaves good) :
    (tree.withSign sign).Leaves good := by
  apply Leaves.onFirstGroup _ leaves
  intro group inGroup
  apply Leaves.onFirstTerm _ inGroup
  intro term inTerm
  exact ⟨zero, inTerm⟩

end Leaves

section Openings

variable {level : Nat} {tree : Tree}

theorem openings_node {op : Operator} (least : level ≤ op.precedence) (left right : Tree) :
    openings level (.node op left right) = openings op.precedence left := by
  rw [openings, if_neg (Nat.not_lt.mpr least), Nat.zero_add]

/-- The parenthesis of the tree itself comes before those inside. -/
theorem openings_loose (loose : tree.Loose level) : tree.openings level = tree.openings 0 + 1 := by
  obtain ⟨precedence, root, below⟩ := loose
  cases tree with
  | leaf word => cases root
  | node op left right =>
    cases root
    rw [openings_node (Nat.zero_le _), openings, if_pos below, Nat.add_comm]

end Openings

section Signed

variable {level : Nat} {tree : Tree} {text gap : List Char} {sign : Operator}
  (isSign : sign.precedence = 0) (isGap : Gap gap)

include isSign isGap

theorem againstZero_spelled (spelled : Spelled 1 tree text) :
    Spelled 0 (againstZero sign tree) ('0' :: sign.char :: gap ++ text) := by
  have tight : Spelled (sign.precedence + 1) tree text := by
    rw [isSign]
    exact spelled
  have whole := Spelled.operation (Nat.zero_le _) (.leaf ['0']) tight (.inl rfl) isGap
  simpa [againstZero] using whole

/-- Without parentheses in front, the sign comes before all of the text, and reaches to the
first operator of its own precedence. -/
theorem firstTerm_spelled (plain : Plain level tree text) (bare : tree.openings level = 0) :
    Spelled 0 (tree.onFirstTerm (againstZero sign)) ('0' :: sign.char :: gap ++ text) := by
  induction plain with
  | leaf word => exact againstZero_spelled isSign isGap (.leaf word)
  | @node level op left right first second before behind least isLeft isRight gap₁ gap₂ ih _ =>
    rw [openings_node least] at bare
    rw [onFirstTerm]
    split
    · next additive =>
      have leftSpelled := ih bare
      rw [← additive] at leftSpelled
      have whole := Spelled.operation (Nat.zero_le _) leftSpelled isRight.spelled gap₁ gap₂
      simpa using whole
    · next tight =>
      -- the term is the right operand of the sign, so it is spelled anew a level higher
      apply againstZero_spelled isSign isGap
      exact (Plain.node (Nat.one_le_iff_ne_zero.mpr tight) isLeft isRight gap₁ gap₂).spelled
  | parentheses loose _ _ =>
    rw [openings_loose loose] at bare
    cases bare

/-- With a zero before it, the sign makes a spelling of the tree that it means. -/
theorem withSign_spelled (plain : Plain level tree text)
    (framed : level = 0 ∨ tree.openings level ≠ 0) :
    ∃ core, text = List.replicate (tree.openings level) '(' ++ core ∧
      Spelled level (tree.withSign sign)
        (List.replicate (tree.openings level) '(' ++ '0' :: sign.char :: gap ++ core) := by
  induction plain with
  | leaf word =>
    obtain rfl : _ = 0 := framed.resolve_right fun some => some rfl
    exact ⟨word, rfl, againstZero_spelled isSign isGap (.leaf word)⟩
  | @node level op left right first second before behind least isLeft isRight gap₁ gap₂ ih _ =>
    rw [openings_node least] at framed ⊢
    rw [withSign, onFirstGroup]
    split
    · next bare =>
      obtain rfl : level = 0 := framed.resolve_right fun some => some bare
      have whole := Plain.node least isLeft isRight gap₁ gap₂
      rw [bare]
      exact ⟨_, rfl, firstTerm_spelled isSign isGap whole ((openings_node least _ _).trans bare)⟩
    · next framed =>
      obtain ⟨core, rfl, spelled⟩ := ih (.inr framed)
      have whole := Spelled.operation least spelled isRight.spelled gap₁ gap₂
      refine ⟨core ++ before ++ op.char :: behind ++ second, by simp, ?_⟩
      simpa [withSign] using whole
  | @parentheses level tree text loose _ ih =>
    -- inside, the tree stands at level 0, so no further parenthesis is needed in front
    obtain ⟨core, rfl, spelled⟩ := ih (.inl rfl)
    rw [openings_loose loose]
    have whole : Spelled level _ _ := .parentheses spelled
    refine ⟨core ++ [')'], by simp [List.replicate_succ], ?_⟩
    simpa [List.replicate_succ] using whole

end Signed

end Reckoner.Tree
