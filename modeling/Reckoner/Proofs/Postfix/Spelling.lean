import Reckoner.Proofs.Postfix.Sheet
import Reckoner.Tree.Spelling

/-! The conversion of a spelled tree. Reading the spelling of a subtree writes a
first part of its post-order and leaves the rest waiting, all of it at least as
tight as the level where the subtree stands. Whatever comes next and binds no
tighter than that level releases the rest, so nothing else about the surrounding
text matters. -/
namespace Reckoner.Postfix
open Reckoner.Tree

/-- A word that the conversion keeps together: no symbol and no blank in it. -/
def Word (text : List Char) : Prop :=
  text ≠ [] ∧ ∀ c ∈ text, Symbol.ofChar? c = none ∧ Text.isBlank c = false

namespace Sheet

theorem foldl_spaces {text : List Char} (spaces : Spaces text) (sheet : Sheet) :
    text.foldl step sheet = sheet := by
  induction text with
  | nil => rfl
  | cons c rest ih =>
    rw [List.foldl_cons, spaces c List.mem_cons_self, step_space]
    exact ih fun d member => spaces d (List.mem_cons_of_mem c member)

/-- Inside an operand every further character joins its word. -/
theorem foldl_join {sheet : Sheet} {words : List (List Char)} {word : List Char}
    (inside : sheet.inOperand = true) (stands : sheet.words = words ++ [word]) {rest : List Char}
    (solid : ∀ c ∈ rest, Symbol.ofChar? c = none ∧ Text.isBlank c = false) :
    rest.foldl step sheet =
      ⟨words ++ [word ++ rest], sheet.waiting, rest.getLast?.or sheet.last?⟩ := by
  induction rest generalizing sheet word with
  | nil => simp [← stands]
  | cons c rest ih =>
    obtain ⟨read, notBlank⟩ := solid c List.mem_cons_self
    have joined : sheet.step c = ⟨words ++ [word ++ [c]], sheet.waiting, some c⟩ := by
      rw [step_operand read (Text.ne_space notBlank), operand, stands, Text.extend_concat]
      simp [notBlank, inside]
    have still : (sheet.step c).inOperand = true := by simp [joined, inOperand, read]
    rw [List.foldl_cons, ih still (by rw [joined])
      (fun d member => solid d (List.mem_cons_of_mem c member)), joined, List.getLast?_cons]
    cases rest.getLast? <;> simp

theorem foldl_word {sheet : Sheet} (outside : sheet.inOperand = false) {text : List Char}
    (word : Word text) :
    text.foldl step sheet = ⟨sheet.words ++ [text], sheet.waiting, text.getLast?⟩ := by
  obtain ⟨nonempty, solid⟩ := word
  obtain ⟨c, rest, rfl⟩ := List.exists_cons_of_ne_nil nonempty
  obtain ⟨read, notBlank⟩ := solid c List.mem_cons_self
  have begun : sheet.step c = ⟨sheet.words ++ [[c]], sheet.waiting, some c⟩ := by
    rw [step_operand read (Text.ne_space notBlank), operand]
    simp [notBlank, outside]
  have inside : (sheet.step c).inOperand = true := by simp [begun, inOperand, read]
  rw [List.foldl_cons, foldl_join inside (by rw [begun])
    (fun d member => solid d (List.mem_cons_of_mem c member)), begun, List.getLast?_cons]
  cases rest.getLast? <;> rfl

/-- What waits on top of these items stays when an operator of the level comes. -/
def Holds (level : Nat) (waiting : List Waiting) : Prop :=
  ∀ item ∈ waiting.head?, item.binds level = false

theorem Holds.mono {level higher : Nat} {waiting : List Waiting} (holds : Holds level waiting)
    (le : level ≤ higher) : Holds higher waiting := by
  intro item head
  have loose := holds item head
  cases item with
  | parenthesis => rfl
  | operator op =>
    simp only [Waiting.binds, decide_eq_false_iff_not, Nat.not_le] at loose ⊢
    omega

/-- The operators that a subtree leaves waiting, on top of what waited before. -/
def held (operators : List Operator) (waiting : List Waiting) : List Waiting :=
  operators.map .operator ++ waiting

theorem takeWhile_held {p : Waiting → Bool} {operators : List Operator} {waiting : List Waiting}
    (inside : ∀ op ∈ operators, p (.operator op) = true)
    (boundary : ∀ item ∈ waiting.head?, p item = false) :
    (held operators waiting).takeWhile p = operators.map .operator := by
  rw [held, List.takeWhile_append_of_pos (by simpa using inside)]
  cases waiting with
  | nil => simp
  | cons item rest => simp [boundary item rfl]

theorem dropWhile_held {p : Waiting → Bool} {operators : List Operator} {waiting : List Waiting}
    (inside : ∀ op ∈ operators, p (.operator op) = true)
    (boundary : ∀ item ∈ waiting.head?, p item = false) :
    (held operators waiting).dropWhile p = waiting := by
  rw [held, List.dropWhile_append_of_pos (by simpa using inside)]
  cases waiting with
  | nil => rfl
  | cons item rest => simp [boundary item rfl]

/-- What reading a subtree at the level makes of a sheet: words are done, some
operators are still held, and together they are the tree's post-order. -/
structure Adds (level : Nat) (tree : Tree) (done : List (List Char)) (operators : List Operator)
    (before after : Sheet) : Prop where
  postorder : done ++ operators.map (fun op => [op.char]) = tree.postorder
  tight : ∀ op ∈ operators, level ≤ op.precedence
  words : after.words = before.words ++ done
  waiting : after.waiting = held operators before.waiting
  last : ∃ c, after.last? = some c ∧ Operator.ofChar? c = none

theorem word_last {text : List Char} (word : Word text) :
    ∃ c, text.getLast? = some c ∧ Symbol.ofChar? c = none := by
  obtain ⟨nonempty, solid⟩ := word
  exact ⟨_, List.getLast?_eq_some_getLast nonempty, (solid _ (List.getLast_mem nonempty)).1⟩

/-- An operator that follows an operand or a parenthesis releases what it does
not bind tighter than, and waits. -/
theorem step_operator {sheet : Sheet} (behind : ∃ c, sheet.last? = some c ∧ Operator.ofChar? c = none)
    (op : Operator) :
    sheet.step op.char =
      ⟨release sheet.words (sheet.waiting.takeWhile (Waiting.binds op.precedence)),
        .operator op :: sheet.waiting.dropWhile (Waiting.binds op.precedence), some op.char⟩ := by
  obtain ⟨c, last, notOperator⟩ := behind
  have fresh : sheet.repeats op = false := by
    have different : c ≠ op.char := by
      rintro rfl
      simp [Operator.ofChar?_char] at notOperator
    simp [repeats, last, different]
  rw [show op.char = (Symbol.operator op).char from rfl, step_symbol, symbol,
    if_neg (by simp [fresh])]

theorem adds_spelled {level : Nat} {tree : Tree} {text : List Char}
    (spelled : Spelled level tree text) (leaves : tree.Leaves Word) {sheet : Sheet}
    (outside : sheet.inOperand = false) (holds : Holds level sheet.waiting) :
    ∃ done operators, Adds level tree done operators sheet (text.foldl step sheet) := by
  induction spelled generalizing sheet with
  | leaf word =>
    obtain ⟨c, last, read⟩ := word_last leaves
    refine ⟨[word], [], rfl, by simp, ?_, ?_, c, ?_, (Symbol.ofChar?_eq_none.mp read).2⟩ <;>
      simp [foldl_word outside leaves, held, last]
  | @node level op left right first second least _ _ ihl ihr =>
    obtain ⟨leftLeaves, rightLeaves⟩ := leaves
    obtain ⟨done₁, ops₁, left⟩ := ihl leftLeaves outside (holds.mono least)
    have stays := holds.mono least
    -- the operator releases all that the left operand held, and nothing below
    have middle := step_operator left.last op
    rw [left.waiting, left.words, takeWhile_held (by simpa [Waiting.binds] using left.tight) stays,
      dropWhile_held (by simpa [Waiting.binds] using left.tight) stays] at middle
    have below : Holds (op.precedence + 1) ((first.foldl step sheet).step op.char).waiting := by
      rw [middle]
      intro item head
      cases head
      simp [Waiting.binds]
    have between : ((first.foldl step sheet).step op.char).inOperand = false := by
      simp [middle, inOperand, Symbol.ofChar?_operator]
    obtain ⟨done₂, ops₂, right⟩ := ihr rightLeaves between below
    refine ⟨done₁ ++ ops₁.map (fun op => [op.char]) ++ done₂, ops₂ ++ [op], ?_, ?_, ?_, ?_, ?_⟩
    · rw [left.postorder, Tree.postorder, ← right.postorder]
      simp
    · intro held member
      rcases List.mem_append.mp member with old | new
      · have := right.tight held old
        omega
      · rwa [List.mem_singleton.mp new]
    · rw [List.foldl_append, List.foldl_cons, right.words, middle]
      simp [release, Function.comp_def, Waiting.char]
    · rw [List.foldl_append, List.foldl_cons, right.waiting, middle]
      simp [held]
    · rw [List.foldl_append, List.foldl_cons]
      exact right.last
  | @parentheses level tree text _ ih =>
    have opened : sheet.step '(' = { sheet with waiting := .parenthesis :: sheet.waiting, last? := some '(' } :=
      rfl
    have enclosed : Holds 0 (sheet.step '(').waiting := by
      rw [opened]
      intro item head
      cases head
      rfl
    obtain ⟨done, ops, inner⟩ := ih leaves (by rw [opened]; rfl) enclosed
    have boundary : ∀ item ∈ (sheet.step '(').waiting.head?, item.isOperator = false := by
      rw [opened]
      intro item head
      cases head
      rfl
    have operators : ∀ op ∈ ops, (Waiting.operator op).isOperator = true := fun _ _ => rfl
    have closes : ((text.foldl step (sheet.step '(')).step ')') =
        ⟨sheet.words ++ tree.postorder, sheet.waiting, some ')'⟩ := by
      rw [show ')' = Symbol.closing.char from rfl, step_symbol, symbol, inner.waiting, inner.words,
        takeWhile_held operators boundary, dropWhile_held operators boundary, opened,
        ← inner.postorder]
      simp [release, Function.comp_def, Waiting.char]
    refine ⟨tree.postorder, [], by simp, by simp, ?_, ?_, ')', ?_, rfl⟩ <;>
      simp [closes, held]
  | @spaced level tree text before behind spacesBefore spacesBehind _ ih =>
    have skipped : (before ++ text ++ behind).foldl step sheet = text.foldl step sheet := by
      rw [List.foldl_append, List.foldl_append, foldl_spaces spacesBefore, foldl_spaces spacesBehind]
    rw [skipped]
    exact ih leaves outside holds

theorem spelled_soft {level : Nat} {tree : Tree} {text : List Char}
    (spelled : Spelled level tree text) (leaves : tree.Leaves Word) :
    ∀ c ∈ text, Text.isBlank c = true → c = ' ' := by
  induction spelled with
  | leaf word =>
    intro c member blank
    simp [(leaves.2 c member).2] at blank
  | @node level op left right first second _ _ _ ihl ihr =>
    have operator : Text.isBlank op.char = true → op.char = ' ' := by cases op <;> decide
    simp only [List.forall_mem_append, List.forall_mem_cons]
    exact ⟨ihl leaves.1, operator, ihr leaves.2⟩
  | parentheses _ ih =>
    simp only [List.forall_mem_append, List.forall_mem_cons]
    exact ⟨⟨by decide, ih leaves⟩, by decide, nofun⟩
  | spaced before behind _ ih =>
    simp only [List.forall_mem_append]
    exact ⟨⟨fun c member _ => before c member, ih leaves⟩, fun c member _ => behind c member⟩

/-- The first character that is not a space belongs to a leaf or is a parenthesis. -/
theorem spelled_unsigned {level : Nat} {tree : Tree} {text : List Char}
    (spelled : Spelled level tree text) (leaves : tree.Leaves Word) :
    hasLeadingSign text = false := by
  have first : ∃ c, text.find? (!Text.isBlank ·) = some c ∧ c ≠ '+' ∧ c ≠ '-' := by
    induction spelled with
    | leaf word =>
      obtain ⟨nonempty, all⟩ := leaves
      obtain ⟨c, rest, rfl⟩ := List.exists_cons_of_ne_nil nonempty
      obtain ⟨read, solid⟩ := all c List.mem_cons_self
      refine ⟨c, by simp [solid], ?_, ?_⟩ <;> rintro rfl <;> cases read
    | node _ _ _ ihl _ =>
      obtain ⟨c, found, other⟩ := ihl leaves.1
      exact ⟨c, by simp [List.find?_append, found], other⟩
    | parentheses _ _ => exact ⟨'(', rfl, by decide⟩
    | @spaced level tree text before behind spaces _ _ ih =>
      obtain ⟨c, found, other⟩ := ih leaves
      have skipped : before.find? (!Text.isBlank ·) = none := by
        apply List.find?_eq_none.mpr
        intro d member
        rw [spaces d member]
        decide
      exact ⟨c, by simp [List.find?_append, skipped, found], other⟩
  obtain ⟨c, found, plus, minus⟩ := first
  simp [hasLeadingSign_eq, found, plus, minus]

/-- Nothing waits before a whole text, so at its end the held operators complete
the post-order. -/
theorem finish_spelled {level : Nat} {tree : Tree} {text : List Char}
    (spelled : Spelled level tree text) (leaves : tree.Leaves Word)
    (unsigned : hasLeadingSign text = false) : (ofText text).finish = tree.postorder := by
  obtain ⟨done, operators, added⟩ :=
    adds_spelled spelled leaves (show ({} : Sheet).inOperand = false from rfl) (by simp [Holds])
  rw [ofText, unsigned, initial, if_neg (by simp), finish, release, added.words, added.waiting,
    ← added.postorder]
  simp [held, Function.comp_def, Waiting.char]

end Sheet

end Reckoner.Postfix
