import Reckoner.Proofs.Postfix.SignRun
import Reckoner.Proofs.Postfix.Turn
import Mathlib.Data.List.Chain
import Mathlib.Data.List.Perm.Subperm

/-! The yard between any two characters. Of two operators that wait one upon the other the
upper binds tighter, an operator is on top behind every operator, and what is written ends in
a space, in front of it the character that was read if that belongs to an operand. Each kind
of character keeps this up. -/
namespace Reckoner.Postfix
open Infix.Grammar Text

namespace Waiting

/-- An operator binds tighter than another one directly below it. -/
def Tighter (upper lower : Waiting) : Prop :=
  ∀ op, upper = .operator op → lower.binds op.precedence = false

variable {waiting : List Waiting}

/-- What is left below a new operator does not bind as tightly as it. -/
theorem chain_push (chain : waiting.IsChain Tighter) (op : Operator) :
    (.operator op :: waiting.dropWhile (binds op.precedence)).IsChain Tighter := by
  refine List.isChain_cons.mpr ⟨?_, chain.suffix (List.dropWhile_suffix _)⟩
  rintro item head _ ⟨⟩
  have stop := List.head?_dropWhile_not (binds op.precedence) waiting
  rwa [Option.mem_def.mp head] at stop

/-- A sign that is turned around binds as before. -/
theorem flip_operator (op : Operator) : ∃ turned : Operator,
    (Waiting.operator op).flip = .operator turned ∧ turned.precedence = op.precedence := by
  cases op <;> exact ⟨_, rfl, rfl⟩

theorem chain_flip (chain : waiting.IsChain Tighter) :
    (waiting.modifyHead flip).IsChain Tighter := by
  cases waiting with
  | nil => exact chain
  | cons top below =>
    obtain ⟨tighter, rest⟩ := List.isChain_cons.mp chain
    refine List.isChain_cons.mpr ⟨?_, rest⟩
    intro item head op flipped
    cases top with
    | parenthesis => cases flipped
    | operator old =>
      obtain ⟨turned, same, level⟩ := flip_operator old
      obtain rfl : turned = op := Waiting.operator.inj (same.symm.trans flipped)
      exact level ▸ tighter item head old rfl

/-- There are three levels of precedence, so in a row no more than three operators can wait. -/
theorem operators_fall (chain : waiting.IsChain Tighter) {above below : List Waiting}
    {operators : List Operator} (split : waiting = above ++ operators.map .operator ++ below) :
    (operators.map Operator.precedence).Pairwise (· > ·) ∧ operators.length ≤ 3 := by
  have inside : (operators.map Waiting.operator).IsChain Tighter :=
    chain.infix ⟨above, below, split.symm⟩
  have falls : (operators.map Operator.precedence).Pairwise (· > ·) := by
    rw [← List.isChain_iff_pairwise, List.isChain_map]
    refine ((List.isChain_map _).mp inside).imp fun upper lower tighter => ?_
    simpa [binds] using tighter upper rfl
  have levels : operators.map Operator.precedence ⊆ List.range 3 := by
    intro level member
    obtain ⟨op, _, rfl⟩ := List.mem_map.mp member
    cases op <;> decide
  have distinct : (operators.map Operator.precedence).Nodup :=
    falls.imp fun greater => Nat.ne_of_gt greater
  refine ⟨falls, ?_⟩
  simpa using (List.subperm_of_subset distinct levels).length_le

end Waiting

namespace Yard

/-- What holds between any two characters, whatever the text. -/
structure Orderly (yard : Yard) : Prop where
  chain : yard.waiting.IsChain Waiting.Tighter
  topped : ∀ op : Operator, yard.last? = some op.char →
    ∃ top below, yard.waiting = .operator top :: below ∧ top.precedence = op.precedence
  spaced : yard.written = [] ∨ ∃ before, yard.written = ' ' :: before
  joined : ∀ c, yard.last? = some c → Symbol.ofChar? c = none →
    ∃ before, yard.written = ' ' :: c :: before

namespace Orderly

variable {yard : Yard}

/-- Where a sign continues a run, the operator that the run began with is on top. -/
theorem repeated (orderly : yard.Orderly) {op : Operator} (again : yard.repeats op = true) :
    ∃ top below, yard.waiting = .operator top :: below ∧ top.precedence = op.precedence :=
  orderly.topped op (@Sheet.last_of_repeats yard.sheet op again)

/-- To ask as well whether anything waits makes no difference. -/
theorem repeats_waiting (orderly : yard.Orderly) (op : Operator) :
    (!yard.waiting.isEmpty && yard.repeats op) = yard.repeats op := by
  cases again : yard.repeats op with
  | false => rw [Bool.and_false]
  | true =>
    obtain ⟨top, below, split, _⟩ := orderly.repeated again
    rw [split]
    rfl

theorem initial : Orderly {} := by
  constructor
  · exact List.isChain_nil
  · nofun
  · exact .inl rfl
  · nofun

theorem operand (orderly : yard.Orderly) {c : Char} (read : Symbol.ofChar? c = none)
    (solid : c ≠ ' ') : (yard.step c).Orderly := by
  rw [step_operand read solid]
  constructor
  · exact orderly.chain
  · rintro op ⟨⟩
    simp at read
  · exact .inr ⟨_, rfl⟩
  · rintro _ ⟨⟩ _
    exact ⟨_, rfl⟩

theorem chain_symbol (orderly : yard.Orderly) (s : Symbol) :
    (yard.symbol s).waiting.IsChain Waiting.Tighter := by
  cases s with
  | opening => exact List.isChain_cons.mpr ⟨by rintro _ _ _ ⟨⟩, orderly.chain⟩
  | closing => exact (orderly.chain.suffix (List.dropWhile_suffix _)).tail
  | operator op =>
    simp only [symbol]
    split
    · unfold repeatSign
      split
      · exact Waiting.chain_flip orderly.chain
      · exact orderly.chain
    · exact Waiting.chain_push orderly.chain op

theorem topped_symbol (orderly : yard.Orderly) (op : Operator) :
    ∃ top below, (yard.symbol (.operator op)).waiting = .operator top :: below ∧
      top.precedence = op.precedence := by
  simp only [symbol]
  split
  · next again =>
    obtain ⟨top, below, split, level⟩ := orderly.repeated again
    unfold repeatSign
    split
    · obtain ⟨turned, same, kept⟩ := Waiting.flip_operator top
      exact ⟨turned, below, by rw [split, List.modifyHead_cons, same], kept.trans level⟩
    · exact ⟨top, below, split, level⟩
  · exact ⟨op, _, rfl, rfl⟩

theorem spaced_symbol (orderly : yard.Orderly) (s : Symbol) :
    (yard.symbol s).written = [] ∨ ∃ before, (yard.symbol s).written = ' ' :: before := by
  have same : (yard.symbol s).written = (yard.step s.char).written := by rw [step_symbol]
  obtain ⟨released, written⟩ | ⟨none, _⟩ := yard.written_step s.char
  · rw [same, written]
    obtain kept | grown := release_spaced yard.written (released.map .operator)
    · rw [kept]
      exact orderly.spaced
    · exact .inr grown
  · simp at none

theorem symbol (orderly : yard.Orderly) (s : Symbol) : (yard.step s.char).Orderly := by
  rw [step_symbol]
  constructor
  · exact orderly.chain_symbol s
  · intro op last
    have read := Symbol.ofChar?_char s
    rw [Option.some.inj last, Symbol.ofChar?_operator] at read
    cases read
    exact orderly.topped_symbol op
  · exact orderly.spaced_symbol s
  · rintro _ ⟨⟩ read
    simp at read

theorem step (orderly : yard.Orderly) (c : Char) : (yard.step c).Orderly := by
  by_cases space : c = ' '
  · subst space
    exact orderly
  · cases read : Symbol.ofChar? c with
    | none => exact orderly.operand read space
    | some s =>
      rw [Symbol.ofChar?_eq_some.mp read]
      exact orderly.symbol s

theorem foldl (orderly : yard.Orderly) (text : List Char) : (text.foldl Yard.step yard).Orderly := by
  induction text generalizing yard with
  | nil => exact orderly
  | cons c rest ih => exact ih (orderly.step c)

end Orderly

/-- Within an operand the space behind the last character gives way to the next one. -/
theorem written_joined {yard : Yard} {c next : Char} {before : List Char}
    (last : yard.last? = some c) (read : Symbol.ofChar? c = none) (solid : isBlank c = false)
    (split : yard.written = ' ' :: c :: before) (other : Symbol.ofChar? next = none)
    (visible : next ≠ ' ') : (yard.step next).written = ' ' :: next :: c :: before := by
  have inside : yard.inOperand = true := by simp [inOperand, last, read]
  have kept : yard.written.dropWhile isBlank = c :: before := by
    rw [split, List.dropWhile_cons_of_pos (by decide), List.dropWhile_cons_of_neg (by simp [solid])]
  rw [step_operand other visible, Yard.operand, if_pos inside, kept]

/-- A further minus is never lost: the sign on top becomes the other one. -/
theorem waiting_turned {yard : Yard} {op : Operator} {below : List Waiting}
    (last : yard.last? = some '-') (sign : IsSign op.char)
    (split : yard.waiting = .operator op :: below) :
    ∃ other, IsSign other.char ∧ other ≠ op ∧ (yard.step '-').waiting = .operator other :: below := by
  obtain ⟨written, waiting, last?⟩ := yard
  cases last
  cases split
  cases op with
  | add => exact ⟨.sub, .inr rfl, by decide, rfl⟩
  | sub => exact ⟨.add, .inl rfl, by decide, rfl⟩
  | _ => simp [IsSign, Operator.char] at sign

theorem last_read (front : List Char) :
    (front.foldl step {}).last? = (unspaced front).getLast? := by
  rw [← foldl_unspaced, last_foldl (unspaced_solid front), Option.or_none]

/-- While a sign was the last character but for spaces, a sign waits on top. -/
theorem Orderly.sign {yard : Yard} (orderly : yard.Orderly) {sign : Char} (isSign : IsSign sign)
    (last : yard.last? = some sign) :
    ∃ op below, IsSign op.char ∧ yard.waiting = .operator op :: below := by
  have additive : ∃ op : Operator, sign = op.char ∧ op.precedence = 0 := by
    obtain rfl | rfl := isSign
    · exact ⟨.add, rfl, rfl⟩
    · exact ⟨.sub, rfl, rfl⟩
  obtain ⟨op, rfl, level⟩ := additive
  obtain ⟨top, below, split, same⟩ := orderly.topped op last
  rw [level] at same
  refine ⟨top, below, ?_, split⟩
  cases top with
  | add => exact .inl rfl
  | sub => exact .inr rfl
  | _ => cases same

end Yard

/-- The state of a conversion behind any number of characters. Listed from the top, operators
that wait with no parenthesis between them fall in precedence, so they are three at most. Behind
a sign, spaces aside, a sign is on top, and a further minus makes it the other one. What is
written is nothing yet or ends in a space; behind a character of an operand that is no blank
there is just that space behind the character, and the next character of the operand takes the
place of it. -/
theorem conversion_orderly (text : List Char) (count : Nat) :
    let front := (withLeadingZero text).take count
    let yard := front.foldl Yard.step {}
    (∀ above (operators : List Operator) below,
        yard.waiting = above ++ operators.map .operator ++ below →
      (operators.map Operator.precedence).Pairwise (· > ·) ∧ operators.length ≤ 3) ∧
    (∀ sign, IsSign sign → (unspaced front).getLast? = some sign →
      ∃ op below, IsSign op.char ∧ yard.waiting = .operator op :: below ∧
        (sign = '-' → ∃ other, IsSign other.char ∧ other ≠ op ∧
          (yard.step '-').waiting = .operator other :: below)) ∧
    (yard.written = [] ∨ ∃ before, yard.written = ' ' :: before) ∧
    ∀ c, (unspaced front).getLast? = some c → Symbol.ofChar? c = none → isBlank c = false →
      ∃ before, yard.written = ' ' :: c :: before ∧
        ∀ next, Symbol.ofChar? next = none → next ≠ ' ' →
          (yard.step next).written = ' ' :: next :: c :: before := by
  intro front yard
  have orderly : yard.Orderly := Yard.Orderly.initial.foldl front
  have last : yard.last? = (unspaced front).getLast? := Yard.last_read front
  rw [← last]
  refine ⟨fun above operators below => Waiting.operators_fall orderly.chain, ?_, orderly.spaced, ?_⟩
  · intro sign isSign ends
    obtain ⟨op, below, top, split⟩ := orderly.sign isSign ends
    refine ⟨op, below, top, split, ?_⟩
    rintro rfl
    exact Yard.waiting_turned ends top split
  · intro c ends read solid
    obtain ⟨before, split⟩ := orderly.joined c ends read
    exact ⟨before, split, fun next => Yard.written_joined ends read solid split⟩

/-- Three operators wait below the parenthesis while an operand is read, and inside it the
second of two minuses turns the first one around. -/
theorem conversion_orderly_full :
    let text := ['-', '1', '*', '2', '^', '(', '3', '4', '-', ' ', '-', '5']
    let inner := (withLeadingZero text).take 10
    let signed := (withLeadingZero text).take 12
    ((inner.foldl Yard.step {}).waiting =
        [.parenthesis] ++ [.pow, .mul, .sub].map .operator ++ [] ∧
      ([.pow, .mul, .sub].map Operator.precedence).Pairwise (· > ·)) ∧
    ((unspaced inner).getLast? = some '4' ∧
      ∃ before, (inner.foldl Yard.step {}).written = ' ' :: '4' :: before) ∧
    (unspaced signed).getLast? = some '-' ∧
      ∃ op below other, (signed.foldl Yard.step {}).waiting = .operator op :: below ∧ other ≠ op ∧
        ((signed.foldl Yard.step {}).step '-').waiting = .operator other :: below := by
  intro text inner signed
  obtain ⟨falls, _, _, joins⟩ := conversion_orderly text 10
  obtain ⟨_, turns, _, _⟩ := conversion_orderly text 12
  have split : (inner.foldl Yard.step {}).waiting =
      [.parenthesis] ++ [.pow, .mul, .sub].map .operator ++ [] := rfl
  obtain ⟨before, written, _⟩ := joins '4' rfl rfl rfl
  obtain ⟨op, below, _, waits, turned⟩ := turns '-' (.inr rfl) rfl
  obtain ⟨other, _, different, now⟩ := turned rfl
  exact ⟨⟨split, (falls _ _ _ split).1⟩, ⟨rfl, before, written⟩, rfl, op, below, other, waits,
    different, now⟩

end Reckoner.Postfix
