import Reckoner.Proofs.Infix.Comparison
import Reckoner.Proofs.Infix.Nesting
import Reckoner.Proofs.Infix.Settled
import Reckoner.Proofs.Infix.Supply
import Reckoner.Proofs.Postfix.Height

/-! Texts whose parentheses nest and whose operators still lack an operand. An operator
is released once what binds no tighter follows, so a later operand does not help it;
the zero at the bottom of the stack stands in for one operand and no more. -/
namespace Reckoner.Infix
open Grammar Text Postfix

/-- The operators that wait, behind the text without its blanks. -/
def pending (text : List Char) : Nat :=
  (Sheet.read (compact text)).waiting.countP Waiting.isOperator

/-- Nowhere were more operators released than operands came, the zero aside. -/
def Fed (text : List Char) : Prop :=
  ∀ front, front <+: text → operators front ≤ operands front + pending front

/-- Not more operators than operands, neither in all nor behind any parenthesis that
encloses the operators so far. -/
def Supplied (text : List Char) : Prop :=
  operators (withLeadingZero text) ≤ operands (withLeadingZero text) ∧
    ∀ front, front <+: withLeadingZero text → Settled front → operators front ≤ operands front

section

variable {text : List Char} {c : Char}

theorem fed_concat : Fed (text ++ [c]) ↔ Fed text ∧
    operators (text ++ [c]) ≤ operands (text ++ [c]) + pending (text ++ [c]) := by
  simp only [Fed, List.prefix_concat_iff, or_imp, forall_and, forall_eq]
  exact and_comm

theorem pending_eq_zero_iff : pending text = 0 ↔ Settled text := by
  rw [pending, Settled, ← settled_compact, Sheet.settled_iff, List.countP_eq_zero]
  simp only [Waiting.below, Bool.not_eq_true]

/-- The height of the stack behind the words so far: every operand adds one to it, and
every operator that no longer waits takes one. -/
def Climbs (text : List Char) (words : List (List Char)) : Prop :=
  (Fed text ∧ ∃ height, climbs 1 words = some height ∧
    height + operators text = 1 + operands text + pending text) ∨
  (¬Fed text ∧ climbs 1 words = none)

/-- No operator begins or is released, and operands add to the height what they count. -/
theorem Climbs.fed {words words' : List (List Char)} (climbed : Climbs text words) (added : Nat)
    (moved : operands (text ++ [c]) = operands text + added ∧
      operators (text ++ [c]) = operators text ∧ pending (text ++ [c]) = pending text)
    (height : climbs 1 words' = (climbs 1 words).map (· + added)) :
    Climbs (text ++ [c]) words' := by
  obtain ⟨operands, operators, waiting⟩ := moved
  have fed : Fed (text ++ [c]) ↔ Fed text := by
    rw [fed_concat, operands, operators, waiting]
    apply and_iff_left_of_imp
    intro fed
    have := fed text (List.prefix_refl _)
    omega
  rw [Climbs, fed, operands, operators, waiting, height]
  rcases climbed with ⟨isFed, reached, climbed, count⟩ | ⟨notFed, stuck⟩
  · refine .inl ⟨isFed, reached + added, ?_, by omega⟩
    rw [climbed, Option.map_some]
  · refine .inr ⟨notFed, ?_⟩
    rw [stuck, Option.map_none]

/-- A symbol releases operators, and perhaps begins one. -/
theorem Climbs.released {words : List (List Char)} (climbed : Climbs text words)
    {released : List Operator} {begun : Nat}
    (moved : operands (text ++ [c]) = operands text ∧
      operators (text ++ [c]) = operators text + begun ∧
      pending (text ++ [c]) + released.length = pending text + begun) :
    Climbs (text ++ [c]) (words ++ released.map fun op => [op.char]) := by
  obtain ⟨operands, operators, waiting⟩ := moved
  rw [Climbs, fed_concat, operands, operators, climbs_append]
  rcases climbed with ⟨isFed, height, climbed, count⟩ | ⟨notFed, stuck⟩
  · have now := isFed text (List.prefix_refl _)
    rw [climbed, Option.bind_some, climbs_operators (by omega)]
    by_cases enough : released.length < height
    · refine .inl ⟨⟨isFed, by omega⟩, height - released.length, if_pos enough, by omega⟩
    · refine .inr ⟨?_, if_neg enough⟩
      intro fed
      have := fed.2
      omega
  · refine .inr ⟨?_, ?_⟩
    · intro fed
      exact notFed fed.1
    · rw [stuck]
      rfl

theorem begins_operator (text : List Char) (s : Symbol) :
    beginsOperator (compact text).getLast? s.char =
      (Sheet.read (compact text)).begins Waiting.isOperator s := by
  cases s with
  | operator op =>
    rw [Symbol.char, beginsOperator, Operator.ofChar?_char, Sheet.begins, Sheet.repeats,
      Sheet.last_compact]
    cases op <;> simp [Operator.char, Waiting.isOperator]
  | opening => exact beginsOperator_other (IsParenthesis.not_operator (.inl rfl))
  | closing => exact beginsOperator_other (IsParenthesis.not_operator (.inr rfl))

theorem Climbs.symbol {s : Symbol} (solid : isBlank s.char = false) (other : ¬IsOperand s.char)
    (climbed : Climbs text (Sheet.read (compact text)).words) :
    Climbs (text ++ [s.char]) (Sheet.read (compact (text ++ [s.char]))).words := by
  obtain ⟨released, waiting, turn, turned⟩ := (Sheet.read (compact text)).turn s
  have count := turn.countP Waiting.isOperator rfl fun _ _ _ item => by
    rcases item with _ | (_ | _) <;> rfl
  have all : (released.map Waiting.operator).countP Waiting.isOperator = released.length := by
    rw [List.countP_map]
    exact List.countP_eq_length.mpr fun _ _ => rfl
  have stepped : Sheet.read (compact (text ++ [s.char])) =
      ⟨(Sheet.read (compact text)).words ++ released.map fun op => [op.char], waiting,
        some s.char⟩ := by
    rw [compact_solid solid, Sheet.read_concat, Sheet.step_symbol, turned]
  rw [stepped]
  refine climbed.released ⟨?_, operators_solid solid, ?_⟩
  · rw [operands_solid solid, beginsOperand_other other]
    rfl
  · rw [pending, pending, stepped, begins_operator, ← count, all]

theorem Scan.climbs_begun {place : Place} {run : Run} (scan : Scan text place)
    (climbed : Climbs text (Sheet.read (compact text)).words) (incomplete : place.complete = false)
    (has : run.Has c) : Climbs (text ++ [c]) (Sheet.read (compact (text ++ [c]))).words ∧
      EndsIn run (Sheet.read (compact (text ++ [c]))).words := by
  have operand := has.isOperand
  have apart : (Sheet.read (compact text)).inOperand = false :=
    Sheet.outside_of_symbol (Sheet.last_compact text ▸ scan.behind.symbol incomplete)
  have outside := scan.behind.not_operand incomplete
  have words := Sheet.words_begun operand (.inl apart)
  have all : ∀ d ∈ [c], run.Has d := by simpa using has
  have height := climb_operand (operand_of_run (by simp) all)
  rw [compact_solid operand.solid, Sheet.read_concat, words]
  refine ⟨climbed.fed 1 ⟨?_, ?_, ?_⟩ ?_, ⟨_, [c], rfl, by simp, all⟩⟩
  · rw [operands_solid operand.solid, beginsOperand_first operand outside]
    rfl
  · rw [operators_solid operand.solid, beginsOperator_other operand.not_operator]
    rfl
  · rw [pending, compact_solid operand.solid, Sheet.read_concat,
      (Sheet.operand_words operand _).1, pending]
  · rw [climbs_append]
    simp only [climbs_cons, height, climbs_nil, Option.bind_some]
    cases Postfix.climbs 1 (Sheet.read (compact text)).words <;> rfl

theorem Scan.climbs_grown {place : Place} {run : Run} (scan : Scan text place)
    (climbed : Climbs text (Sheet.read (compact text)).words)
    (source : place = .first run ∨ place = .later run)
    (ended : EndsIn run (Sheet.read (compact text)).words) (has : run.Has c) :
    Climbs (text ++ [c]) (Sheet.read (compact (text ++ [c]))).words ∧
      EndsIn run (Sheet.read (compact (text ++ [c]))).words := by
  have operand := has.isOperand
  obtain ⟨d, last, inside⟩ := scan.behind.inside source
  obtain ⟨front, word, split, nonempty, all⟩ := ended
  have grown := Run.has_concat all has
  have joins := Sheet.inside_of_other (Sheet.last_compact text ▸ last) inside.isOperand.no_symbol
  have words := (Sheet.operand_words operand (Sheet.read (compact text))).2
  rw [if_pos joins, split, extend_concat] at words
  have before := climb_operand (operand_of_run nonempty all)
  have after := climb_operand (operand_of_run (by simp) grown)
  rw [compact_solid operand.solid, Sheet.read_concat, words]
  refine ⟨climbed.fed 0 ⟨?_, ?_, ?_⟩ ?_, ⟨front, _, rfl, by simp, grown⟩⟩
  · rw [operands_solid operand.solid, last, beginsOperand_further inside.isOperand]
    rfl
  · rw [operators_solid operand.solid, beginsOperator_other operand.not_operator]
    rfl
  · rw [pending, compact_solid operand.solid, Sheet.read_concat,
      (Sheet.operand_words operand _).1, pending]
  · rw [split, climbs_append, climbs_append]
    simp only [climbs_cons, before, after, climbs_nil, Nat.add_zero, Option.map_id']

end

theorem Scan.climbs {text : List Char} {place : Place} (scan : Scan text place) :
    Climbs text (Sheet.read (compact text)).words ∧
      place.Written (Sheet.read (compact text)).words := by
  induction scan with
  | start =>
    refine ⟨.inl ⟨?_, 1, rfl, rfl⟩, trivial⟩
    intro front before
    rw [List.prefix_nil.mp before]
    exact Nat.zero_le _
  | @next text place next c scan move ih =>
    obtain ⟨climbed, written⟩ := ih
    cases move.effect with
    | blank blank _ _ =>
      refine ⟨?_, move.last.written blank.not_operand _⟩
      obtain ⟨operands, operators⟩ := @counts_blank text c blank
      refine climbed.fed 0 ⟨operands, operators, ?_⟩ ?_
      · rw [pending, compact_blank blank, pending]
      · rw [compact_blank blank]
        simp
    | bracket bracket _ _ =>
      have other := bracket.not_operand
      refine ⟨?_, move.last.written other _⟩
      rcases bracket with rfl | rfl
      · exact climbed.symbol (s := .opening) (by decide) other
      · exact climbed.symbol (s := .closing) (by decide) other
    | begun incomplete has target =>
      obtain ⟨climbed, added⟩ := scan.climbs_begun climbed incomplete has
      rcases target with rfl | rfl <;> exact ⟨climbed, added⟩
    | grown source has =>
      rcases source with rfl | rfl
      · exact scan.climbs_grown climbed (.inl rfl) written has
      · exact scan.climbs_grown climbed (.inr rfl) written has
    | operator _ operator _ =>
      obtain ⟨op, rfl⟩ := operator.exists_char
      have other := operator.not_operand
      exact ⟨climbed.symbol (s := .operator op) operator.solid other, move.last.written other _⟩
    | sign _ sign _ =>
      obtain ⟨op, rfl⟩ := sign.operator.exists_char
      have other := sign.operator.not_operand
      exact ⟨climbed.symbol (s := .operator op) sign.operator.solid other, move.last.written other _⟩

/-- One operator may be ahead of its operands while the text still goes on, so only where
none waits can there be one too many. -/
theorem Scan.supplied_iff {text : List Char} {place : Place} (scan : Scan text place)
    (complete : place.complete = true) :
    (Fed text ∧ operators text ≤ operands text) ↔ operators text ≤ operands text ∧
      ∀ front, front <+: text → Settled front → operators front ≤ operands front := by
  constructor
  · rintro ⟨fed, enough⟩
    refine ⟨enough, ?_⟩
    intro front before settled
    have := fed front before
    rwa [pending_eq_zero_iff.mpr settled] at this
  · rintro ⟨enough, settled⟩
    refine ⟨?_, enough⟩
    intro front before
    by_cases none : pending front = 0
    · have := settled front before (pending_eq_zero_iff.mp none)
      omega
    · obtain ⟨earlier, _, bound⟩ := scan.surplus before
      rw [complete, Bool.toNat_true] at bound
      omega

theorem operators_of_count {waiting : List Waiting} (none : waiting.count .parenthesis = 0) :
    ∃ ops : List Operator, waiting = ops.map .operator ∧
      ops.length = waiting.countP Waiting.isOperator := by
  induction waiting with
  | nil => exact ⟨[], rfl, rfl⟩
  | cons item rest ih =>
    cases item with
    | parenthesis => simp at none
    | operator op =>
      obtain ⟨ops, same, length⟩ := ih (by simpa using none)
      exact ⟨op :: ops, by rw [same, List.map_cons], by
        rw [List.length_cons, length, List.countP_cons_of_pos rfl]⟩

theorem wellFormed_iff_supplied {text : List Char} (accepted : accepts text = true)
    (nested : Nested text) (harmless : Harmless (withLeadingZero text)) :
    WellFormed (words (ofInfix text)) ↔ Supplied text := by
  obtain ⟨place, ends, scan⟩ := scan_of_accepts accepted
  have complete := Place.complete_of_ends ends
  obtain ⟨sameWords, sameWaiting⟩ := scan.compared.same harmless
  rw [Sheet.read_withLeadingZero] at sameWords sameWaiting
  -- no parenthesis waits at the end, so only operators are released
  have none : (Sheet.ofText text).waiting.count .parenthesis = 0 := by
    rw [Sheet.count_ofText]
    exact (nested_iff nested.2).mp nested
  rw [sameWaiting] at none
  obtain ⟨ops, waits, length⟩ := operators_of_count none
  rw [← pending] at length
  rw [Supplied, ← scan.supplied_iff complete, words_ofInfix, Sheet.finish, sameWords, sameWaiting,
    waits, Sheet.release_operators, WellFormed, climbs_append]
  rcases scan.climbs.1 with ⟨fed, height, climbed, count⟩ | ⟨notFed, stuck⟩
  · have now := fed _ (List.prefix_refl _)
    rw [climbed, Option.bind_some, climbs_operators (by omega), and_iff_right fed]
    by_cases enough : ops.length < height
    · rw [if_pos enough]
      exact iff_of_true (by simp) (by omega)
    · rw [if_neg enough]
      exact iff_of_false (fun sound => sound rfl) (by omega)
  · rw [stuck]
    exact iff_of_false (fun sound => sound rfl) fun fed => notFed fed.1

/-- An accepted text with nested parentheses has a value or fails for a name or a
division, if its postfix words are well formed. Otherwise it has a value under no table,
and a missing operand is reported as soon as the words before it are evaluated. Where no
blank does harm, the words are well formed exactly if every operator is supplied. -/
theorem malformed_iff_unsupplied {text : List Char} (accepted : accepts text = true)
    (nested : Nested text) :
    (WellFormed (words (ofInfix text)) → ∀ table, (∃ number, value table text = .ok number) ∨
        value table text = .error .undefinedName ∨ value table text = .error .divisionByZero) ∧
      (¬WellFormed (words (ofInfix text)) → ∃ front, front <+: words (ofInfix text) ∧ ∀ table,
        (∀ number, value table text ≠ .ok number) ∧
        (value table text = .error .malformedExpression ↔
          ∃ stack, run table [0] front = .ok stack)) ∧
      (Harmless (withLeadingZero text) →
        (WellFormed (words (ofInfix text)) ↔ Supplied text)) := by
  have converted (table : Table) : value table text = Postfix.value table (ofInfix text) := by
    rw [value, if_pos accepted]
  simp only [converted]
  refine ⟨?_, value_of_not_wellFormed, wellFormed_iff_supplied accepted nested⟩
  intro sound table
  exact value_of_wellFormed table sound

/-- One sign behind a tight operator is made good by the zero, two of them are not. -/
theorem malformed_iff_unsupplied_sign :
    let one := ['2', '*', '-', '3']
    let two := ['1', '*', '-', '2', '*', '-', '3']
    (accepts one = true ∧ Nested one ∧ Harmless (withLeadingZero one) ∧
      WellFormed (words (ofInfix one)) ∧ Supplied one ∧
      ∀ table, (∃ number, value table one = .ok number) ∨
        value table one = .error .undefinedName ∨ value table one = .error .divisionByZero) ∧
    (accepts two = true ∧ Nested two ∧ Harmless (withLeadingZero two) ∧
      ¬WellFormed (words (ofInfix two)) ∧ ¬Supplied two ∧
      ∀ table number, value table two ≠ .ok number) := by
  intro one two
  have acceptedOne : accepts one = true := rfl
  have acceptedTwo : accepts two = true := rfl
  have nestedOne : Nested one := (nested_iff rfl).mpr rfl
  have nestedTwo : Nested two := (nested_iff rfl).mpr rfl
  have harmlessOne : Harmless (withLeadingZero one) :=
    harmless_of_soft (withLeadingZero_soft (by simp [one, isBlank, isNarrowBlank]))
  have harmlessTwo : Harmless (withLeadingZero two) :=
    harmless_of_soft (withLeadingZero_soft (by simp [two, isBlank, isNarrowBlank]))
  obtain ⟨valued, _, suppliedOne⟩ := malformed_iff_unsupplied acceptedOne nestedOne
  obtain ⟨_, stuck, suppliedTwo⟩ := malformed_iff_unsupplied acceptedTwo nestedTwo
  have sound : WellFormed (words (ofInfix one)) := by
    have height : climbs 1 (words (ofInfix one)) = some 1 := by decide +kernel
    simp [WellFormed, height]
  have unsound : ¬WellFormed (words (ofInfix two)) := by
    have none : climbs 1 (words (ofInfix two)) = none := by decide +kernel
    simp [WellFormed, none]
  obtain ⟨_, _, refused⟩ := stuck unsound
  exact ⟨⟨acceptedOne, nestedOne, harmlessOne, sound, (suppliedOne harmlessOne).mp sound, valued sound⟩,
    acceptedTwo, nestedTwo, harmlessTwo, unsound, mt (suppliedTwo harmlessTwo).mpr unsound,
    fun table => (refused table).1⟩

/-- Each of two signs behind tight operators lacks an operand, and there is one zero. -/
theorem value_two_signs :
    accepts ['1', '*', '-', '2', '*', '-', '3'] = true ∧
      Nested ['1', '*', '-', '2', '*', '-', '3'] ∧
      value ∅ ['1', '*', '-', '2', '*', '-', '3'] = .error .malformedExpression :=
  ⟨rfl, (nested_iff rfl).mpr rfl, rfl⟩

end Reckoner.Infix
