import Reckoner.Proofs.Postfix.Offence

/-! The height of the stack along postfix words, worked out without any value.
Words are well formed if each is an atom and no operator meets fewer than two
values, the zero at the bottom included. Well-formed words can fail for a name or
a division only, and no other words have a value. -/
namespace Reckoner.Postfix
open Infix.Grammar

/-- The height after a word, if it is an atom and finds what it needs. -/
def climb (height : Nat) (word : List Char) : Option Nat :=
  match Atom.read? word with
  | some (.operator _) => if 2 ≤ height then some (height - 1) else none
  | some _ => some (height + 1)
  | none => none

def climbs (height : Nat) (words : List (List Char)) : Option Nat :=
  words.foldlM climb height

def WellFormed (words : List (List Char)) : Prop :=
  climbs 1 words ≠ none

@[simp] theorem climbs_nil (height : Nat) : climbs height [] = some height := rfl

theorem climbs_cons (height : Nat) (word : List Char) (rest : List (List Char)) :
    climbs height (word :: rest) = (climb height word).bind fun next => climbs next rest :=
  List.foldlM_cons

theorem climbs_append (height : Nat) (front rest : List (List Char)) :
    climbs height (front ++ rest) = (climbs height front).bind fun next => climbs next rest :=
  List.foldlM_append

theorem climb_operand {word : List Char} (operand : Operand word) (height : Nat) :
    climb height word = some (height + 1) := by
  obtain ⟨nonempty, digits | letters⟩ := operand
  · rw [climb, Atom.read?_digits nonempty digits]
  · obtain ⟨name, rfl⟩ := name_of_letters nonempty letters
    rw [climb, Atom.read?_name]

/-- Operators in a row need one value more than they are. -/
theorem climbs_operators {height : Nat} (positive : 0 < height) (released : List Operator) :
    climbs height (released.map fun op => [op.char]) =
      if released.length < height then some (height - released.length) else none := by
  induction released generalizing height with
  | nil => rw [List.length_nil, if_pos positive, List.map_nil, climbs_nil, Nat.sub_zero]
  | cons op rest ih =>
    rw [List.map_cons, climbs_cons, climb, Atom.read?_operator, List.length_cons]
    by_cases enough : 2 ≤ height
    · simp only [if_pos enough, Option.bind_some]
      rw [ih (by omega)]
      by_cases fed : rest.length < height - 1
      · rw [if_pos fed, if_pos (by omega)]
        congr 1
        omega
      · rw [if_neg fed, if_neg (by omega)]
    · simp only [if_neg enough, Option.bind_none]
      rw [if_neg (by omega)]

section Step

variable {table : Table} {stack next : List Int} {word : List Char} {fault : Fault}

theorem Takes.climb (takes : Takes table stack word next) :
    climb stack.length word = some next.length := by
  cases takes with
  | name found => rw [Postfix.climb, Atom.read?_name, List.length_cons]
  | numeral numeral => rw [Postfix.climb, Atom.read?_numeral numeral, List.length_cons]
  | operator combined => simp [Postfix.climb, Atom.read?_operator]

theorem Refuses.climb (refuses : Refuses table stack word .malformedExpression) :
    climb stack.length word = none := by
  cases refuses with
  | shallow few =>
    simp only [Postfix.climb, Atom.read?_operator]
    exact if_neg (by omega)
  | unreadable unread => simp only [Postfix.climb, unread]

theorem step_of_climb (table : Table) {height : Nat} (climbed : climb stack.length word = some height) :
    step table stack word ≠ .error .malformedExpression ∧
      ∀ next, step table stack word = .ok next → next.length = height := by
  constructor
  · intro failed
    rw [(refuses_iff_step.mpr failed).climb] at climbed
    cases climbed
  · intro next stepped
    rw [(takes_iff_step.mpr stepped).climb] at climbed
    exact Option.some.inj climbed

theorem step_of_no_climb (table : Table) (stuck : climb stack.length word = none) :
    step table stack word = .error .malformedExpression := by
  obtain ⟨next, takes⟩ | ⟨fault, refuses⟩ := takes_or_refuses table stack word
  · rw [takes.climb] at stuck
    cases stuck
  · cases refuses with
    | undefined missing => simp [Postfix.climb, Atom.read?_name] at stuck
    | division => simp [Postfix.climb, Atom.read?_operator] at stuck
    | shallow few => exact (Refuses.shallow few).step
    | unreadable unread => exact (Refuses.unreadable unread).step

end Step

theorem run_of_climbs (table : Table) {stack : List Int} {words : List (List Char)} {height : Nat}
    (climbed : climbs stack.length words = some height) :
    run table stack words ≠ .error .malformedExpression ∧
      ∀ next, run table stack words = .ok next → next.length = height := by
  induction words generalizing stack with
  | nil =>
    cases climbed
    exact ⟨nofun, fun next reached => by cases reached; rfl⟩
  | cons word rest ih =>
    rw [climbs_cons] at climbed
    obtain ⟨middle, first, climbed⟩ := Option.bind_eq_some_iff.mp climbed
    obtain ⟨sound, length⟩ := step_of_climb table first
    rw [run_cons]
    cases stepped : step table stack word with
    | error fault =>
      refine ⟨?_, nofun⟩
      intro same
      cases same
      exact sound stepped
    | ok next =>
      rw [← length next stepped] at climbed
      exact ih climbed

theorem run_fault {table : Table} {stack : List Int} {words : List (List Char)} {fault : Fault}
    (failed : run table stack words = .error fault) :
    fault = .malformedExpression ∨
      (fault = .undefinedName ∧ ∃ name : Name, name.letters ∈ words ∧ name ∉ table) ∨
      fault = .divisionByZero := by
  obtain ⟨front, word, rest, middle, rfl, _, halts⟩ := run_eq_error.mp failed
  cases refuses_iff_step.mpr halts with
  | @undefined _ name missing => exact .inr (.inl ⟨rfl, name, by simp, missing⟩)
  | division => exact .inr (.inr rfl)
  | shallow | unreadable => exact .inl rfl

theorem value_of_defined {table : Table} {text : List Char}
    (defined : ∀ name : Name, name.letters ∈ Text.words text → name ∈ table) :
    value table text ≠ .error .undefinedName := by
  intro failed
  obtain malformed | ⟨_, name, member, unknown⟩ | division := run_fault (value_eq_error.mp failed)
  · cases malformed
  · exact unknown (defined name member)
  · cases division

/-- Among well-formed words the operands are never missing. -/
theorem value_of_wellFormed (table : Table) {text : List Char}
    (wellFormed : WellFormed (Text.words text)) : (∃ number, value table text = .ok number) ∨
      value table text = .error .undefinedName ∨ value table text = .error .divisionByZero := by
  obtain ⟨height, climbed⟩ := Option.ne_none_iff_exists'.mp wellFormed
  cases valued : value table text with
  | ok number => exact .inl ⟨number, rfl⟩
  | error fault =>
    have failed := value_eq_error.mp valued
    obtain rfl | ⟨rfl, _⟩ | rfl := run_fault failed
    · have sound := (@run_of_climbs table [0] (Text.words text) height climbed).1
      exact absurd failed sound
    · exact .inr (.inl rfl)
    · exact .inr (.inr rfl)

/-- Otherwise there is a first word which cannot be reached with what it needs. -/
theorem stuck_word {height : Nat} {words : List (List Char)} (stuck : climbs height words = none) :
    ∃ front word rest middle, words = front ++ word :: rest ∧ climbs height front = some middle ∧
      climb middle word = none := by
  induction words generalizing height with
  | nil => cases stuck
  | cons word rest ih =>
    rw [climbs_cons] at stuck
    cases first : climb height word with
    | none => exact ⟨[], word, rest, height, rfl, rfl, first⟩
    | some next =>
      rw [first] at stuck
      obtain ⟨front, last, behind, middle, rfl, climbed, halts⟩ := ih stuck
      refine ⟨word :: front, last, behind, middle, rfl, ?_, halts⟩
      rw [climbs_cons, first]
      exact climbed

theorem run_stuck (table : Table) {stack : List Int} {front rest : List (List Char)}
    {word : List Char} {middle : Nat} (climbed : climbs stack.length front = some middle)
    (halts : climb middle word = none) :
    run table stack (front ++ word :: rest) =
      run table stack front >>= fun _ => .error .malformedExpression := by
  rw [run_append]
  cases reached : run table stack front with
  | error fault => rfl
  | ok next =>
    rw [← (run_of_climbs table climbed).2 next reached] at halts
    change run table next (word :: rest) = _
    rw [run_cons, step_of_no_climb table halts]
    rfl

/-- Words that are not well formed have no value. That an operand is missing is what
is reported, unless the words before come to another fault. -/
theorem value_of_not_wellFormed {text : List Char} (malformed : ¬WellFormed (Text.words text)) :
    ∃ front, front <+: Text.words text ∧ ∀ table,
      (∀ number, value table text ≠ .ok number) ∧
      (value table text = .error .malformedExpression ↔
        ∃ stack, run table [0] front = .ok stack) := by
  have stuck : climbs [(0 : Int)].length (Text.words text) = none := by
    simpa [WellFormed] using malformed
  obtain ⟨front, word, rest, middle, split, climbed, halts⟩ := stuck_word stuck
  refine ⟨front, split ▸ List.prefix_append .., ?_⟩
  intro table
  have stopped : value table text = run table [0] front >>= fun _ => .error .malformedExpression := by
    rw [value, split, run_stuck table climbed halts]
    cases run table [0] front <;> rfl
  rw [stopped]
  cases reached : run table [0] front with
  | error fault =>
    refine ⟨fun _ same => (by cases same), ?_, ?_⟩
    · intro same
      cases same
      exact absurd reached (run_of_climbs table climbed).1
    · rintro ⟨_, same⟩
      cases same
  | ok stack => exact ⟨fun _ same => (by cases same), fun _ => ⟨stack, rfl⟩, fun _ => rfl⟩

end Reckoner.Postfix
