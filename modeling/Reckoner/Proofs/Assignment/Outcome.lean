import Reckoner.Assignment.Outcome
import Reckoner.Proofs.Dialogue.Assigning
import Reckoner.Proofs.Text.Words
import Mathlib.Data.List.TakeWhile

/-! What an assignment comes to. Every line has exactly one outcome; an assignment that fails
leaves the table as it found it, and one that succeeds sets a single name. -/
namespace Reckoner

theorem Numeral.denotes_iff {text : List Char} {value : Int} :
    Denotes text value ↔ read? text = some value := by
  constructor
  · intro denotes
    cases denotes with
    | unsigned nonempty digits =>
      exact read?_eq_some.mpr (.inl ⟨_, Postfix.digits?_eq nonempty digits, rfl⟩)
    | plus nonempty digits =>
      exact read?_eq_some.mpr
        (.inr ⟨_, _, _, rfl, Postfix.digits?_eq nonempty digits, .inl ⟨rfl, rfl⟩⟩)
    | minus nonempty digits =>
      exact read?_eq_some.mpr
        (.inr ⟨_, _, _, rfl, Postfix.digits?_eq nonempty digits, .inr ⟨rfl, rfl⟩⟩)
  · intro read
    obtain ⟨n, digits, rfl⟩ | ⟨sign, word, n, rfl, digits, ⟨rfl, rfl⟩ | ⟨rfl, rfl⟩⟩ :=
      read?_eq_some.mp read
    all_goals obtain ⟨⟨nonempty, isDigits⟩, rfl⟩ := Postfix.digits?_eq_some.mp digits
    · exact .unsigned nonempty isDigits
    · exact .plus nonempty isDigits
    · exact .minus nonempty isDigits

namespace Assignment

variable {table : Table} {line left right : List Char} {name other : Name} {value : Int}

theorem sides?_eq_none : sides? line = none ↔ '=' ∉ line := by
  have uncut : line.dropWhile (· ≠ '=') = [] ↔ '=' ∉ line := by
    simp only [List.dropWhile_eq_nil_iff, decide_eq_true_eq]
    constructor
    · exact fun others member => others '=' member rfl
    · rintro absent c member rfl
      exact absent member
  rw [← uncut, sides?]
  split
  · next rest => simp only [rest, reduceCtorEq]
  · next rest => simp only [rest]

theorem Sides.unique {left' right' : List Char} (sides : Sides line left right)
    (again : Sides line left' right') : left = left' ∧ right = right' := by
  have same := (sides?_eq_some.mpr sides).symm.trans (sides?_eq_some.mpr again)
  simpa using same

/-- Behind a name the right side decides alone. -/
theorem read_named (sides : Sides line name.letters right) :
    read table line = (resolve table right).map (name, ·) := by
  simp only [read, sides?_eq_some.mpr sides, Name.read?_letters]

theorem Outcome.perform {outcome : Except Fault Unit} {after : Table}
    (comes : Outcome table line outcome after) : perform table line = (outcome, after) := by
  cases comes with
  | noEquals absent =>
    apply perform_of_fault
    simp only [read, sides?_eq_none.mpr absent]
  | badName sides unlettered =>
    apply perform_of_fault
    simp only [read, sides?_eq_some.mpr sides, Name.read?_eq_none.mpr unlettered]
  | undefined sides missing =>
    apply perform_of_fault
    simp [read_named sides, resolve, Name.read?_letters, missing, Except.map]
  | copy sides found =>
    apply perform_of_read
    rw [read_named sides, resolve_eq_ok.mpr (.copy found)]
    rfl
  | numeral sides denotes =>
    apply perform_of_read
    rw [read_named sides, resolve_eq_ok.mpr (.numeral (Numeral.denotes_iff.mp denotes))]
    rfl
  | @badValue name right sides unlettered unread =>
    have none : Numeral.read? right = none := Option.eq_none_iff_forall_ne_some.mpr
      fun value read => unread value (Numeral.denotes_iff.mpr read)
    apply perform_of_fault
    simp [read_named sides, resolve, Name.read?_eq_none.mpr unlettered, none, Except.map]

/-- No line is without one. -/
theorem exists_outcome (table : Table) (line : List Char) :
    ∃ outcome after, Outcome table line outcome after := by
  cases cut : sides? line with
  | none => exact ⟨_, _, .noEquals (sides?_eq_none.mp cut)⟩
  | some both =>
    obtain ⟨left, right⟩ := both
    have sides : Sides line left right := sides?_eq_some.mp cut
    cases named : isName left with
    | false => exact ⟨_, _, .badName sides named⟩
    | true =>
      cases copied : isName right with
      | true =>
        cases found : table[(⟨right, copied⟩ : Name)]? with
        | none =>
          have missing : (⟨right, copied⟩ : Name) ∉ table := by simpa using found
          exact ⟨_, _, @Outcome.undefined _ _ ⟨left, named⟩ ⟨right, copied⟩ sides missing⟩
        | some value =>
          exact ⟨_, _, @Outcome.copy _ _ ⟨left, named⟩ ⟨right, copied⟩ value sides found⟩
      | false =>
        by_cases numeral : ∃ value, Numeral.Denotes right value
        · obtain ⟨value, denotes⟩ := numeral
          exact ⟨_, _, @Outcome.numeral _ _ ⟨left, named⟩ right value sides denotes⟩
        · have unread := not_exists.mp numeral
          exact ⟨_, _, @Outcome.badValue _ _ ⟨left, named⟩ right sides copied unread⟩

theorem outcome_iff_perform {outcome : Except Fault Unit} {after : Table} :
    Outcome table line outcome after ↔ perform table line = (outcome, after) := by
  refine ⟨Outcome.perform, fun done => ?_⟩
  obtain ⟨outcome', after', comes⟩ := exists_outcome table line
  obtain ⟨rfl, rfl⟩ := Prod.mk.inj (comes.perform.symm.trans done)
  exact comes

/-- Whichever way an assignment fails, the table that it leaves is the one that it found. -/
theorem perform_fault {cause : Fault} {after : Table}
    (failed : perform table line = (.error cause, after)) : after = table := by
  cases outcome_iff_perform.mpr failed with
  | noEquals | badName | undefined | badValue => rfl

/-- A second equals sign is on the right, where neither a name nor a numeral has one. -/
theorem Sides.equals (sides : Sides line left right) (twice : 2 ≤ line.count '=') :
    '=' ∈ right := by
  obtain ⟨before, behind, rfl, first, _, rfl⟩ := sides
  have none : before.count '=' = 0 := List.count_eq_zero.mpr first
  have more : 0 < behind.count '=' := by
    simp only [List.count_append, List.count_cons_self, none] at twice
    omega
  rwa [← List.count_pos_iff, Text.count_trim (by decide)]

theorem equals_not_name (name : Name) : '=' ∉ name.letters :=
  fun member => absurd (name.alpha '=' member) (by decide)

theorem equals_not_numeral (denotes : Numeral.Denotes right value) : '=' ∉ right := by
  intro member
  cases denotes with
  | unsigned _ digits => exact absurd (digits '=' member) (by decide)
  | plus _ digits | minus _ digits =>
    obtain same | inside := List.mem_cons.mp member
    · cases same
    · exact absurd (digits '=' inside) (by decide)

theorem perform_twice (twice : 2 ≤ line.count '=') :
    perform table line = (.error .malformedName, table) ∨
      perform table line = (.error .malformedAssignment, table) := by
  obtain ⟨outcome, after, comes⟩ := exists_outcome table line
  rw [comes.perform]
  cases comes with
  | badName => exact .inl rfl
  | noEquals | badValue => exact .inr rfl
  | undefined sides | copy sides => exact absurd (sides.equals twice) (equals_not_name _)
  | numeral sides denotes => exact absurd (sides.equals twice) (equals_not_numeral denotes)

theorem perform_present (sides : Sides line name.letters name.letters) (member : name ∈ table) :
    perform table line = (.ok (), table) := by
  rw [Std.ExtTreeMap.mem_iff_isSome_getElem?, Option.isSome_iff_exists] at member
  obtain ⟨value, found⟩ := member
  rw [(Outcome.copy sides found).perform, Table.insert_present found]

theorem perform_change {changed : Table} (done : perform table line = (.ok (), changed)) :
    ∃ (name : Name) (right : List Char) (value : Int), Sides line name.letters right ∧
      changed[name]? = some value ∧ ∀ other, other ≠ name → changed[other]? = table[other]? := by
  cases outcome_iff_perform.mpr done with
  | copy sides | numeral sides =>
    exact ⟨_, _, _, sides, Std.ExtTreeMap.getElem?_insert_self,
      fun other => Table.getElem?_insert_other⟩

/-- Every line has exactly one outcome as an assignment, and behind it the table is this one. If
the assignment fails the table is as it was. If it succeeds one name is set and all others are
as they were, a name that is set to itself too. With a second equals sign it cannot succeed.
In a dialogue a line may ask for anything: it leaves the table when it is replied to by a
fault. -/
theorem perform_outcome (table : Table) (line : List Char) :
    (∀ outcome after, perform table line = (outcome, after) ↔ Outcome table line outcome after) ∧
    (∀ cause after, perform table line = (.error cause, after) → after = table) ∧
    (∀ changed, perform table line = (.ok (), changed) →
      ∃ (name : Name) (right : List Char) (value : Int), Sides line name.letters right ∧
        changed[name]? = some value ∧ ∀ other, other ≠ name → changed[other]? = table[other]?) ∧
    (∀ name : Name, Sides line name.letters name.letters → name ∈ table →
      perform table line = (.ok (), table)) ∧
    (2 ≤ line.count '=' → perform table line = (.error .malformedName, table) ∨
      perform table line = (.error .malformedAssignment, table)) ∧
    (∀ cause after, Dialogue.respond table line = (.fault cause, after) → after = table) := by
  refine ⟨fun outcome after => outcome_iff_perform.symm, fun cause after => perform_fault,
    fun changed => perform_change, fun name => perform_present, perform_twice, ?_⟩
  intro cause after replied
  have same : (Dialogue.respond table line).2 = table :=
    Dialogue.respond_fault (congrArg Prod.fst replied)
  rwa [replied] at same

/-- A name copied to itself, a signed numeral, and two lines that fail and leave the table: a chain,
and a command, which has no equals sign. -/
theorem perform_outcome_chain :
    let table : Table := (∅ : Table).insert ⟨['b'], rfl⟩ 7
    let same := ['\u3000', 'b', ' ', '=', '\t', 'b']
    let signed := ['a', '=', '-', '0', '5']
    let chain := ['a', '=', 'b', '=', '5']
    let command := ['/', 'b']
    (Sides same ['b'] ['b'] ∧ perform table same = (.ok (), table)) ∧
    (Numeral.Denotes ['-', '0', '5'] (-5) ∧
      perform table signed = (.ok (), table.insert ⟨['a'], rfl⟩ (-5)) ∧
      (table.insert ⟨['a'], rfl⟩ (-5))[(⟨['b'], rfl⟩ : Name)]? = some 7) ∧
    (2 ≤ chain.count '=' ∧ perform table chain = (.error .malformedAssignment, table)) ∧
    perform table command = (.error .malformedAssignment, table) ∧
      Dialogue.respond table command = (.fault .unknownCommand, table) := by
  intro table same signed chain command
  let a : Name := ⟨['a'], rfl⟩
  let b : Name := ⟨['b'], rfl⟩
  obtain ⟨_, _, _, present, _, _⟩ := perform_outcome table same
  obtain ⟨outcomes, _, changes, _, _, _⟩ := perform_outcome table signed
  obtain ⟨_, _, _, _, twice, _⟩ := perform_outcome table chain
  obtain ⟨_, kept, _, _, _, keptThen⟩ := perform_outcome table command
  have sidesSame : Sides same b.letters b.letters := sides?_eq_some.mp rfl
  have sidesSigned : Sides signed a.letters ['-', '0', '5'] := sides?_eq_some.mp rfl
  have denotes : Numeral.Denotes ['-', '0', '5'] (-5) := Numeral.denotes_iff.mpr rfl
  have done : perform table signed = (.ok (), table.insert a (-5)) :=
    (outcomes _ _).mpr (.numeral sidesSigned denotes)
  have other : (table.insert a (-5))[b]? = some 7 := by
    obtain ⟨name, right, value, sides, _, others⟩ := changes _ done
    obtain ⟨named, _⟩ := sidesSigned.unique sides
    have apart : b ≠ name := by
      rintro rfl
      cases named
    rw [others b apart]
    exact Std.ExtTreeMap.getElem?_insert_self
  have failed : perform table chain = (.error .malformedAssignment, table) := by
    obtain named | valued := twice (by decide)
    · cases named
    · exact valued
  have unassigned : (perform table command).1 = .error .malformedAssignment := rfl
  have unknown : (Dialogue.respond table command).1 = .fault .unknownCommand := rfl
  exact ⟨⟨sidesSame, present b sidesSame (by simp [table, b])⟩, ⟨denotes, done, other⟩,
    ⟨by decide, failed⟩, Prod.ext unassigned (kept _ _ (Prod.ext unassigned rfl)),
    Prod.ext unknown (keptThen _ _ (Prod.ext unknown rfl))⟩

end Assignment
end Reckoner
