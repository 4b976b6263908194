import Reckoner.Proofs.Infix.Scan

/-! What the characters of an accepted text do to its operands and operators, whatever
their places: blanks and parentheses keep apart or enclose, and every other character
begins an operand or an operator or belongs to the one before it. -/
namespace Reckoner.Infix
open Grammar Text

theorem Place.incomplete_of_leading {place : Place} (leading : place.leading = true) :
    place.complete = false := by
  cases place <;> simp_all

theorem Place.incomplete_of_due {place : Place} (due : place.due = true) :
    place.complete = false := by
  cases place <;> simp_all

/-- The very last character at each place. -/
def Place.Last (c : Char) : Place → Prop
  | .head => c = '('
  | .headSigned | .signs | .signed => IsSign c
  | .headSpaced | .spaced => IsBlank c
  | .first run | .later run => run.Has c
  | .closed => IsParenthesis c
  | .tight => IsTight c
  | .opened => IsBlank c ∨ IsParenthesis c

/-- The last character that is no blank, as far as the place tells. -/
def Place.Behind (before : Option Char) : Place → Prop
  | .first run | .later run => ∃ c, before = some c ∧ run.Has c
  | .closed | .spaced => ∀ c ∈ before, ¬IsOperator c
  | _ => ∀ c ∈ before, IsOperator c ∨ IsParenthesis c

inductive Effect : Place → Char → Place → Prop
  | blank {place next : Place} {c : Char} : IsBlank c →
      (∀ before, place.Behind before → next.Behind before) → next.complete = place.complete →
      Effect place c next
  | bracket {place next : Place} {c : Char} : IsParenthesis c → next.Behind (some c) →
      next.complete = place.complete → Effect place c next
  | begun {place next : Place} {run : Run} {c : Char} : place.complete = false → run.Has c →
      next = .first run ∨ next = .later run → Effect place c next
  | grown {place : Place} {run : Run} {c : Char} : place = .first run ∨ place = .later run →
      run.Has c → Effect place c place
  | operator {place next : Place} {c : Char} : place.complete = true → IsOperator c →
      next.due = true → Effect place c next
  | sign {place next : Place} {c : Char} : place.complete = false → IsSign c →
      next.complete = false → Effect place c next

section

variable {before : Option Char} {place next : Place} {c : Char}

theorem Place.Behind.not_operator (behind : place.Behind before)
    (complete : place.complete = true) : ∀ c ∈ before, ¬IsOperator c := by
  cases place with
  | first run | later run =>
    obtain ⟨c, rfl, has⟩ := behind
    rintro d ⟨⟩
    exact has.isOperand.not_operator
  | closed | spaced => exact behind
  | _ => simp at complete

theorem Place.Behind.inside {run : Run} (source : place = .first run ∨ place = .later run)
    (behind : place.Behind before) : ∃ d, before = some d ∧ run.Has d := by
  rcases source with rfl | rfl <;> exact behind

theorem Place.Behind.symbol (behind : place.Behind before) (incomplete : place.complete = false) :
    ∀ c ∈ before, IsOperator c ∨ IsParenthesis c := by
  cases place with
  | first run | later run | closed | spaced => simp at incomplete
  | _ => exact behind

theorem Place.Behind.not_operand (behind : place.Behind before)
    (incomplete : place.complete = false) : ∀ c ∈ before, ¬IsOperand c := by
  intro c last
  exact (behind.symbol incomplete c last).elim IsOperator.not_operand IsParenthesis.not_operand

theorem Place.Behind.of_symbol (incomplete : place.complete = false)
    (symbol : IsOperator c ∨ IsParenthesis c) : place.Behind (some c) := by
  cases place with
  | first run | later run | closed | spaced => simp at incomplete
  | _ =>
    rintro d ⟨⟩
    exact symbol

theorem Move.effect (move : Move place c next) : Effect place c next := by
  cases move with
  | nest => exact .bracket (.inl rfl) (.of_symbol rfl (.inr (.inl rfl))) rfl
  | leadSign sign => exact .sign rfl sign rfl
  | leadBlank source blank =>
    rcases source with rfl | rfl <;> exact .blank blank (fun _ behind => behind) rfl
  | first leading has => exact .begun (Place.incomplete_of_leading leading) has (.inl rfl)
  | growFirst has => exact .grown (.inl rfl) has
  | later due has => exact .begun (Place.incomplete_of_due due) has (.inr rfl)
  | growLater has => exact .grown (.inr rfl) has
  | bracketAfter source bracket =>
    refine .bracket bracket ?_ (by rcases source with ⟨run, rfl⟩ | rfl <;> rfl)
    rintro d ⟨⟩
    exact bracket.not_operator
  | blankAfter complete _ blank =>
    exact .blank blank (fun _ behind => behind.not_operator complete) complete.symm
  | signAfter complete sign => exact .operator complete sign.operator rfl
  | tightAfter complete tight => exact .operator complete tight.operator rfl
  | sign sign => exact .sign rfl sign rfl
  | blankBehind source blank =>
    rcases source with rfl | rfl <;> exact .blank blank (fun _ behind => behind) rfl
  | bracketBehind due _ bracket =>
    exact .bracket bracket (.of_symbol rfl (.inr bracket)) (Place.incomplete_of_due due).symm
  | ownSign source sign =>
    rcases source with rfl | rfl <;> exact .sign rfl sign rfl

theorem Move.last (move : Move place c next) : next.Last c := by
  cases move with
  | nest => rfl
  | leadBlank _ blank | blankAfter _ _ blank => exact blank
  | blankBehind _ blank => exact .inl blank
  | bracketAfter _ bracket => exact bracket
  | bracketBehind _ _ bracket => exact .inr bracket
  | first _ has | growFirst has | later _ has | growLater has => exact has
  | leadSign sign | signAfter _ sign | sign sign | ownSign _ sign => exact sign
  | tightAfter _ tight => exact tight

end

theorem Scan.behind {text : List Char} {place : Place} (scan : Scan text place) :
    place.Behind (compact text).getLast? := by
  induction scan with
  | start => simp [Place.Behind, compact]
  | @next text place next c _ move ih =>
    cases move.effect with
    | blank blank carries _ =>
      rw [compact_blank blank]
      exact carries _ ih
    | bracket bracket behind _ =>
      rw [compact_solid bracket.solid, List.getLast?_concat]
      exact behind
    | begun _ has target =>
      rw [compact_solid has.isOperand.solid, List.getLast?_concat]
      rcases target with rfl | rfl <;> exact ⟨c, rfl, has⟩
    | grown source has =>
      rw [compact_solid has.isOperand.solid, List.getLast?_concat]
      rcases source with rfl | rfl <;> exact ⟨c, rfl, has⟩
    | operator _ operator due =>
      rw [compact_solid operator.solid, List.getLast?_concat]
      exact .of_symbol (Place.incomplete_of_due due) (.inl operator)
    | sign _ sign incomplete =>
      rw [compact_solid sign.operator.solid, List.getLast?_concat]
      exact .of_symbol incomplete (.inl sign.operator)

theorem Scan.last {text : List Char} {place : Place} (scan : Scan text place) :
    ∀ c ∈ text.getLast?, place.Last c := by
  cases scan with
  | start => simp
  | next _ move =>
    rw [List.getLast?_concat]
    rintro c ⟨⟩
    exact move.last

/-- The last word is an operand of the run. -/
def EndsIn (run : Run) (words : List (List Char)) : Prop :=
  ∃ front word, words = front ++ [word] ∧ word ≠ [] ∧ ∀ c ∈ word, run.Has c

/-- Inside an operand it is the last word. -/
def Place.Written (words : List (List Char)) : Place → Prop
  | .first run | .later run => EndsIn run words
  | _ => True

theorem Place.Last.written {place : Place} {c : Char} (last : place.Last c) (other : ¬IsOperand c)
    (words : List (List Char)) : place.Written words := by
  cases place with
  | first run | later run => exact absurd (Run.Has.isOperand last) other
  | _ => trivial

end Reckoner.Infix
