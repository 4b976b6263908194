import Reckoner.Infix.Grammar
import Reckoner.Proofs.Postfix.Unspaced

/-! A run of one sign is read like a single sign, wherever it stands. The first sign of
the run is pushed, every further one works on the operator that waits on top, which is
the one just pushed. Adding and subtracting bind alike, so they release the same; and
which sign was read last is seen only by a sign that comes next. -/
namespace Reckoner.Postfix
open Infix.Grammar Text

/-- The operator that stands for so many minus signs in a row. -/
def ofMinuses (count : Nat) : Operator :=
  if count % 2 = 1 then .sub else .add

theorem ofMinuses_char (count : Nat) :
    (ofMinuses count).char = if count % 2 = 1 then '-' else '+' :=
  apply_ite Operator.char ..

theorem ofMinuses_sign (count : Nat) : IsSign (ofMinuses count).char := by
  unfold ofMinuses
  split
  · exact .inr rfl
  · exact .inl rfl

namespace Yard

/-- The character before was no sign, so a sign that comes next begins a run. -/
def Fresh (yard : Yard) : Prop :=
  ∀ c ∈ yard.last?, ¬IsSign c

theorem step_solid {c : Char} (solid : c ≠ ' ') (yard : Yard) : (yard.step c).last? = some c := by
  simp only [step, if_neg solid]

theorem last_foldl {text : List Char} (solid : ∀ c ∈ text, c ≠ ' ') (yard : Yard) :
    (text.foldl step yard).last? = text.getLast?.or yard.last? := by
  induction text generalizing yard with
  | nil => rfl
  | cons c rest ih =>
    obtain ⟨first, others⟩ := List.forall_mem_cons.mp solid
    refine (ih others (yard.step c)).trans ?_
    simp only [step_solid first, List.getLast?_cons]
    cases rest.getLast? <;> rfl

theorem fresh_initial (signed : Bool) : (initial signed).Fresh := by
  cases signed with
  | true => simp [Fresh, initial, IsSign]
  | false => simp [Fresh, initial]

/-- What the next sign finds depends on the text before it, spaces aside. -/
theorem fresh_foldl {front : List Char} (before : ∀ c ∈ (unspaced front).getLast?, ¬IsSign c)
    {yard : Yard} (fresh : yard.Fresh) : (front.foldl step yard).Fresh := by
  intro c last
  rw [← foldl_unspaced, last_foldl (unspaced_solid front)] at last
  cases ends : (unspaced front).getLast? with
  | none => exact fresh c (by simpa [ends] using last)
  | some d => exact before c (by simpa [ends] using last)

theorem step_sign {yard : Yard} (fresh : yard.Fresh) {op : Operator} (sign : IsSign op.char) :
    yard.step op.char = { yard.push op with last? := some op.char } := by
  have begins : yard.repeats op = false := by
    have other : yard.last? ≠ some op.char := fun last => fresh _ last sign
    simp [repeats, other]
  have stepped := step_symbol (.operator op) yard
  simpa only [symbol, begins, Bool.false_eq_true, if_false, Symbol.char] using stepped

/-- Every further minus turns the waiting operator around. -/
theorem foldl_minuses {yard : Yard} (fresh : yard.Fresh) (more : Nat) :
    (List.replicate (more + 1) '-').foldl step yard =
      { yard.push (ofMinuses (more + 1)) with last? := some '-' } := by
  induction more with
  | zero => exact @step_sign yard fresh .sub (.inr rfl)
  | succ more ih =>
    rw [List.replicate_succ', List.foldl_append, ih]
    obtain even | odd := Nat.mod_two_eq_zero_or_one (more + 1)
    · have now : ofMinuses (more + 1) = .add := if_neg (by omega)
      have next : ofMinuses (more + 1 + 1) = .sub := if_pos (by omega)
      simp only [now, next]
      rfl
    · have now : ofMinuses (more + 1) = .sub := if_pos odd
      have next : ofMinuses (more + 1 + 1) = .add := if_neg (by omega)
      simp only [now, next]
      rfl

/-- Every further plus leaves all as it is. -/
theorem foldl_pluses {yard : Yard} (fresh : yard.Fresh) (more : Nat) :
    (List.replicate (more + 1) '+').foldl step yard =
      { yard.push .add with last? := some '+' } := by
  induction more with
  | zero => exact @step_sign yard fresh .add (.inl rfl)
  | succ more ih =>
    rw [List.replicate_succ', List.foldl_append, ih]
    rfl

/-- Only the same sign sees which sign was read last: an operand begins a word behind
either, and other operators are pushed behind either. -/
theorem step_behind_sign {c sign other : Char} (isSign : IsSign sign) (isOther : IsSign other)
    (unsigned : ¬IsSign c) (solid : c ≠ ' ') (yard : Yard) :
    { yard with last? := some sign }.step c = { yard with last? := some other }.step c := by
  have outside {d : Char} (isSign : IsSign d) : (Symbol.ofChar? d).isNone = false := by
    obtain rfl | rfl := isSign <;> rfl
  rw [step, step, if_neg solid, if_neg solid]
  cases read : Symbol.ofChar? c with
  | none => simp [operand, inOperand, outside isSign, outside isOther]
  | some s =>
    cases s with
    | opening => rfl
    | closing => rfl
    | operator op =>
      have same : c = op.char := Symbol.ofChar?_eq_some.mp read
      have pushed {d : Char} (isSign : IsSign d) :
          { yard with last? := some d }.repeats op = false := by
        have different : d ≠ op.char := by
          rintro rfl
          exact unsigned (same ▸ isSign)
        simp [repeats, different]
      simp [symbol, pushed isSign, pushed isOther, push]

/-- After a text that does not begin with a sign, nothing is left of which sign came
before it. -/
theorem finish_behind_sign {sign other : Char} (isSign : IsSign sign) (isOther : IsSign other)
    {behind : List Char} (after : ∀ c ∈ (unspaced behind).head?, ¬IsSign c) (yard : Yard) :
    (behind.foldl step { yard with last? := some sign }).finish =
      (behind.foldl step { yard with last? := some other }).finish := by
  rw [← foldl_unspaced, ← foldl_unspaced behind]
  cases rest : unspaced behind with
  | nil => rfl
  | cons c rest =>
    have solid : c ≠ ' ' := unspaced_solid behind c (by simp [rest])
    have unsigned : ¬IsSign c := after c (by simp [rest])
    simp only [List.foldl_cons, step_behind_sign isSign isOther unsigned solid]

end Yard

/-- The sign leads the text unless what stands before it begins with something else. -/
theorem hasLeadingSign_at_sign {sign : Char} (isSign : IsSign sign) (front rest : List Char) :
    hasLeadingSign (front ++ sign :: rest) =
      (front.find? (!isBlank ·)).all fun c => c = '+' || c = '-' := by
  rw [hasLeadingSign_eq, List.find?_append]
  cases front.find? (!isBlank ·) with
  | some c => rfl
  | none => obtain rfl | rfl := isSign <;> rfl

/-- A text counts as the operator that it is read as from every yard where a run begins. -/
theorem ofInfix_read {front rest behind : List Char} {sign : Char} {op : Operator}
    (isSign : IsSign sign) (isOperator : IsSign op.char)
    (reads : ∀ yard : Yard, yard.Fresh →
      (sign :: rest).foldl Yard.step yard = { yard.push op with last? := some sign })
    (before : ∀ c ∈ (unspaced front).getLast?, ¬IsSign c)
    (after : ∀ c ∈ (unspaced behind).head?, ¬IsSign c) :
    ofInfix (front ++ sign :: rest ++ behind) = ofInfix (front ++ op.char :: behind) := by
  have leads : hasLeadingSign (front ++ sign :: rest ++ behind) =
      hasLeadingSign (front ++ op.char :: behind) := by
    rw [List.append_assoc, List.cons_append, hasLeadingSign_at_sign isSign,
      hasLeadingSign_at_sign isOperator]
  have fresh := Yard.fresh_foldl before
    (Yard.fresh_initial (hasLeadingSign (front ++ op.char :: behind)))
  unfold ofInfix
  rw [foldl_withLeadingZero, foldl_withLeadingZero, leads, List.foldl_append, List.foldl_append,
    reads _ fresh, List.foldl_append, List.foldl_cons, Yard.step_sign fresh isOperator,
    Yard.finish_behind_sign isSign isOperator after]

/-- Between other characters a run of minus signs, with any spaces in it, is converted like
one sign, a minus where they are odd in number and a plus where they are even; and a run of
plus signs like one plus. The text around may be anything. -/
theorem ofInfix_signRun {front run behind : List Char} {count : Nat} (occupied : 0 < count)
    (before : ∀ c ∈ (unspaced front).getLast?, ¬IsSign c)
    (after : ∀ c ∈ (unspaced behind).head?, ¬IsSign c) :
    (unspaced run = List.replicate count '-' →
      ofInfix (front ++ run ++ behind) =
        ofInfix (front ++ (if count % 2 = 1 then '-' else '+') :: behind)) ∧
    (unspaced run = List.replicate count '+' →
      ofInfix (front ++ run ++ behind) = ofInfix (front ++ '+' :: behind)) := by
  obtain ⟨more, rfl⟩ := Nat.exists_eq_add_one.mpr occupied
  rw [← ofInfix_unspaced_middle front run, ← ofMinuses_char]
  constructor
  · intro minuses
    rw [minuses]
    exact ofInfix_read (.inr rfl) (ofMinuses_sign _)
      (fun yard fresh => Yard.foldl_minuses fresh more) before after
  · intro pluses
    rw [pluses]
    exact @ofInfix_read front _ behind _ .add (.inl rfl) (.inl rfl)
      (fun yard fresh => Yard.foldl_pluses fresh more) before after

/-- A power sign before the run, and behind it a parenthesis that is never closed. -/
theorem ofInfix_signRun_power :
    ofInfix ['2', '^', ' ', '-', ' ', ' ', '-', '-', '(', ' ', '3'] =
        ['2', ' ', '^', ' ', '3', ' ', '(', ' ', '-'] ∧
      ofInfix ['2', '^', ' ', '+', '+', ' ', '+', '(', ' ', '3'] =
        ['2', ' ', '^', ' ', '3', ' ', '(', ' ', '+'] := by
  have before : ∀ c ∈ (unspaced ['2', '^', ' ']).getLast?, ¬IsSign c := by
    simp [unspaced, IsSign]
  have after : ∀ c ∈ (unspaced ['(', ' ', '3']).head?, ¬IsSign c := by
    simp [unspaced, IsSign]
  have minuses := (@ofInfix_signRun _ ['-', ' ', ' ', '-', '-'] _ 3 (by decide) before after).1 rfl
  have pluses := (@ofInfix_signRun _ ['+', '+', ' ', '+'] _ 3 (by decide) before after).2 rfl
  exact ⟨minuses.trans rfl, pluses.trans rfl⟩

end Reckoner.Postfix
