import Reckoner.Infix.Form
import Reckoner.Proofs.Infix.Scan
import Reckoner.Proofs.Postfix.Unspaced

/-! Spaces are of no account. A text is converted alike without them, and if it has the
accepted form it keeps the form: no space has to be anywhere, and where two runs of signs close
up they are one run. -/
namespace Reckoner.Infix
open Text Postfix

/-- Where a text leads with its spaces, and where without them. They differ behind a space that
is left out, and behind the own sign of an operand, which then ends the run before the space. -/
inductive Drawn : Place → Place → Prop
  | same {place : Place} : Drawn place place
  | lead {bare : Place} : bare = .head ∨ bare = .headSigned → Drawn .headSpaced bare
  | after {bare : Place} : bare.complete = true → Drawn .spaced bare
  | behind {bare : Place} : bare = .signs ∨ bare = .tight → Drawn .opened bare
  | signed : Drawn .signed .signs

namespace Drawn

variable {place bare following last : Place}

theorem space (drawn : Drawn place bare) (led : place.next .blank = some following) :
    Drawn following bare := by
  cases drawn with
  | same =>
    cases place <;> (try cases ‹Run›) <;> cases led
    all_goals first
      | exact .lead (.inl rfl)
      | exact .lead (.inr rfl)
      | exact .after rfl
      | exact .behind (.inl rfl)
      | exact .behind (.inr rfl)
  | _ => cases led

/-- A hard blank stands where no space was left out, so it leads on like any other character. -/
theorem next {mark : Mark} (drawn : Drawn place bare) (led : place.next mark = some following) :
    ∃ after, bare.next mark = some after ∧ Drawn following after := by
  cases drawn with
  | same => exact ⟨following, led, .same⟩
  | lead source =>
    obtain rfl | rfl := source <;> cases mark <;> cases led <;> exact ⟨_, rfl, .same⟩
  | after complete =>
    cases bare with
    | first run | later run => cases run <;> cases mark <;> cases led <;> exact ⟨_, rfl, .same⟩
    | closed | spaced => cases mark <;> cases led <;> exact ⟨_, rfl, .same⟩
    | _ => simp at complete
  | behind source =>
    obtain rfl | rfl := source <;> cases mark <;> cases led
    all_goals first
      | exact ⟨_, rfl, .same⟩
      | exact ⟨_, rfl, .signed⟩
  | signed => cases mark <;> cases led <;> exact ⟨_, rfl, .same⟩

theorem foldlM {text : List Char} (drawn : Drawn place bare)
    (led : text.foldlM Place.step place = some last) :
    ∃ after, (unspaced text).foldlM Place.step bare = some after ∧ Drawn last after := by
  induction text generalizing place bare with
  | nil =>
    cases led
    exact ⟨bare, rfl, drawn⟩
  | cons c rest ih =>
    simp only [List.foldlM_cons, Option.bind_eq_bind, Option.bind_eq_some_iff] at led
    obtain ⟨middle, stepped, led⟩ := led
    obtain ⟨mark, read, moved⟩ := Option.bind_eq_some_iff.mp stepped
    -- a space leads on the first place alone, any other character both
    by_cases space : c = ' '
    · subst space
      cases read
      exact ih (drawn.space moved) led
    · obtain ⟨after, moved, drawn⟩ := drawn.next moved
      obtain ⟨final, reached, drawn⟩ := ih drawn led
      have stepped : bare.step c = some after := Option.bind_eq_some_iff.mpr ⟨mark, read, moved⟩
      refine ⟨final, ?_, drawn⟩
      simp only [unspaced_cons space, List.foldlM_cons, stepped]
      exact reached

theorem ends (drawn : Drawn place bare) (ends : place.ends = true) : bare.ends = true := by
  cases drawn with
  | same => exact ends
  | _ => cases ends

end Drawn

theorem accepts_unspaced {text : List Char} (accepted : accepts text = true) :
    accepts (unspaced text) = true := by
  obtain ⟨balanced, place, led, ends⟩ := accepts_iff.mp accepted
  obtain ⟨after, led, drawn⟩ := Drawn.same.foldlM led
  have count {c : Char} (solid : c ≠ ' ') : (unspaced text).count c = text.count c :=
    List.count_filter (decide_eq_true solid)
  refine accepts_iff.mpr ⟨?_, after, led, drawn.ends ends⟩
  simpa only [count (show '(' ≠ ' ' by decide), count (show ')' ≠ ' ' by decide)] using balanced

/-- Any text is converted as it is without its spaces. An accepted one is accepted without them
too and has the same value, or the same fault, under every table. -/
theorem value_unspaced (text : List Char) :
    ofInfix (unspaced text) = ofInfix text ∧
      (accepts text = true → accepts (unspaced text) = true ∧
        ∀ table, value table (unspaced text) = value table text) := by
  have converted := ofInfix_unspaced text
  refine ⟨converted, fun accepted => ?_⟩
  have bare := accepts_unspaced accepted
  refine ⟨bare, fun table => ?_⟩
  simp only [value, if_pos accepted, if_pos bare, converted]

/-- The minus of an operator and that of its operand close up to one run. -/
theorem value_unspaced_signs :
    accepts ['1', ' ', '-', ' ', '-', '2'] = true ∧ accepts ['1', '-', '-', '2'] = true ∧
      value ∅ ['1', '-', '-', '2'] = .ok 3 ∧ value ∅ ['1', ' ', '-', ' ', '-', '2'] = .ok 3 := by
  have accepted : accepts ['1', ' ', '-', ' ', '-', '2'] = true := rfl
  obtain ⟨bare, same⟩ := (value_unspaced ['1', ' ', '-', ' ', '-', '2']).2 accepted
  have number : value ∅ ['1', '-', '-', '2'] = .ok 3 := rfl
  exact ⟨accepted, bare, number, (same ∅).symm.trans number⟩

end Reckoner.Infix
