import Reckoner.Proofs.Postfix.Sheet

/-! What a symbol does to a sheet, case by case. Some of the operators on top become
words; whatever is counted of the operators that wait is found again among those. -/
namespace Reckoner.Postfix

/-- The operators that a symbol releases, and what waits after it. -/
inductive Turn (sheet : Sheet) : Symbol → List Operator → List Waiting → Prop
  | opened : Turn sheet .opening [] (.parenthesis :: sheet.waiting)
  | closed {released : List Operator} {rest : List Waiting} :
      sheet.waiting = released.map .operator ++ .parenthesis :: rest →
      Turn sheet .closing released rest
  | unmatched {released : List Operator} : sheet.waiting = released.map .operator →
      Turn sheet .closing released []
  | repeated {op : Operator} {waiting : List Waiting} : sheet.repeats op = true →
      waiting = sheet.waiting ∨ waiting = sheet.waiting.modifyHead Waiting.flip →
      Turn sheet (.operator op) [] waiting
  | pushed {op : Operator} {released : List Operator} {rest : List Waiting} :
      sheet.repeats op = false → sheet.waiting = released.map .operator ++ rest →
      Turn sheet (.operator op) released (.operator op :: rest)

theorem Sheet.last_of_repeats {sheet : Sheet} {op : Operator} (again : sheet.repeats op = true) :
    sheet.last? = some op.char := by
  rw [repeats, Bool.and_eq_true] at again
  exact of_decide_eq_true again.2

theorem Sheet.release_operators (words : List (List Char)) (released : List Operator) :
    release words (released.map .operator) = words ++ released.map fun op => [op.char] := by
  rw [release, List.map_map]
  rfl

theorem Sheet.turn (sheet : Sheet) (s : Symbol) : ∃ released waiting,
    Turn sheet s released waiting ∧
      sheet.symbol s = ⟨sheet.words ++ released.map fun op => [op.char], waiting, sheet.last?⟩ := by
  cases s with
  | opening => exact ⟨[], _, .opened, by simp [symbol]⟩
  | closing =>
    obtain ⟨released, taken⟩ := Waiting.takeWhile_operators (p := Waiting.isOperator) rfl sheet.waiting
    have whole := sheet.waiting.takeWhile_append_dropWhile (p := Waiting.isOperator)
    have stop := List.head?_dropWhile_not Waiting.isOperator sheet.waiting
    rw [taken] at whole
    refine ⟨released, (sheet.waiting.dropWhile Waiting.isOperator).tail, ?_, ?_⟩
    · cases below : sheet.waiting.dropWhile Waiting.isOperator with
      | nil =>
        rw [below, List.append_nil] at whole
        exact .unmatched whole.symm
      | cons item rest =>
        rw [below] at whole stop
        cases item with
        | parenthesis => exact .closed whole.symm
        | operator op => simp [Waiting.isOperator] at stop
    · rw [symbol, taken, release_operators]
  | operator op =>
    cases again : sheet.repeats op with
    | true =>
      rw [symbol, if_pos again]
      split
      · exact ⟨[], _, .repeated again (.inr rfl), by simp⟩
      · exact ⟨[], _, .repeated again (.inl rfl), by simp⟩
    | false =>
      obtain ⟨released, taken⟩ :=
        Waiting.takeWhile_operators (p := Waiting.binds op.precedence) rfl sheet.waiting
      have whole := sheet.waiting.takeWhile_append_dropWhile (p := Waiting.binds op.precedence)
      rw [taken] at whole
      refine ⟨released, _, .pushed again whole.symm, ?_⟩
      rw [symbol, if_neg (by simp [again]), taken, release_operators]

/-- Whether the symbol is a further operator of the kind that is counted. -/
def Sheet.begins (sheet : Sheet) (counted : Waiting → Bool) : Symbol → Bool
  | .operator op => !sheet.repeats op && counted (.operator op)
  | _ => false

namespace Turn

variable {sheet : Sheet} {s : Symbol} {released : List Operator} {waiting : List Waiting}

/-- Only a repeated sign turns one around that waits. -/
theorem countP (turn : Turn sheet s released waiting) (counted : Waiting → Bool)
    (bracket : counted .parenthesis = false) (flips : ∀ op, s = .operator op →
      sheet.repeats op = true → ∀ item, counted item.flip = counted item) :
    waiting.countP counted + (released.map .operator).countP counted =
      sheet.waiting.countP counted + (sheet.begins counted s).toNat := by
  cases turn with
  | opened => simp [bracket, Sheet.begins]
  | closed split =>
    rw [split, List.countP_append, List.countP_cons, bracket]
    exact Nat.add_comm ..
  | unmatched split =>
    rw [split]
    exact Nat.add_comm ..
  | repeated again same =>
    have unchanged : waiting.countP counted = sheet.waiting.countP counted := by
      rcases same with rfl | rfl
      · rfl
      · have flips := flips _ rfl again
        cases sheet.waiting with
        | nil => rfl
        | cons item rest => simp [List.countP_cons, flips]
    simp [unchanged, Sheet.begins, again]
  | @pushed op _ _ fresh split =>
    rw [split, List.countP_cons, List.countP_append, Sheet.begins, fresh]
    cases counted (.operator op) with
    | true =>
      simp
      omega
    | false =>
      simp
      omega

end Turn
end Reckoner.Postfix
