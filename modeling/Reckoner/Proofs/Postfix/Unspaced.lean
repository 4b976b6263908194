import Reckoner.Proofs.Postfix.Sheet

/-! Reading passes over the space, so a text and the same text without its spaces are
converted alike. Other blanks are characters of operands and do not share in this. -/
namespace Reckoner.Text

/-- The text without its spaces. -/
def unspaced (text : List Char) : List Char :=
  text.filter (· ≠ ' ')

variable {c : Char}

theorem unspaced_append (front rest : List Char) :
    unspaced (front ++ rest) = unspaced front ++ unspaced rest :=
  List.filter_append ..

theorem unspaced_cons (solid : c ≠ ' ') (rest : List Char) :
    unspaced (c :: rest) = c :: unspaced rest :=
  List.filter_cons_of_pos (decide_eq_true solid)

theorem unspaced_concat (solid : c ≠ ' ') (text : List Char) :
    unspaced (text ++ [c]) = unspaced text ++ [c] := by
  simp only [unspaced_append, unspaced_cons solid]
  simp [unspaced]

theorem unspaced_concat_space (text : List Char) : unspaced (text ++ [' ']) = unspaced text := by
  simp [unspaced]

theorem unspaced_solid (text : List Char) : ∀ c ∈ unspaced text, c ≠ ' ' :=
  fun _ member => of_decide_eq_true (List.mem_filter.mp member).2

theorem unspaced_unspaced (text : List Char) : unspaced (unspaced text) = unspaced text :=
  List.filter_eq_self.mpr fun c member => decide_eq_true (unspaced_solid text c member)

end Reckoner.Text

namespace Reckoner.Postfix
open Text

/-- The yard before the first character: a zero is written already where a sign leads. -/
def Yard.initial (signed : Bool) : Yard :=
  if signed then { written := [' ', '0'], last? := some '0' } else {}

theorem foldl_withLeadingZero (text : List Char) :
    (withLeadingZero text).foldl Yard.step {} =
      text.foldl Yard.step (Yard.initial (hasLeadingSign text)) := by
  unfold withLeadingZero Yard.initial
  split <;> rfl

theorem Yard.foldl_unspaced (text : List Char) (yard : Yard) :
    (unspaced text).foldl step yard = text.foldl step yard := by
  induction text generalizing yard with
  | nil => rfl
  | cons c rest ih =>
    by_cases space : c = ' '
    · subst space
      exact ih yard
    · simp only [unspaced_cons space, List.foldl_cons]
      exact ih (yard.step c)

theorem hasLeadingSign_unspaced (text : List Char) :
    hasLeadingSign (unspaced text) = hasLeadingSign text := by
  have solid (c : Char) : decide (decide (c ≠ ' ') = true ∧ (!isBlank c) = true) = !isBlank c := by
    cases blank : isBlank c with
    | true => simp
    | false => simpa using ne_space blank
  simp only [hasLeadingSign_eq, unspaced, List.find?_filter, solid]

theorem ofInfix_unspaced (text : List Char) : ofInfix (unspaced text) = ofInfix text := by
  simp only [ofInfix, foldl_withLeadingZero, Yard.foldl_unspaced, hasLeadingSign_unspaced]

theorem ofInfix_unspaced_middle (front middle behind : List Char) :
    ofInfix (front ++ unspaced middle ++ behind) = ofInfix (front ++ middle ++ behind) :=
  calc ofInfix (front ++ unspaced middle ++ behind)
    _ = ofInfix (unspaced (front ++ unspaced middle ++ behind)) := (ofInfix_unspaced _).symm
    _ = ofInfix (unspaced (front ++ middle ++ behind)) := by
      simp only [unspaced_append, unspaced_unspaced]
    _ = ofInfix (front ++ middle ++ behind) := ofInfix_unspaced _

end Reckoner.Postfix
