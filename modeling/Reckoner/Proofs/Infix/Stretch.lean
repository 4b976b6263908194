import Reckoner.Proofs.Infix.Scan

/-! Where whole stretches of a text lead: operands, the operators between them with their
blanks, and runs of parentheses. Each stretch of the form has one lemma, for all the
places where such a stretch may begin. -/
namespace Reckoner.Infix
open Grammar Text

theorem operand_run {word : List Char} (operand : Operand word) :
    ∃ run : Run, ∀ c ∈ word, run.Has c := by
  obtain ⟨_, digits | letters⟩ := operand
  · exact ⟨.digits, digits⟩
  · exact ⟨.letters, letters⟩

namespace Place

/-- The form admits a parenthesis here, before which a later operand stands. -/
def Enclosable (place : Place) : Prop :=
  (∃ run, place = .later run) ∨ place = .closed

theorem Enclosable.ends {place : Place} (enclosable : place.Enclosable) : place.ends = true := by
  obtain ⟨run, rfl⟩ | rfl := enclosable <;> rfl

theorem foldlM_trans {front rest : List Char} {place middle last : Place}
    (reached : front.foldlM Place.step place = some middle)
    (continued : rest.foldlM Place.step middle = some last) :
    (front ++ rest).foldlM Place.step place = some last := by
  rw [List.foldlM_append, reached]
  exact continued

theorem foldlM_single {mark : Mark} {c : Char} (has : mark.Has c) (place : Place) :
    [c].foldlM Place.step place = place.next mark := by
  rw [List.foldlM_cons, step_of_has has]
  cases place.next mark <;> rfl

theorem foldlM_run {run : Run} {text : List Char} (has : ∀ c ∈ text, run.Has c) :
    text.foldlM Place.step (.first run) = some (.first run) ∧
      text.foldlM Place.step (.later run) = some (.later run) := by
  induction text with
  | nil => exact ⟨rfl, rfl⟩
  | cons c rest ih =>
    have stay := ih fun d member => has d (List.mem_cons_of_mem c member)
    rw [List.foldlM_cons, List.foldlM_cons]
    cases run with
    | digits =>
      have digit : Mark.digit.Has c := has c List.mem_cons_self
      rw [Place.step_of_has digit, Place.step_of_has digit]
      exact stay
    | letters =>
      have letter : Mark.letter.Has c := has c List.mem_cons_self
      rw [Place.step_of_has letter, Place.step_of_has letter]
      exact stay

theorem next_run {run : Run} {c : Char} (has : run.Has c) {place : Place} :
    (place.leading = true → place.step c = some (.first run)) ∧
      (place.due = true → place.step c = some (.later run)) := by
  cases run with
  | digits =>
    rw [Place.step_of_has (show Mark.digit.Has c from has)]
    constructor <;> intro h <;> cases place <;> cases h <;> rfl
  | letters =>
    rw [Place.step_of_has (show Mark.letter.Has c from has)]
    constructor <;> intro h <;> cases place <;> cases h <;> rfl

theorem foldlM_word {run : Run} {word : List Char} (nonempty : word ≠ [])
    (has : ∀ c ∈ word, run.Has c) (place : Place) :
    (place.leading = true → word.foldlM Place.step place = some (.first run)) ∧
      (place.due = true → word.foldlM Place.step place = some (.later run)) := by
  obtain ⟨c, rest, rfl⟩ := List.exists_cons_of_ne_nil nonempty
  obtain ⟨has, all⟩ := List.forall_mem_cons.mp has
  obtain ⟨first, later⟩ := foldlM_run all
  constructor
  · intro leading
    rw [List.foldlM_cons, (next_run has).1 leading]
    exact first
  · intro due
    rw [List.foldlM_cons, (next_run has).2 due]
    exact later

/-- An operand leads to the same place from all places where a first one may begin, and
from all where a later one may. -/
theorem foldlM_operand {word : List Char} (operand : Operand word) :
    ∃ run : Run, ∀ place : Place,
      (place.leading = true → word.foldlM Place.step place = some (.first run)) ∧
      (place.due = true → word.foldlM Place.step place = some (.later run)) := by
  obtain ⟨run, has⟩ := operand_run operand
  exact ⟨run, foldlM_word operand.1 has⟩

theorem next_of_ends {place : Place} (ends : place.ends = true) :
    place.next .blank = some .spaced := by
  cases place with
  | first run | later run => cases run <;> rfl
  | closed => rfl
  | _ => contradiction

theorem next_of_complete {place : Place} (complete : place.complete = true) :
    place.next .sign = some .signs ∧ place.next .tight = some .tight := by
  cases place with
  | first run | later run => cases run <;> exact ⟨rfl, rfl⟩
  | closed | spaced => exact ⟨rfl, rfl⟩
  | _ => contradiction

theorem foldlM_openings {text : List Char} (openings : AllAre (· = '(') text) :
    text.foldlM Place.step .head = some .head := by
  induction text with
  | nil => rfl
  | cons c rest ih =>
    obtain ⟨rfl, others⟩ := List.forall_mem_cons.mp openings
    rw [List.foldlM_cons, Place.step_of_has (show Mark.opening.Has '(' from rfl)]
    exact ih others

theorem foldlM_leadSign {sign : List Char} (isSign : AtMostOne IsSign sign) :
    ∃ last, sign.foldlM Place.step .head = some last ∧ (last = .head ∨ last = .headSigned) := by
  obtain rfl | ⟨c, isSign, rfl⟩ := isSign
  · exact ⟨.head, rfl, .inl rfl⟩
  · exact ⟨.headSigned, foldlM_single (show Mark.sign.Has c from isSign) .head, .inr rfl⟩

theorem foldlM_leadBlank {place : Place} (source : place = .head ∨ place = .headSigned)
    {blank : List Char} (isBlank : AtMostOne IsBlank blank) :
    ∃ last, blank.foldlM Place.step place = some last ∧ last.leading = true := by
  obtain rfl | ⟨c, isBlank, rfl⟩ := isBlank
  · refine ⟨place, rfl, ?_⟩
    obtain rfl | rfl := source <;> rfl
  · refine ⟨.headSpaced, ?_, rfl⟩
    rw [foldlM_single (show Mark.blank.Has c from isBlank)]
    obtain rfl | rfl := source <;> rfl

theorem foldlM_before {place : Place} (ends : place.ends = true) {gap : List Char}
    (isGap : AtMostOne IsBlank gap) :
    ∃ last, gap.foldlM Place.step place = some last ∧ last.complete = true := by
  obtain rfl | ⟨c, blank, rfl⟩ := isGap
  · exact ⟨place, rfl, complete_of_ends ends⟩
  · refine ⟨.spaced, ?_, rfl⟩
    rw [foldlM_single (show Mark.blank.Has c from blank), next_of_ends ends]

theorem foldlM_signs {text : List Char} (signs : AllAre IsSign text) :
    text.foldlM Place.step .signs = some .signs := by
  induction text with
  | nil => rfl
  | cons c rest ih =>
    obtain ⟨sign, signs⟩ := List.forall_mem_cons.mp signs
    rw [List.foldlM_cons, Place.step_of_has (show Mark.sign.Has c from sign)]
    exact ih signs

theorem foldlM_link {place : Place} (complete : place.complete = true) {link : List Char}
    (isLink : Link link) :
    ∃ last, link.foldlM Place.step place = some last ∧ (last = .signs ∨ last = .tight) := by
  obtain ⟨nonempty, signs⟩ | ⟨c, tight, rfl⟩ := isLink
  · obtain ⟨c, rest, rfl⟩ := List.exists_cons_of_ne_nil nonempty
    obtain ⟨sign, signs⟩ := List.forall_mem_cons.mp signs
    refine ⟨.signs, ?_, .inl rfl⟩
    rw [List.foldlM_cons, Place.step_of_has (show Mark.sign.Has c from sign),
      (next_of_complete complete).1]
    exact foldlM_signs signs
  · refine ⟨.tight, ?_, .inr rfl⟩
    rw [foldlM_single (show Mark.tight.Has c from tight), (next_of_complete complete).2]

/-- A later operand may still have parentheses and a sign of its own here. -/
def Open (place : Place) : Prop :=
  place = .signs ∨ place = .tight ∨ place = .opened

theorem Open.due {place : Place} (isOpen : place.Open) : place.due = true := by
  obtain rfl | rfl | rfl := isOpen <;> rfl

theorem foldlM_behind {place : Place} (linked : place = .signs ∨ place = .tight)
    {gap : List Char} (isGap : AtMostOne IsBlank gap) :
    ∃ last, gap.foldlM Place.step place = some last ∧ last.Open := by
  obtain rfl | ⟨c, blank, rfl⟩ := isGap
  · refine ⟨place, rfl, ?_⟩
    exact linked.imp_right .inl
  · refine ⟨.opened, ?_, .inr (.inr rfl)⟩
    rw [foldlM_single (show Mark.blank.Has c from blank)]
    obtain rfl | rfl := linked <;> rfl

theorem foldlM_parentheses {place : Place} (isOpen : place.Open) {text : List Char}
    (parentheses : AllAre IsParenthesis text) :
    ∃ last, text.foldlM Place.step place = some last ∧ last.Open := by
  induction text generalizing place with
  | nil => exact ⟨place, rfl, isOpen⟩
  | cons c rest ih =>
    obtain ⟨parenthesis, parentheses⟩ := List.forall_mem_cons.mp parentheses
    have opened : place.step c = some .opened := by
      obtain rfl | rfl := parenthesis
      · rw [Place.step_of_has (show Mark.opening.Has '(' from rfl)]
        obtain rfl | rfl | rfl := isOpen <;> rfl
      · rw [Place.step_of_has (show Mark.closing.Has ')' from rfl)]
        obtain rfl | rfl | rfl := isOpen <;> rfl
    rw [List.foldlM_cons, opened]
    exact ih (.inr (.inr rfl)) parentheses

theorem foldlM_sign {place : Place} (isOpen : place.Open) {sign : List Char}
    (isSign : AtMostOne IsSign sign) :
    ∃ last, sign.foldlM Place.step place = some last ∧ last.due = true := by
  obtain rfl | ⟨c, isSign, rfl⟩ := isSign
  · exact ⟨place, rfl, isOpen.due⟩
  · rw [foldlM_single (show Mark.sign.Has c from isSign)]
    obtain rfl | rfl | rfl := isOpen <;> exact ⟨_, rfl, rfl⟩

theorem step_parenthesis {place : Place} (enclosable : place.Enclosable) {c : Char}
    (parenthesis : IsParenthesis c) : place.step c = some .closed := by
  obtain rfl | rfl := parenthesis
  · rw [Place.step_of_has (show Mark.opening.Has '(' from rfl)]
    obtain ⟨run, rfl⟩ | rfl := enclosable
    · cases run <;> rfl
    · rfl
  · rw [Place.step_of_has (show Mark.closing.Has ')' from rfl)]
    obtain ⟨run, rfl⟩ | rfl := enclosable
    · cases run <;> rfl
    · rfl

theorem foldlM_closing {place : Place} (enclosable : place.Enclosable) {text : List Char}
    (parentheses : AllAre IsParenthesis text) :
    ∃ last, text.foldlM Place.step place = some last ∧ last.Enclosable := by
  induction text generalizing place with
  | nil => exact ⟨place, rfl, enclosable⟩
  | cons c rest ih =>
    obtain ⟨parenthesis, parentheses⟩ := List.forall_mem_cons.mp parentheses
    rw [List.foldlM_cons, step_parenthesis enclosable parenthesis]
    exact ih (.inr rfl) parentheses

end Place
end Reckoner.Infix
