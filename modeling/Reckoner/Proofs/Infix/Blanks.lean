import Reckoner.Proofs.Infix.Effect
import Reckoner.Proofs.Postfix.Turn
import Mathlib.Data.List.Induction

/-! The accepted form takes every blank for the same, and the conversion passes over
the space only. Another blank is remembered as the last character: behind an operator
it lets an operand join the word before, and a sign no longer repeats the one before.
Told here is which blanks do such harm and where in an accepted text they can stand. -/
namespace Reckoner.Postfix.Sheet
open Infix Infix.Grammar

theorem step_blank {c : Char} (blank : IsBlank c) (sheet : Sheet) :
    (sheet.step c).words = sheet.words ∧ (sheet.step c).waiting = sheet.waiting := by
  by_cases space : c = ' '
  · rw [space, step_space]
    exact ⟨rfl, rfl⟩
  · rw [step_operand blank.no_symbol space, operand, if_pos blank.not_solid]
    exact ⟨rfl, rfl⟩

theorem last_compact (text : List Char) : (read (compact text)).last? = (compact text).getLast? := by
  induction text using List.reverseRecOn with
  | nil => rfl
  | append_singleton text c ih =>
    by_cases blank : IsBlank c
    · rw [compact_blank blank, ih]
    · have solid : c ≠ ' ' := by
        rintro rfl
        exact blank rfl
      rw [compact_other blank, read_concat, step_last solid, List.getLast?_concat]

theorem inOperand_congr {sheet bare : Sheet} (last : sheet.last? = bare.last?) :
    sheet.inOperand = bare.inOperand := by
  rw [inOperand, last, inOperand]

theorem repeats_congr {sheet bare : Sheet} (last : sheet.last? = bare.last?) (op : Operator) :
    sheet.repeats op = bare.repeats op := by
  rw [repeats, last, repeats]

section

variable {sheet : Sheet} {c : Char} {op : Operator}

theorem exists_symbol (symbol : IsOperator c ∨ IsParenthesis c) :
    ∃ s : Symbol, c = s.char := by
  obtain operator | rfl | rfl := symbol
  · obtain ⟨op, rfl⟩ := operator.exists_char
    exact ⟨.operator op, rfl⟩
  · exact ⟨.opening, rfl⟩
  · exact ⟨.closing, rfl⟩

theorem outside_of_symbol (symbol : ∀ c ∈ sheet.last?, IsOperator c ∨ IsParenthesis c) :
    sheet.inOperand = false := by
  rw [inOperand]
  cases last : sheet.last? with
  | none => rfl
  | some c =>
    obtain ⟨s, rfl⟩ := exists_symbol (symbol c last)
    simp

theorem inside_of_other (last : sheet.last? = some c) (other : Symbol.ofChar? c = none) :
    sheet.inOperand = true := by
  simp [inOperand, last, other]

theorem repeats_iff : sheet.repeats op = true ↔ IsSign op.char ∧ sheet.last? = some op.char := by
  cases op <;> simp [repeats, IsSign, Operator.char] <;> exact decide_eq_true_iff

theorem not_repeats (other : sheet.last? ≠ some op.char) : sheet.repeats op = false := by
  rw [Bool.eq_false_iff]
  intro again
  exact other (last_of_repeats again)

end

end Reckoner.Postfix.Sheet

namespace Reckoner.Infix
open Grammar Text Postfix

/-- The text with a space for each of its blanks. -/
def soften (text : List Char) : List Char :=
  text.map fun c => if isNarrowBlank c then ' ' else c

def IsHard (c : Char) : Prop := IsBlank c ∧ c ≠ ' '

theorem IsHard.fresh {t : Char} (hard : IsHard t) {sheet : Sheet} {op : Operator}
    (last : sheet.last? = some t) : sheet.repeats op = false := by
  apply Sheet.not_repeats
  intro same
  rw [last, Option.some.injEq] at same
  subst t
  exact hard.1.not_operator (IsOperator.char op)

/-- A hard blank between the two characters changes what the second one does: it would
repeat the first, or begin an operand that is not the first of the text. -/
def Splits (before : List Char) (c d : Char) : Prop :=
  (IsSign c ∧ d = c) ∨ (IsOperator c ∧ IsOperand d ∧ ∃ x ∈ before, IsOperand x)

def Harmless (text : List Char) : Prop :=
  ∀ before c blank d behind, text = before ++ c :: blank :: d :: behind →
    IsHard blank → ¬Splits before c d

section Soften

theorem soften_concat (text : List Char) (c : Char) :
    soften (text ++ [c]) = soften text ++ [if isNarrowBlank c then ' ' else c] :=
  List.map_append

theorem ofChar?_soften (c : Char) :
    Mark.ofChar? (if isNarrowBlank c then ' ' else c) = Mark.ofChar? c := by
  split
  · next narrow =>
    have blank : Mark.blank.Has c := narrow
    rw [Mark.ofChar?_of_has blank]
    rfl
  · rfl

theorem foldlM_soften (text : List Char) (place : Place) :
    (soften text).foldlM Place.step place = text.foldlM Place.step place := by
  induction text generalizing place with
  | nil => rfl
  | cons c rest ih =>
    rw [soften, List.map_cons, List.foldlM_cons, List.foldlM_cons, Place.step, Place.step,
      ofChar?_soften]
    exact congrArg _ (funext ih)

theorem count_soften {c : Char} (solid : isBlank c = false) (text : List Char) :
    (soften text).count c = text.count c := by
  induction text with
  | nil => rfl
  | cons d rest ih =>
    rw [soften, List.map_cons, ← soften, List.count_cons, List.count_cons, ih]
    split
    · next narrow =>
      have space : ' ' ≠ c := by
        rintro rfl
        exact absurd solid (by decide)
      have other : d ≠ c := by
        rintro rfl
        simp [isBlank_of_isNarrowBlank narrow] at solid
      rw [if_neg (by simpa using space), if_neg (by simpa using other)]
    · rfl

theorem accepts_soften (text : List Char) : accepts (soften text) = accepts text := by
  rw [accepts, accepts, foldlM_soften, count_soften (by decide), count_soften (by decide)]

theorem withLeadingZero_soften {text : List Char} (accepted : accepts text = true) :
    withLeadingZero (soften text) = soften (withLeadingZero text) := by
  obtain ⟨_, place, led, _⟩ := accepts_iff.mp accepted
  have led' := led
  rw [← foldlM_soften] at led'
  have same : hasLeadingSign (soften text) = hasLeadingSign text := by
    rw [Bool.eq_iff_iff, hasLeadingSign_iff led, hasLeadingSign_iff led']
    cases text with
    | nil => rfl
    | cons c rest =>
      simp only [soften, List.map_cons, List.head?_cons, Option.mem_def, Option.some.injEq,
        exists_eq_left']
      split
      · next narrow =>
        have blank : IsBlank c := narrow
        constructor
        · intro sign
          simp [IsSign] at sign
        · intro sign
          exact absurd sign.operator blank.not_operator
      · rfl
  rw [withLeadingZero, withLeadingZero, same]
  split
  · rfl
  · rfl

/-- The conversion reads the softened text as if it had no blanks. -/
theorem read_soften (text : List Char) : Sheet.read (soften text) = Sheet.read (compact text) := by
  induction text using List.reverseRecOn with
  | nil => rfl
  | append_singleton text c ih =>
    rw [soften_concat, Sheet.read_concat, ih]
    by_cases narrow : isNarrowBlank c = true
    · rw [if_pos narrow, Sheet.step_space, compact_blank (show IsBlank c from narrow)]
    · rw [if_neg narrow, compact_other (show ¬IsBlank c from narrow), Sheet.read_concat]

end Soften

section Harmless

variable {text : List Char} {c : Char}

theorem harmless_of_soft (soft : ∀ c ∈ text, isBlank c = true → c = ' ') : Harmless text := by
  rintro before c blank d behind rfl ⟨narrow, other⟩
  exact absurd (soft blank (by simp) narrow.not_solid) other

theorem harmless_concat : Harmless (text ++ [c]) ↔ Harmless text ∧
    ∀ before d blank, text = before ++ [d, blank] → IsHard blank → ¬Splits before d c := by
  constructor
  · intro harmless
    constructor
    · intro before d blank e behind split hard
      exact harmless before d blank e (behind ++ [c]) (by simp [split]) hard
    · intro before d blank split hard
      exact harmless before d blank c [] (by simp [split]) hard
  · rintro ⟨harmless, fits⟩ before d blank e behind split hard
    rcases List.eq_nil_or_concat behind with rfl | ⟨front, last, rfl⟩
    · have grouped : text ++ [c] = (before ++ [d, blank]) ++ [e] := by simpa using split
      obtain ⟨same, last⟩ := List.append_inj' grouped rfl
      cases last
      exact fits before d blank same hard
    · have grouped : text ++ [c] = (before ++ d :: blank :: e :: front) ++ [last] := by
        simpa using split
      exact harmless before d blank e front (List.append_inj' grouped rfl).1 hard

/-- Nothing is split where no hard blank stands before the character. -/
theorem harmless_soft (soft : ∀ t ∈ text.getLast?, ¬IsHard t) :
    Harmless (text ++ [c]) ↔ Harmless text := by
  rw [harmless_concat, and_iff_left]
  intro before d blank split hard
  exact absurd hard (soft blank (by simp [split]))

theorem harmless_other (unsigned : ¬IsSign c) (outside : ¬IsOperand c) :
    Harmless (text ++ [c]) ↔ Harmless text := by
  rw [harmless_concat, and_iff_left]
  rintro before d blank _ _ (⟨sign, rfl⟩ | ⟨_, operand, _⟩)
  · exact unsigned sign
  · exact outside operand

theorem harmless_first (none : ¬∃ d ∈ text, IsOperand d) (operand : IsOperand c) :
    Harmless (text ++ [c]) ↔ Harmless text := by
  rw [harmless_concat, and_iff_left]
  rintro before d blank rfl _ (⟨sign, rfl⟩ | ⟨_, _, e, member, isOperand⟩)
  · exact operand.unsigned sign
  · exact none ⟨e, by simp [member], isOperand⟩

end Harmless

section Scan

variable {text : List Char} {place next : Place} {c : Char}

theorem Move.leading_iff (move : Move place c next) :
    next.leading = false ↔ place.leading = false ∨ IsOperand c := by
  cases move with
  | nest => simp [IsOperand]
  | leadSign sign => simpa using sign.operator.not_operand
  | leadBlank source blank => rcases source with rfl | rfl <;> simpa using blank.not_operand
  | first _ has | growFirst has | later _ has | growLater has => simp [has.isOperand]
  | bracketAfter source _ => rcases source with ⟨run, rfl⟩ | rfl <;> simp
  | blankAfter complete _ _ | signAfter complete _ | tightAfter complete _ =>
    cases place <;> simp_all
  | sign _ => simp
  | blankBehind source _ | ownSign source _ => rcases source with rfl | rfl <;> simp
  | bracketBehind due _ _ => cases place <;> simp_all

/-- Before the first operand there is none, and behind it there is one. -/
theorem Scan.leading_iff (scan : Scan text place) :
    place.leading = false ↔ ∃ d ∈ text, IsOperand d := by
  induction scan with
  | start => simp
  | next _ move ih =>
    rw [move.leading_iff, ih]
    simp only [List.mem_append, List.mem_singleton, or_and_right, exists_or, exists_eq_left]

theorem Move.unspaced (move : Move place c next) (blank : IsBlank c) :
    ∀ d, place.Last d → ¬IsBlank d := by
  intro d last
  cases move with
  | nest => exact absurd rfl blank.other.1
  | leadSign sign | signAfter _ sign | sign sign | ownSign _ sign =>
    exact absurd sign.operator blank.not_operator
  | tightAfter _ tight => exact absurd tight.operator blank.not_operator
  | first _ has | growFirst has | later _ has | growLater has =>
    exact absurd has.isOperand blank.not_operand
  | bracketAfter _ bracket | bracketBehind _ _ bracket =>
    rcases bracket with rfl | rfl
    · exact absurd rfl blank.other.1
    · exact absurd rfl blank.other.2
  | leadBlank source _ =>
    rcases source with rfl | rfl
    · exact fun blank => blank.other.1 last
    · exact fun blank => blank.not_operator (IsSign.operator last)
  | blankBehind source _ =>
    rcases source with rfl | rfl
    · exact fun blank => blank.not_operator (IsSign.operator last)
    · exact fun blank => blank.not_operator (IsTight.operator last)
  | blankAfter complete fresh _ =>
    cases place with
    | first run | later run => exact fun blank => blank.not_operand (Run.Has.isOperand last)
    | closed =>
      rcases last with rfl | rfl
      · exact fun blank => blank.other.1 rfl
      · exact fun blank => blank.other.2 rfl
    | spaced => contradiction
    | _ => simp at complete

/-- A blank at the end, with what it was read behind. -/
theorem Scan.blank_last {front : List Char} (scan : Scan (front ++ [c]) place) (blank : IsBlank c) :
    ∃ source, Scan front source ∧ Move source c place ∧
      (compact (front ++ [c])).getLast? = front.getLast? := by
  generalize whole : front ++ [c] = text at scan
  cases scan with
  | start => simp at whole
  | next scan move =>
    obtain ⟨rfl, last⟩ := List.append_inj' whole rfl
    cases last
    refine ⟨_, scan, move, ?_⟩
    rw [compact_blank blank]
    exact compact_last fun d last => move.unspaced blank d (scan.last d last)

/-- The last character differs behind a hard blank only. -/
theorem Scan.last_read (scan : Scan text place) (soft : ∀ t ∈ text.getLast?, ¬IsHard t) :
    (Sheet.read text).last? = (Sheet.read (compact text)).last? := by
  induction scan with
  | start => rfl
  | @next text place next c scan move ih =>
    have soft : ¬IsHard c := soft c List.getLast?_concat
    by_cases blank : IsBlank c
    · have space : c = ' ' := by
        by_contra other
        exact soft ⟨blank, other⟩
      rw [Sheet.read_concat, compact_blank blank, space, Sheet.step_space]
      exact ih fun t last hard => move.unspaced blank t (scan.last t last) hard.1
    · have solid : c ≠ ' ' := by
        rintro rfl
        exact blank rfl
      rw [Sheet.read_concat, compact_other blank, Sheet.read_concat, Sheet.step_last solid,
        Sheet.step_last solid]

/-- Without hard blanks the conversion remembers the last character that is no blank. -/
theorem Scan.last_soft (scan : Scan text place) (soft : ∀ t ∈ text, isBlank t = true → t = ' ') :
    (Sheet.read text).last? = (compact text).getLast? := by
  rw [scan.last_read, Sheet.last_compact]
  rintro t last ⟨blank, notSpace⟩
  exact notSpace (soft t (List.mem_of_getLast? last) blank.not_solid)

/-- Where an operand may begin none is under way. -/
theorem Scan.outside (scan : Scan text place) (incomplete : place.complete = false)
    (soft : ∀ t ∈ text, isBlank t = true → t = ' ') : (Sheet.read text).inOperand = false := by
  apply Sheet.outside_of_symbol
  rw [scan.last_soft soft]
  exact scan.behind.symbol incomplete

/-- No word is written before the first operand. -/
theorem Scan.unwritten (scan : Scan text place) (leading : place.leading = true) :
    (Sheet.read text).words = [] ∧
      (place = .head → ∀ item ∈ (Sheet.read text).waiting, item = .parenthesis) := by
  induction scan with
  | start => exact ⟨rfl, fun _ item member => by cases member⟩
  | @next text place next c scan move ih =>
    rw [Sheet.read_concat]
    cases move with
    | nest =>
      obtain ⟨unwritten, waits⟩ := ih rfl
      have opened : (Sheet.read text).step '(' =
          { Sheet.read text with waiting := .parenthesis :: (Sheet.read text).waiting, last? := some '(' } :=
        rfl
      rw [opened]
      refine ⟨unwritten, fun _ item member => ?_⟩
      rcases List.mem_cons.mp member with rfl | below
      · rfl
      · exact waits rfl item below
    | leadSign sign =>
      obtain ⟨unwritten, waits⟩ := ih rfl
      obtain ⟨op, rfl⟩ := sign.operator.exists_char
      obtain ⟨released, waiting, turn, turned⟩ := (Sheet.read text).turn (.operator op)
      have none : released = [] := by
        cases turn with
        | repeated => rfl
        | pushed _ split =>
          cases released with
          | nil => rfl
          | cons top rest =>
            have top := waits rfl (.operator top) (by simp [split])
            cases top
      rw [show op.char = (Symbol.operator op).char from rfl, Sheet.step_symbol, turned, none]
      exact ⟨by simpa using unwritten, nofun⟩
    | leadBlank source blank =>
      obtain ⟨unwritten, _⟩ := ih (by rcases source with rfl | rfl <;> rfl)
      exact ⟨(Sheet.step_blank blank _).1.trans unwritten, nofun⟩
    | _ => simp at leading

end Scan

section Behind

variable {text front : List Char} {place next : Place} {c t : Char}

/-- The blank's source is where an operator ends, unless the operand that comes is the
first of all. -/
theorem Move.operator_before (move : Move place t next) (blank : IsBlank t)
    (incomplete : next.complete = false) (later : next.leading = false) :
    place.leading = false ∧ ∀ d, place.Last d → IsOperator d := by
  cases move with
  | blankBehind source _ =>
    rcases source with rfl | rfl
    · exact ⟨rfl, fun d sign => IsSign.operator sign⟩
    · exact ⟨rfl, fun d tight => IsTight.operator tight⟩
  | leadBlank | nest | leadSign => simp at later
  | first | growFirst | later | growLater | bracketAfter | blankAfter => simp at incomplete
  | signAfter _ sign | sign sign | ownSign _ sign =>
    exact absurd sign.operator blank.not_operator
  | tightAfter _ tight => exact absurd tight.operator blank.not_operator
  | bracketBehind _ _ bracket =>
    rcases bracket with rfl | rfl
    · exact absurd rfl blank.other.1
    · exact absurd rfl blank.other.2

/-- An operand that is not the first, behind a hard blank. -/
theorem Scan.harmful_operand (scan : Scan (front ++ [t]) place) (hard : IsHard t)
    (incomplete : place.complete = false) (later : place.leading = false) (operand : IsOperand c) :
    ¬Harmless (front ++ [t] ++ [c]) := by
  obtain ⟨source, earlier, move, _⟩ := scan.blank_last hard.1
  obtain ⟨later, operator⟩ := move.operator_before hard.1 incomplete later
  obtain ⟨d, member, isOperand⟩ := earlier.leading_iff.mp later
  intro harmless
  rcases List.eq_nil_or_concat front with rfl | ⟨before, last, rfl⟩
  · cases member
  · rw [List.concat_eq_append] at *
    have operator := operator last (earlier.last last List.getLast?_concat)
    refine harmless before last t c [] (by simp) hard (.inr ⟨operator, operand, d, ?_, isOperand⟩)
    rcases List.mem_append.mp member with old | new
    · exact old
    · rw [List.mem_singleton.mp new] at isOperand
      exact absurd isOperand operator.not_operand

/-- A sign that repeats the one before it, behind a hard blank. -/
theorem Scan.harmless_sign (scan : Scan (front ++ [t]) place) (hard : IsHard t) (sign : IsSign c) :
    Harmless (front ++ [t] ++ [c]) ↔
      Harmless (front ++ [t]) ∧ (compact (front ++ [t])).getLast? ≠ some c := by
  obtain ⟨source, earlier, move, last⟩ := scan.blank_last hard.1
  rw [harmless_concat, last]
  apply and_congr_right
  intro _
  constructor
  · intro fits same
    obtain ⟨before, rfl⟩ := List.getLast?_eq_some_iff.mp same
    exact fits before c t (by simp) hard (.inl ⟨sign, rfl⟩)
  · intro other before d blank split _
    have grouped : front ++ [t] = (before ++ [d]) ++ [blank] := by simpa using split
    obtain ⟨rfl, _⟩ := List.append_inj' grouped rfl
    rw [List.getLast?_concat] at other
    rintro (⟨_, rfl⟩ | ⟨_, operand, _⟩)
    · exact other rfl
    · exact sign.operator.not_operand operand

end Behind

end Reckoner.Infix
