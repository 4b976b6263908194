import Reckoner.Infix.Form
import Reckoner.Proofs.Infix.Characters
import Reckoner.Proofs.Text.Words

/-! The scan of the accepted form, one character at a time. Each character that
leads from a place to another is one of a few moves, told by what the character
is; all that holds along accepted texts is proved move by move. -/
namespace Reckoner.Infix
open Grammar Text

namespace Mark

/-- The characters that have the mark. -/
def Has : Mark → Char → Prop
  | .blank, c => IsBlank c
  | .opening, c => c = '('
  | .closing, c => c = ')'
  | .sign, c => IsSign c
  | .tight, c => IsTight c
  | .digit, c => c.isDigit = true
  | .letter, c => c.isAlpha = true

variable {c : Char} {mark : Mark}

theorem has_of_ofChar? (read : ofChar? c = some mark) : mark.Has c := by
  unfold ofChar? at read
  repeat' split at read
  all_goals cases read
  all_goals simp_all [Has, IsBlank, IsSign, IsTight]

theorem ofChar?_of_has (has : mark.Has c) : ofChar? c = some mark := by
  cases mark with
  | opening => cases has; rfl
  | closing => cases has; rfl
  | sign => rcases has with rfl | rfl <;> rfl
  | tight => rcases has with rfl | rfl | rfl <;> rfl
  | blank =>
    have blank : isNarrowBlank c = true := has
    unfold ofChar?
    repeat' split
    all_goals first | rfl | exact absurd blank (by decide)
  | digit =>
    have digit : c.isDigit = true := has
    have notBlank : ¬isNarrowBlank c = true := by
      rw [isDigit_iff] at digit
      rw [isNarrowBlank_iff]
      omega
    unfold ofChar?
    repeat' split
    all_goals first | rfl | exact absurd digit (by decide) | contradiction
  | letter =>
    have letter : c.isAlpha = true := has
    have notBlank : ¬isNarrowBlank c = true := by
      rw [isAlpha_iff] at letter
      rw [isNarrowBlank_iff]
      omega
    have notDigit : ¬c.isDigit = true := by
      intro digit
      simp [digit_not_alpha digit] at letter
    unfold ofChar?
    repeat' split
    all_goals first | rfl | exact absurd letter (by decide) | contradiction

end Mark

theorem Place.step_of_has {mark : Mark} {c : Char} (has : mark.Has c) (place : Place) :
    place.step c = place.next mark := by
  rw [Place.step, Mark.ofChar?_of_has has]
  rfl

def Run.Has : Run → Char → Prop
  | .digits, c => c.isDigit = true
  | .letters, c => c.isAlpha = true

theorem Run.Has.isOperand {run : Run} {c : Char} (has : run.Has c) : IsOperand c := by
  cases run with
  | digits => exact Or.inl has
  | letters => exact Or.inr has

theorem Run.has_concat {run : Run} {word : List Char} {c : Char} (all : ∀ d ∈ word, run.Has d)
    (has : run.Has c) : ∀ d ∈ word ++ [c], run.Has d := by
  intro d member
  rcases List.mem_append.mp member with old | new
  · exact all d old
  · rwa [List.mem_singleton.mp new]

theorem operand_of_run {run : Run} {word : List Char} (nonempty : word ≠ [])
    (has : ∀ c ∈ word, run.Has c) : Operand word := by
  cases run with
  | digits => exact ⟨nonempty, .inl has⟩
  | letters => exact ⟨nonempty, .inr has⟩

theorem operand_digit {c : Char} (digit : c.isDigit = true) : Operand [c] :=
  @operand_of_run .digits _ (List.cons_ne_nil c []) (List.forall_mem_singleton.mpr digit)

theorem accepts_iff {text : List Char} : accepts text = true ↔
    text.count '(' = text.count ')' ∧
      ∃ place, text.foldlM Place.step .head = some place ∧ place.ends = true := by
  rw [accepts, Bool.and_eq_true, beq_iff_eq, Option.any_eq_true]

namespace Place

/-- Before the first operand. -/
@[simp] def leading : Place → Bool
  | .head | .headSigned | .headSpaced => true
  | _ => false

/-- Behind an operator whose operand is still to come. -/
@[simp] def due : Place → Bool
  | .signs | .tight | .opened | .signed => true
  | _ => false

/-- Where an operator may come. -/
@[simp] def complete : Place → Bool
  | .first _ | .later _ | .closed | .spaced => true
  | _ => false

end Place

theorem Place.complete_of_ends {place : Place} (ends : place.ends = true) :
    place.complete = true := by
  cases place with
  | first run | later run | closed => rfl
  | _ => contradiction

/-- One character of an accepted text, by what it does there. -/
inductive Move : Place → Char → Place → Prop
  | nest : Move .head '(' .head
  | leadSign {c : Char} : IsSign c → Move .head c .headSigned
  | leadBlank {place : Place} {c : Char} : place = .head ∨ place = .headSigned → IsBlank c →
      Move place c .headSpaced
  | first {place : Place} {run : Run} {c : Char} : place.leading = true → run.Has c →
      Move place c (.first run)
  | growFirst {run : Run} {c : Char} : run.Has c → Move (.first run) c (.first run)
  | later {place : Place} {run : Run} {c : Char} : place.due = true → run.Has c →
      Move place c (.later run)
  | growLater {run : Run} {c : Char} : run.Has c → Move (.later run) c (.later run)
  | bracketAfter {place : Place} {c : Char} : (∃ run, place = .later run) ∨ place = .closed →
      IsParenthesis c → Move place c .closed
  | blankAfter {place : Place} {c : Char} : place.complete = true → place ≠ .spaced →
      IsBlank c → Move place c .spaced
  | signAfter {place : Place} {c : Char} : place.complete = true → IsSign c → Move place c .signs
  | tightAfter {place : Place} {c : Char} : place.complete = true → IsTight c → Move place c .tight
  | sign {c : Char} : IsSign c → Move .signs c .signs
  | blankBehind {place : Place} {c : Char} : place = .signs ∨ place = .tight → IsBlank c →
      Move place c .opened
  | bracketBehind {place : Place} {c : Char} : place.due = true → place ≠ .signed →
      IsParenthesis c → Move place c .opened
  | ownSign {place : Place} {c : Char} : place = .tight ∨ place = .opened → IsSign c →
      Move place c .signed

theorem Move.of_next {place next : Place} {mark : Mark} {c : Char} (has : mark.Has c)
    (led : place.next mark = some next) : Move place c next := by
  cases mark with
  | blank =>
    cases place <;> (try cases ‹Run›) <;> cases led
    all_goals first
      | exact .leadBlank (.inl rfl) has
      | exact .leadBlank (.inr rfl) has
      | exact .blankAfter rfl nofun has
      | exact .blankBehind (.inl rfl) has
      | exact .blankBehind (.inr rfl) has
  | opening =>
    cases has
    cases place <;> (try cases ‹Run›) <;> cases led
    all_goals first
      | exact .nest
      | exact .bracketAfter (.inl ⟨_, rfl⟩) (.inl rfl)
      | exact .bracketAfter (.inr rfl) (.inl rfl)
      | exact .bracketBehind rfl nofun (.inl rfl)
  | closing =>
    cases has
    cases place <;> (try cases ‹Run›) <;> cases led
    all_goals first
      | exact .bracketAfter (.inl ⟨_, rfl⟩) (.inr rfl)
      | exact .bracketAfter (.inr rfl) (.inr rfl)
      | exact .bracketBehind rfl nofun (.inr rfl)
  | sign =>
    cases place <;> (try cases ‹Run›) <;> cases led
    all_goals first
      | exact .leadSign has
      | exact .signAfter rfl has
      | exact .sign has
      | exact .ownSign (.inl rfl) has
      | exact .ownSign (.inr rfl) has
  | tight =>
    cases place <;> (try cases ‹Run›) <;> cases led
    all_goals exact .tightAfter rfl has
  | digit =>
    have has : Run.digits.Has c := has
    cases place <;> (try cases ‹Run›) <;> cases led
    all_goals first
      | exact .first rfl has
      | exact .growFirst has
      | exact .growLater has
      | exact .later rfl has
  | letter =>
    have has : Run.letters.Has c := has
    cases place <;> (try cases ‹Run›) <;> cases led
    all_goals first
      | exact .first rfl has
      | exact .growFirst has
      | exact .growLater has
      | exact .later rfl has

theorem Move.of_step {place next : Place} {c : Char} (led : place.step c = some next) :
    Move place c next := by
  obtain ⟨mark, read, led⟩ := Option.bind_eq_some_iff.mp led
  exact .of_next (Mark.has_of_ofChar? read) led

/-- The characters read so far, and the place they lead to. -/
inductive Scan : List Char → Place → Prop
  | start : Scan [] .head
  | next {text : List Char} {place next : Place} {c : Char} : Scan text place →
      Move place c next → Scan (text ++ [c]) next

theorem Scan.append {text : List Char} {place : Place} (scan : Scan text place)
    {rest : List Char} {last : Place} (led : rest.foldlM Place.step place = some last) :
    Scan (text ++ rest) last := by
  induction rest generalizing text place with
  | nil =>
    cases led
    simpa using scan
  | cons c rest ih =>
    rw [List.foldlM_cons] at led
    obtain ⟨next, moved, led⟩ := Option.bind_eq_some_iff.mp led
    simpa using ih (scan.next (Move.of_step moved)) led

theorem scan_of_foldlM {text : List Char} {place : Place}
    (led : text.foldlM Place.step .head = some place) : Scan text place := by
  simpa using Scan.start.append led

theorem hasLeadingSign_cons {c : Char} (solid : isBlank c = false) (rest : List Char) :
    Postfix.hasLeadingSign (c :: rest) = true ↔ IsSign c := by
  simp [Postfix.hasLeadingSign_eq, solid, IsSign]

theorem hasLeadingSign_nest (rest : List Char) :
    Postfix.hasLeadingSign ('(' :: rest) = false := by
  rw [Bool.eq_false_iff, ne_eq, hasLeadingSign_cons (by decide)]
  simp [IsSign]

/-- Only the operand itself may follow a blank in front of it. -/
theorem Move.operand_behind_lead {c : Char} {next : Place} (move : Move .headSpaced c next) :
    IsOperand c := by
  cases move with
  | first _ has => exact has.isOperand
  | _ => simp_all

/-- A text of the accepted form has no blank before a sign that leads it. -/
theorem hasLeadingSign_iff {text : List Char} {place : Place}
    (led : text.foldlM Place.step .head = some place) :
    Postfix.hasLeadingSign text = true ↔ ∃ c ∈ text.head?, IsSign c := by
  cases text with
  | nil => simp [Postfix.hasLeadingSign, trim]
  | cons c rest =>
    rw [List.foldlM_cons] at led
    obtain ⟨next, moved, led⟩ := Option.bind_eq_some_iff.mp led
    cases Move.of_step moved with
    | nest => simpa using hasLeadingSign_cons (by decide) rest
    | leadSign sign => simpa using hasLeadingSign_cons (sign.operator.solid) rest
    | first _ has => simpa using hasLeadingSign_cons has.isOperand.solid rest
    | leadBlank _ narrow =>
      have blank : isBlank c = true := isBlank_of_isNarrowBlank narrow
      have unsigned : ¬IsSign c := fun sign => by simp [sign.operator.solid] at blank
      have passed : Postfix.hasLeadingSign (c :: rest) = Postfix.hasLeadingSign rest := by
        simp [Postfix.hasLeadingSign_eq, blank]
      cases rest with
      | nil => simp [Postfix.hasLeadingSign_eq, blank, unsigned]
      | cons d tail =>
        rw [List.foldlM_cons] at led
        obtain ⟨after, moved, _⟩ := Option.bind_eq_some_iff.mp led
        have operand := (Move.of_step moved).operand_behind_lead
        rw [passed, hasLeadingSign_cons operand.solid]
        simp [operand.unsigned, unsigned]
    | _ => simp_all

/-- Where more of the text follows, its own beginning still decides. -/
theorem hasLeadingSign_append {front rest : List Char} {place : Place}
    (led : (front ++ rest).foldlM Place.step .head = some place)
    (unsigned : ∀ c ∈ rest.head?, ¬IsSign c) :
    Postfix.hasLeadingSign (front ++ rest) = Postfix.hasLeadingSign front := by
  have whole := led
  rw [List.foldlM_append] at led
  obtain ⟨middle, led, _⟩ := Option.bind_eq_some_iff.mp led
  rw [Bool.eq_iff_iff, hasLeadingSign_iff whole, hasLeadingSign_iff led]
  cases front with
  | nil => simpa using unsigned
  | cons c tail => rfl

theorem withLeadingZero_append {front rest : List Char} {place : Place}
    (led : (front ++ rest).foldlM Place.step .head = some place)
    (unsigned : ∀ c ∈ rest.head?, ¬IsSign c) :
    Postfix.withLeadingZero (front ++ rest) = Postfix.withLeadingZero front ++ rest := by
  simp only [Postfix.withLeadingZero, hasLeadingSign_append led unsigned]
  split <;> rfl

theorem withLeadingZero_soft {text : List Char} (soft : ∀ c ∈ text, isBlank c = true → c = ' ') :
    ∀ c ∈ Postfix.withLeadingZero text, isBlank c = true → c = ' ' := by
  rw [Postfix.withLeadingZero]
  split
  · simp only [List.forall_mem_cons]
    exact ⟨by decide, by decide, soft⟩
  · exact soft

/-- The second place lets through whatever the first one does. A text behind its
own leading sign is under the same text behind a zero and that sign. -/
inductive Covered : Place → Place → Prop
  | same {place : Place} : Covered place place
  | signs : Covered .headSigned .signs
  | opened : Covered .headSpaced .opened
  | later {run : Run} : Covered (.first run) (.later run)

theorem Covered.next {place wider next : Place} {mark : Mark} (covered : Covered place wider)
    (led : place.next mark = some next) : ∃ after, wider.next mark = some after ∧ Covered next after := by
  cases covered with
  | same => exact ⟨next, led, .same⟩
  | later =>
    rename_i run
    cases run <;> cases mark <;> cases led <;> exact ⟨_, rfl, by constructor⟩
  | _ => cases mark <;> cases led <;> exact ⟨_, rfl, by constructor⟩

theorem Covered.foldlM {place wider last : Place} {text : List Char}
    (covered : Covered place wider) (led : text.foldlM Place.step place = some last) :
    ∃ after, text.foldlM Place.step wider = some after ∧ Covered last after := by
  induction text generalizing place wider with
  | nil =>
    cases led
    exact ⟨wider, rfl, covered⟩
  | cons c rest ih =>
    rw [List.foldlM_cons] at led
    obtain ⟨next, moved, led⟩ := Option.bind_eq_some_iff.mp led
    obtain ⟨mark, read, moved⟩ := Option.bind_eq_some_iff.mp moved
    obtain ⟨after, led', covered'⟩ := covered.next moved
    obtain ⟨final, reached, covers⟩ := ih covered' led
    refine ⟨final, ?_, covers⟩
    rw [List.foldlM_cons, Place.step, read]
    exact Option.bind_eq_some_iff.mpr ⟨after, led', reached⟩

theorem Covered.ends {place wider : Place} (covered : Covered place wider)
    (ends : place.ends = true) : wider.ends = true := by
  cases covered with
  | same => exact ends
  | later => rfl
  | _ => contradiction

theorem Covered.complete {place wider : Place} (covered : Covered place wider) :
    wider.complete = place.complete := by
  cases covered <;> rfl

/-- What the conversion reads, the zero before a leading sign included, is itself scanned. -/
theorem scan_withLeadingZero {text : List Char} {place : Place}
    (led : text.foldlM Place.step .head = some place) :
    ∃ after, Scan (Postfix.withLeadingZero text) after ∧ Covered place after := by
  rw [Postfix.withLeadingZero]
  split
  · next signed =>
    obtain ⟨c, head, sign⟩ := (hasLeadingSign_iff led).mp signed
    obtain ⟨rest, rfl⟩ := List.head?_eq_some_iff.mp head
    rw [List.foldlM_cons, Place.step_of_has (show Mark.sign.Has c from sign)] at led
    obtain ⟨after, reached, covered⟩ := Covered.signs.foldlM led
    have zero : Scan ['0', ' '] .spaced := scan_of_foldlM rfl
    have begun := zero.next (.signAfter rfl sign)
    exact ⟨after, begun.append reached, covered⟩
  · exact ⟨place, scan_of_foldlM led, .same⟩

theorem scan_of_accepts {text : List Char} (accepted : accepts text = true) :
    ∃ place, place.ends = true ∧ Scan (Postfix.withLeadingZero text) place := by
  obtain ⟨_, place, led, ends⟩ := accepts_iff.mp accepted
  obtain ⟨after, scan, covered⟩ := scan_withLeadingZero led
  exact ⟨after, covered.ends ends, scan⟩

end Reckoner.Infix
