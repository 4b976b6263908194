import Reckoner.Proofs.Infix.Blanks
import Reckoner.Proofs.Infix.Plain
import Reckoner.Proofs.Postfix.Above

/-! The slot that an operand of letters leaves in an accepted text. An operand leads the form
to the same place whichever operand it is. To the conversion it is one word, and what stands
behind it is converted without regard to the words before. So all operands that may be put
there give the same postfix words but for their own. -/
namespace Reckoner.Postfix.Sheet
open Infix Infix.Grammar Text Reckoner.Tree

/-- Behind an operand it does not matter which operand it is. -/
theorem above_operand {word : List Char} (operand : Operand word) (words : List (List Char))
    (waiting : List Waiting) :
    Above (words ++ [word]) [] ⟨[], waiting, some '0'⟩
      ⟨words ++ [word], waiting, word.getLast?⟩ := by
  obtain ⟨c, last, read⟩ := word_last (word_of_operand operand)
  rw [last]
  have fresh (op : Operator) : some c ≠ some op.char := by
    rintro ⟨⟩
    simp at read
  refine ⟨(List.append_nil _).symm, (List.append_nil _).symm, ?_, ?_⟩
  · rw [inside_of_other (c := c) rfl read, inside_of_other (c := '0') rfl rfl]
  · intro op
    rw [not_repeats (fresh op), not_repeats]
    cases op <;> simp [Operator.char]

/-- No operand begins before the first symbol, so nothing joins the words in front. -/
def Closed (text : List Char) : Prop :=
  ∃ spaces rest, text = spaces ++ rest ∧ Spaces spaces ∧
    ∀ c ∈ rest.head?, IsOperator c ∨ IsParenthesis c

theorem Above.foldl_closed {front : List (List Char)} {sheet whole : Sheet}
    (above : Above front [] sheet whole) {text : List Char} (closed : Closed text)
    (soft : ∀ c ∈ text, isBlank c = true → c = ' ') :
    Above front [] (text.foldl Sheet.step sheet) (text.foldl Sheet.step whole) := by
  obtain ⟨spaces, rest, rfl, isSpaces, symbol⟩ := closed
  simp only [List.foldl_append, foldl_spaces isSpaces]
  cases rest with
  | nil => exact above
  | cons c tail =>
    obtain ⟨s, rfl⟩ := exists_symbol (symbol c rfl)
    have next := above.symbol (by simp [Barred]) s fun _ => .inl rfl
    have started : (sheet.step s.char).Started := by
      intro inside
      rw [step_symbol] at inside
      simp [Sheet.inOperand] at inside
    apply next.foldl_soft started
    intro d member
    exact soft d (by simp [member])

/-- Each operand in the slot is one word, before and behind which the words are the same. -/
theorem finish_slot {front behind : List Char} (outside : (read front).inOperand = false)
    (closed : Closed behind) (soft : ∀ c ∈ behind, isBlank c = true → c = ' ') :
    ∃ before after, ∀ word, Operand word →
      (read (front ++ word ++ behind)).finish = before ++ word :: after := by
  refine ⟨(read front).words, (behind.foldl step ⟨[], (read front).waiting, some '0'⟩).finish, ?_⟩
  intro word operand
  have above := above_operand operand (read front).words (read front).waiting
  rw [read_append, read_append, foldl_word outside (word_of_operand operand),
    (above.foldl_closed closed soft).finish, List.append_assoc, List.singleton_append]

end Reckoner.Postfix.Sheet

namespace Reckoner.Infix
open Grammar Text Postfix Reckoner.Tree

theorem Run.Has.unique {run other : Run} {c : Char} (has : run.Has c) (has' : other.Has c) :
    run = other := by
  cases run with
  | digits =>
    cases other with
    | digits => rfl
    | letters => exact absurd has' (by simp [Run.Has, digit_not_alpha has])
  | letters =>
    cases other with
    | digits => exact absurd has (by simp [Run.Has, digit_not_alpha has'])
    | letters => rfl

namespace Place

/-- An operand may begin here. -/
def Vacant (place : Place) : Prop :=
  place.leading = true ∨ place.due = true

theorem Vacant.incomplete {place : Place} (vacant : place.Vacant) : place.complete = false :=
  vacant.elim incomplete_of_leading incomplete_of_due

/-- Inside an operand of the kind that begins here. -/
def inside (place : Place) (run : Run) : Place :=
  if place.leading then .first run else .later run

theorem inside_eq (place : Place) (run : Run) :
    place.inside run = .first run ∨ place.inside run = .later run := by
  rw [inside]
  split
  · exact .inl rfl
  · exact .inr rfl

theorem inside_ends (place : Place) (run : Run) : (place.inside run).ends = true := by
  obtain same | same := place.inside_eq run <;> rw [same] <;> rfl

theorem inside_complete (place : Place) (run : Run) : (place.inside run).complete = true :=
  complete_of_ends (place.inside_ends run)

theorem Vacant.foldlM {place : Place} (vacant : place.Vacant) (run : Run) {word : List Char}
    (nonempty : word ≠ []) (has : ∀ c ∈ word, run.Has c) :
    word.foldlM Place.step place = some (place.inside run) := by
  obtain ⟨first, later⟩ := foldlM_word nonempty has place
  rw [inside]
  split
  · next leading => exact first leading
  · next later' => exact later (vacant.resolve_left later')

/-- What may come behind an operand does not depend on its kind. -/
theorem step_inside {c : Char} (other : ¬IsOperand c) (place : Place) (run run' : Run) :
    (place.inside run).step c = (place.inside run').step c := by
  simp only [Place.step]
  cases read : Mark.ofChar? c with
  | none => rfl
  | some mark =>
    have has := Mark.has_of_ofChar? read
    cases mark with
    | digit => exact absurd (Or.inl has) other
    | letter => exact absurd (Or.inr has) other
    | _ =>
      simp only [inside]
      split <;> cases run <;> cases run' <;> rfl

end Place

section Form

variable {front word other behind : List Char} {place next last : Place} {run : Run} {c : Char}

/-- A run of its own begins where no operand is under way. -/
theorem Scan.vacant (scan : Scan front place) (move : Move place c next) (has : run.Has c)
    (apart : ∀ d ∈ front.getLast?, ¬run.Has d) : place.Vacant := by
  cases move.effect with
  | begun incomplete _ _ => cases place <;> simp_all [Place.Vacant]
  | grown source has' =>
    obtain rfl := has.unique has'
    cases scan with
    | start => simp at source
    | next _ earlier =>
      refine absurd ?_ (apart _ List.getLast?_concat)
      have last := earlier.last
      obtain rfl | rfl := source <;> exact last
  | blank blank _ _ => exact absurd has.isOperand blank.not_operand
  | bracket bracket _ _ => exact absurd has.isOperand bracket.not_operand
  | operator _ operator _ => exact absurd has.isOperand operator.not_operand
  | sign _ sign _ => exact absurd has.isOperand sign.operator.not_operand

/-- Behind a complete operand comes one blank or a symbol, and behind the blank an operator. -/
theorem Move.ended (move : Move place c next) (complete : place.complete = true)
    (other : ¬IsOperand c) :
    (IsBlank c ∧ next = .spaced) ∨ IsOperator c ∨ IsParenthesis c := by
  cases move with
  | blankAfter _ _ blank => exact .inl ⟨blank, rfl⟩
  | bracketAfter _ bracket => exact .inr (.inr bracket)
  | signAfter _ sign => exact .inr (.inl sign.operator)
  | tightAfter _ tight => exact .inr (.inl tight.operator)
  | growFirst has | growLater has => exact absurd has.isOperand other
  | nest | leadSign _ | sign _ => simp at complete
  | leadBlank source _ | blankBehind source _ | ownSign source _ =>
    obtain rfl | rfl := source <;> simp at complete
  | first leading _ =>
    rw [Place.incomplete_of_leading leading] at complete
    cases complete
  | later due _ | bracketBehind due _ _ =>
    rw [Place.incomplete_of_due due] at complete
    cases complete

theorem Move.behind_spaced (move : Move .spaced c next) : IsOperator c := by
  cases move with
  | signAfter _ sign => exact sign.operator
  | tightAfter _ tight => exact tight.operator
  | _ => simp_all

theorem closed_behind (complete : place.complete = true)
    (led : behind.foldlM Place.step place = some last) (other : ∀ d ∈ behind.head?, ¬IsOperand d)
    (soft : ∀ d ∈ behind, isBlank d = true → d = ' ') : Sheet.Closed behind := by
  cases behind with
  | nil => exact ⟨[], [], rfl, by simp [Spaces], by simp⟩
  | cons c rest =>
    rw [List.foldlM_cons] at led
    obtain ⟨middle, moved, led⟩ := Option.bind_eq_some_iff.mp led
    obtain ⟨blank, rfl⟩ | symbol := (Move.of_step moved).ended complete (other c rfl)
    · have space : c = ' ' := soft c List.mem_cons_self blank.not_solid
      refine ⟨[c], rest, rfl, by simp [Spaces, space], ?_⟩
      intro d head
      obtain ⟨tail, rfl⟩ := List.head?_eq_some_iff.mp head
      rw [List.foldlM_cons] at led
      obtain ⟨_, moved, _⟩ := Option.bind_eq_some_iff.mp led
      exact .inl (Move.of_step moved).behind_spaced
    · refine ⟨[], c :: rest, rfl, by simp [Spaces], ?_⟩
      rintro d ⟨⟩
      exact symbol

/-- Whatever comes behind an operand may come behind any other in its place, if the operand
goes no further. -/
theorem foldlM_exchange (run' : Run) (ends : last.ends = true)
    (other : ∀ d ∈ behind.head?, ¬IsOperand d)
    (led : behind.foldlM Place.step (place.inside run) = some last) :
    ∃ final, behind.foldlM Place.step (place.inside run') = some final ∧ final.ends = true := by
  cases behind with
  | nil => exact ⟨_, rfl, place.inside_ends run'⟩
  | cons c rest =>
    rw [List.foldlM_cons, place.step_inside (other c rfl) run run'] at led
    exact ⟨last, led, ends⟩

/-- A run of letters that is not followed by a letter is followed by no operand. -/
theorem other_behind (led : behind.foldlM Place.step (place.inside .letters) = some last)
    (apart : ∀ d ∈ behind.head?, d.isAlpha = false) : ∀ d ∈ behind.head?, ¬IsOperand d := by
  intro d head operand
  obtain ⟨rest, rfl⟩ := List.head?_eq_some_iff.mp head
  rw [List.foldlM_cons] at led
  obtain ⟨_, moved, _⟩ := Option.bind_eq_some_iff.mp led
  have complete := place.inside_complete .letters
  cases (Move.of_step moved).effect with
  | begun incomplete _ _ => exact absurd (complete.symm.trans incomplete) (by simp)
  | @grown run _ source has =>
    have same : run = .letters := by
      obtain inside | inside := place.inside_eq .letters <;> simp_all
    subst run
    have letter : d.isAlpha = true := has
    simp [apart d rfl] at letter
  | blank blank _ _ => exact blank.not_operand operand
  | bracket bracket _ _ => exact bracket.not_operand operand
  | operator _ operator _ => exact operator.not_operand operand
  | sign _ sign _ => exact sign.operator.not_operand operand

/-- Where a word of letters stands apart in an accepted text, an operand may begin and the
rest does not depend on which. -/
theorem led_occurrence {word : List Char} (letters : ∀ c ∈ word, c.isAlpha = true)
    (nonempty : word ≠ []) (apart : Apart front behind)
    (led : (front ++ word ++ behind).foldlM Place.step .head = some last) :
    ∃ place, front.foldlM Place.step .head = some place ∧ place.Vacant ∧
      behind.foldlM Place.step (place.inside .letters) = some last ∧
      ∀ d ∈ behind.head?, ¬IsOperand d := by
  rw [List.foldlM_append, List.foldlM_append] at led
  obtain ⟨middle, led, ledBehind⟩ := Option.bind_eq_some_iff.mp led
  obtain ⟨place, ledFront, ledWord⟩ := Option.bind_eq_some_iff.mp led
  have vacant : place.Vacant := by
    obtain ⟨c, rest, rfl⟩ := List.exists_cons_of_ne_nil nonempty
    rw [List.foldlM_cons] at ledWord
    obtain ⟨next, moved, _⟩ := Option.bind_eq_some_iff.mp ledWord
    have letter : Run.letters.Has c := letters c List.mem_cons_self
    apply (scan_of_foldlM ledFront).vacant (Move.of_step moved) letter
    intro d last letter
    exact Bool.false_ne_true ((apart.1 d last).symm.trans letter)
  obtain rfl : place.inside .letters = middle := by
    rw [vacant.foldlM .letters nonempty letters] at ledWord
    exact Option.some.inj ledWord
  exact ⟨place, ledFront, vacant, ledBehind, other_behind ledBehind apart.2⟩

end Form

section Slot

variable {front word behind : List Char}

theorem operand_append_unsigned (operand : Operand word) (behind : List Char) :
    ∀ c ∈ (word ++ behind).head?, ¬IsSign c := by
  obtain ⟨c, rest, rfl⟩ := List.exists_cons_of_ne_nil operand.1
  rintro d ⟨⟩
  exact (operand_all operand c List.mem_cons_self).unsigned

theorem count_slot {other : List Char} (operand : Operand word) (operand' : Operand other)
    {c : Char} (symbol : ¬IsOperand c) :
    (front ++ word ++ behind).count c = (front ++ other ++ behind).count c := by
  simp only [List.count_append, count_operand operand symbol, count_operand operand' symbol]

/-- A whole run of letters in an accepted text makes room for any operand. All the postfix
words but that one are the same for each. -/
theorem value_slot (letters : ∀ c ∈ word, c.isAlpha = true) (nonempty : word ≠ [])
    (apart : Apart front behind) (accepted : accepts (front ++ word ++ behind) = true)
    (soft : ∀ c ∈ front ++ word ++ behind, isBlank c = true → c = ' ') :
    ∃ before after, ∀ other, Operand other →
      accepts (front ++ other ++ behind) = true ∧ ∀ table,
        value table (front ++ other ++ behind) = run table [0] (before ++ other :: after) >>= top := by
  obtain ⟨balanced, last, led, ends⟩ := accepts_iff.mp accepted
  obtain ⟨place, ledFront, vacant, ledBehind, others⟩ := led_occurrence letters nonempty apart led
  simp only [List.forall_mem_append] at soft
  have outside : (Sheet.read (withLeadingZero front)).inOperand = false := by
    obtain ⟨after, scan, covered⟩ := scan_withLeadingZero ledFront
    exact scan.outside (covered.complete.trans vacant.incomplete) (withLeadingZero_soft soft.1.1)
  have closed := closed_behind (place.inside_complete .letters) ledBehind others soft.2
  obtain ⟨before, after, words⟩ := Sheet.finish_slot outside closed soft.2
  refine ⟨before, after, fun other operand => ?_⟩
  obtain ⟨run, has⟩ := operand_run operand
  obtain ⟨final, continued, ends⟩ := foldlM_exchange run ends others ledBehind
  have led' := Place.foldlM_trans (Place.foldlM_trans ledFront (vacant.foldlM run operand.1 has)) continued
  have isWord : Operand word := ⟨nonempty, .inr letters⟩
  have accepted' : accepts (front ++ other ++ behind) = true := by
    apply accepts_iff.mpr
    refine ⟨?_, final, led', ends⟩
    simpa only [count_slot isWord operand (show ¬IsOperand '(' by simp [IsOperand]),
      count_slot isWord operand (show ¬IsOperand ')' by simp [IsOperand])] using balanced
  refine ⟨accepted', fun table => ?_⟩
  have zero : withLeadingZero (front ++ other ++ behind) =
      withLeadingZero front ++ other ++ behind := by
    rw [List.append_assoc] at led' ⊢
    rw [withLeadingZero_append led' (operand_append_unsigned operand behind), List.append_assoc]
  rw [value, if_pos accepted', value_ofInfix, ← Sheet.read_withLeadingZero, zero, words other operand]

end Slot

end Reckoner.Infix
