import Reckoner.Proofs.Infix.Nesting
import Mathlib.Data.List.Chain

/-! Expressions proper, by their grammar, and which accepted texts are not among
them. The accepted form lets parentheses stand in any order around an operand, so
a text with a value may still be no expression. It is one exactly if each opening
parenthesis stands where an operand may begin and each closing one where an
operand has ended. -/
namespace Reckoner.Infix
open Grammar Text

inductive Category
  | expression
  | primary

/-- Operands and enclosed expressions, joined by operators; each may have one sign
of its own in front. -/
inductive Phrase : Category → List Char → Prop
  | operand {word : List Char} : Operand word → Phrase .primary word
  | enclosed {text : List Char} : Phrase .expression text → Phrase .primary ('(' :: text ++ [')'])
  | first {sign text : List Char} : AtMostOne IsSign sign → Phrase .primary text →
      Phrase .expression (sign ++ text)
  | further {front link sign text : List Char} : Phrase .expression front → Link link →
      AtMostOne IsSign sign → Phrase .primary text →
      Phrase .expression (front ++ link ++ sign ++ text)

/-- An operand or a parenthesis ends with the character. -/
def IsEnd (c : Char) : Prop := IsOperand c ∨ c = ')'

/-- The second character may follow the first as far as parentheses go. -/
def Fits (c d : Char) : Prop :=
  (d = '(' → ¬IsEnd c) ∧ (d = ')' → IsEnd c)

/-- No opening parenthesis directly behind an operand or a closing one, and no
closing parenthesis directly behind an operator or an opening one. -/
def Placed (text : List Char) : Prop :=
  text.IsChain Fits

theorem operator_not_end {c : Char} (operator : IsOperator c) : ¬IsEnd c := by
  rintro (operand | closing)
  · exact operator.not_operand operand
  · exact operator.other.2 closing

theorem fits_other {c d : Char} (other : d ≠ '(' ∧ d ≠ ')') : Fits c d :=
  ⟨fun opening => absurd opening other.1, fun closing => absurd closing other.2⟩

theorem placed_of_others {text : List Char} (others : ∀ c ∈ text, c ≠ '(' ∧ c ≠ ')') :
    Placed text :=
  List.Pairwise.isChain <| List.pairwise_iff_forall_sublist.mpr fun pair =>
    fits_other (others _ (pair.subset (by simp)))

theorem link_operators {link : List Char} (isLink : Link link) :
    link ≠ [] ∧ ∀ c ∈ link, IsOperator c := by
  rcases isLink with ⟨nonempty, signs⟩ | ⟨c, tight, rfl⟩
  · exact ⟨nonempty, fun c member => .inl (signs c member)⟩
  · exact ⟨by simp, fun d member => .inr (List.mem_singleton.mp member ▸ tight)⟩

theorem sign_operators {sign : List Char} (isSign : AtMostOne IsSign sign) :
    ∀ c ∈ sign, IsOperator c := by
  rcases isSign with rfl | ⟨c, isSign, rfl⟩
  · simp
  · exact fun d member => .inl (List.mem_singleton.mp member ▸ isSign)

/-- How a phrase meets its neighbours: it begins with no closing parenthesis and
ends where an operand may end. -/
structure Edges (text : List Char) : Prop where
  placed : Placed text
  head : ∃ c, text.head? = some c ∧ c ≠ ')'
  last : ∃ c, text.getLast? = some c ∧ IsEnd c

/-- Operators fit before and behind everything that begins a primary. -/
theorem Edges.operators {front text : List Char} (operators : ∀ c ∈ front, IsOperator c)
    (edges : Edges text) : Placed (front ++ text) ∧
      (∃ c, (front ++ text).head? = some c ∧ c ≠ ')' ∧ (front ≠ [] → IsOperator c)) ∧
      ∃ c, (front ++ text).getLast? = some c ∧ IsEnd c := by
  obtain ⟨placed, ⟨h, head, notClosing⟩, l, last, isEnd⟩ := edges
  refine ⟨?_, ?_, l, ?_, isEnd⟩
  · refine List.IsChain.append (placed_of_others fun c member => (operators c member).other)
      placed fun c before d behind => ?_
    rw [head] at behind
    cases behind
    exact ⟨fun _ => operator_not_end (operators c (List.mem_of_getLast? before)),
      fun closing => absurd closing notClosing⟩
  · cases front with
    | nil => exact ⟨h, by simpa using head, notClosing, fun nonempty => absurd rfl nonempty⟩
    | cons c rest =>
      have operator := operators c List.mem_cons_self
      exact ⟨c, rfl, operator.other.2, fun _ => operator⟩
  · rw [List.getLast?_append, last]
    rfl

theorem Phrase.edges {category : Category} {text : List Char} (phrase : Phrase category text) :
    Edges text := by
  induction phrase with
  | @operand word operand =>
    have all : ∀ c ∈ word, IsOperand c := by
      intro c member
      rcases operand.2 with digits | letters
      · exact .inl (digits c member)
      · exact .inr (letters c member)
    refine ⟨placed_of_others fun c member => (all c member).other, ?_, ?_⟩
    · exact ⟨_, List.head?_eq_some_head operand.1, (all _ (List.head_mem _)).other.2⟩
    · exact ⟨_, List.getLast?_eq_some_getLast operand.1, .inl (all _ (List.getLast_mem _))⟩
  | @enclosed text _ ih =>
    obtain ⟨placed, ⟨h, head, notClosing⟩, l, last, isEnd⟩ := ih
    refine ⟨?_, ⟨'(', rfl, by decide⟩, ')', List.getLast?_concat, .inr rfl⟩
    have closed : Placed (text ++ [')']) := by
      apply List.IsChain.append placed (List.isChain_singleton _)
      intro c before d behind
      rw [last] at before
      cases before
      cases behind
      exact ⟨nofun, fun _ => isEnd⟩
    rw [Placed, List.cons_append, ← List.singleton_append]
    apply List.IsChain.append (List.isChain_singleton '(') closed
    intro c before d behind
    rw [List.head?_append, head] at behind
    cases before
    cases behind
    exact ⟨fun _ => by simp [IsEnd, IsOperand], fun closing => absurd closing notClosing⟩
  | first isSign _ ih =>
    obtain ⟨placed, ⟨h, head, notClosing, _⟩, last⟩ := ih.operators (sign_operators isSign)
    exact ⟨placed, ⟨h, head, notClosing⟩, last⟩
  | @further front link sign text _ isLink isSign _ ihFront ihText =>
    obtain ⟨nonempty, links⟩ := link_operators isLink
    have operators : ∀ c ∈ link ++ sign, IsOperator c := by
      intro c member
      rcases List.mem_append.mp member with old | new
      · exact links c old
      · exact sign_operators isSign c new
    obtain ⟨placed, ⟨h, head, _, operator⟩, l, last, isEnd⟩ := ihText.operators operators
    obtain ⟨placedFront, ⟨f, headFront, notClosing⟩, _⟩ := ihFront
    have joined : front ++ link ++ sign ++ text = front ++ (link ++ sign ++ text) := by simp
    rw [joined]
    refine ⟨?_, ⟨f, by simp [List.head?_append, headFront], notClosing⟩, l, ?_, isEnd⟩
    · apply List.IsChain.append placedFront placed
      intro c before d behind
      rw [head] at behind
      cases behind
      exact fits_other (operator (by simp [nonempty])).other
    · rw [List.getLast?_append, last]
      rfl

/-- How far a text has come that is to be an expression: before an expression,
before a primary with all signs read, or behind an expression. The number counts
the parentheses still to be closed. -/
inductive Stage
  | begun
  | due
  | done

inductive Partly : Stage → Nat → List Char → Prop
  | outermost : Partly .begun 0 []
  | opened {depth : Nat} {text : List Char} : Partly .due depth text →
      Partly .begun (depth + 1) (text ++ ['('])
  | signed {depth : Nat} {text sign : List Char} : Partly .begun depth text →
      AtMostOne IsSign sign → Partly .due depth (text ++ sign)
  | done {depth : Nat} {front text : List Char} : Partly .begun depth front →
      Phrase .expression text → Partly .done depth (front ++ text)
  | linked {depth : Nat} {text link sign : List Char} : Partly .done depth text → Link link →
      AtMostOne IsSign sign → Partly .due depth (text ++ link ++ sign)

namespace Partly

variable {depth : Nat} {front text : List Char}

theorem due (begun : Partly .begun depth text) : Partly .due depth text := by
  simpa using begun.signed (.inl rfl)

theorem primary (due : Partly .due depth front) (phrase : Phrase .primary text) :
    Partly .done depth (front ++ text) := by
  cases due with
  | signed begun isSign =>
    rw [List.append_assoc]
    exact .done begun (.first isSign phrase)
  | linked before isLink isSign =>
    cases before with
    | done begun expression =>
      have grown := begun.done (expression.further isLink isSign phrase)
      simpa using grown

theorem close (inner : Partly .done (depth + 1) text) : Partly .done depth (text ++ [')']) := by
  cases inner with
  | done begun expression =>
    cases begun with
    | opened before => simpa using before.primary (.enclosed expression)

theorem last (behind : Partly .done depth text) : ∃ c, text.getLast? = some c ∧ IsEnd c := by
  cases behind with
  | done _ expression =>
    obtain ⟨c, last, isEnd⟩ := expression.edges.last
    exact ⟨c, by simp [List.getLast?_append, last], isEnd⟩

theorem expression (whole : Partly .done 0 text) : Phrase .expression text := by
  cases whole with
  | done begun expression =>
    cases begun with
    | outermost => exact expression

end Partly

/-- A link is read and no sign behind it. -/
def Joined (depth : Nat) (text : List Char) : Prop :=
  ∃ front link, text = front ++ link ∧ Partly .done depth front ∧ Link link

/-- What the text read so far is, at each place. -/
def Place.Reads (depth : Nat) (text : List Char) : Place → Prop
  | .head => Partly .begun depth text
  | .headSigned | .headSpaced | .signed => Partly .due depth text
  | .first run | .later run => ∃ front word, text = front ++ word ∧ Partly .due depth front ∧
      word ≠ [] ∧ ∀ c ∈ word, run.Has c
  | .closed | .spaced => Partly .done depth text
  | .signs => ∃ front link, text = front ++ link ∧ Partly .done depth front ∧
      link ≠ [] ∧ AllAre IsSign link
  | .tight => Joined depth text
  | .opened => Partly .begun depth text ∨ Joined depth text

section Reads

variable {depth : Nat} {text : List Char} {place next : Place} {c : Char}

theorem Joined.signed (joined : Joined depth text) {sign : List Char}
    (isSign : AtMostOne IsSign sign) : Partly .due depth (text ++ sign) := by
  obtain ⟨front, link, rfl, before, isLink⟩ := joined
  exact .linked before isLink isSign

theorem Joined.last (joined : Joined depth text) :
    ∃ c, text.getLast? = some c ∧ ¬IsEnd c := by
  obtain ⟨front, link, rfl, _, isLink⟩ := joined
  obtain ⟨nonempty, operators⟩ := link_operators isLink
  refine ⟨_, ?_, operator_not_end (operators _ (List.getLast_mem nonempty))⟩
  rw [List.getLast?_append, List.getLast?_eq_some_getLast nonempty]
  rfl

theorem joined_of_signs (reads : Place.signs.Reads depth text) : Joined depth text := by
  obtain ⟨front, link, rfl, before, nonempty, signs⟩ := reads
  exact ⟨front, link, rfl, before, .inl ⟨nonempty, signs⟩⟩

theorem Place.Reads.due (reads : place.Reads depth text)
    (awaits : place.leading = true ∨ place.due = true) : Partly .due depth text := by
  cases place with
  | head => exact Partly.due reads
  | headSigned | headSpaced | signed => exact reads
  | signs => simpa using (joined_of_signs reads).signed (.inl rfl)
  | tight => simpa using Joined.signed reads (.inl rfl)
  | opened =>
    rcases reads with begun | joined
    · exact begun.due
    · simpa using joined.signed (.inl rfl)
  | _ => simp at awaits

theorem Place.Reads.done (reads : place.Reads depth text) (complete : place.complete = true) :
    Partly .done depth text := by
  cases place with
  | first run | later run =>
    obtain ⟨front, word, rfl, due, nonempty, has⟩ := reads
    exact due.primary (.operand (operand_of_run nonempty has))
  | closed | spaced => exact reads
  | _ => simp at complete

/-- Behind an operator a closing parenthesis never fits, and behind an opening one
neither. -/
theorem Place.Reads.not_end (reads : place.Reads (depth + 1) text) (awaits : place.due = true)
    (unsigned : place ≠ .signed) : ∃ c, text.getLast? = some c ∧ ¬IsEnd c := by
  cases place with
  | signs => exact (joined_of_signs reads).last
  | tight => exact Joined.last reads
  | opened =>
    rcases reads with begun | joined
    · cases begun with
      | opened => exact ⟨'(', by simp, by simp [IsEnd, IsOperand]⟩
    · exact joined.last
  | _ => simp_all

theorem Place.Reads.step_operand {run : Run} (has : run.Has c)
    (due : Partly .due depth (compact text)) :
    ∃ front word, compact (text ++ [c]) = front ++ word ∧ Partly .due (openStep depth c) front ∧
      word ≠ [] ∧ ∀ d ∈ word, run.Has d := by
  rw [openStep_other has.isOperand.other, compact_solid has.isOperand.solid]
  exact ⟨compact text, [c], rfl, due, by simp, by simpa using has⟩

theorem Place.Reads.grow_operand {run : Run} (has : run.Has c)
    (reads : ∃ front word, compact text = front ++ word ∧ Partly .due depth front ∧ word ≠ [] ∧
      ∀ d ∈ word, run.Has d) :
    ∃ front word, compact (text ++ [c]) = front ++ word ∧ Partly .due (openStep depth c) front ∧
      word ≠ [] ∧ ∀ d ∈ word, run.Has d := by
  obtain ⟨front, word, split, due, _, all⟩ := reads
  rw [openStep_other has.isOperand.other, compact_solid has.isOperand.solid, split]
  exact ⟨front, word ++ [c], by simp, due, by simp, Run.has_concat all has⟩

/-- One move keeps what the place says of the text, where the parentheses are well
placed and none is closed that was not opened. -/
theorem Place.Reads.step (reads : place.Reads depth (compact text)) (move : Move place c next)
    (fits : ∀ d ∈ (compact text).getLast?, Fits d c) (room : c = ')' → 0 < depth) :
    next.Reads (openStep depth c) (compact (text ++ [c])) := by
  cases move with
  | nest =>
    rw [compact_solid (by decide)]
    exact .opened (Partly.due reads)
  | leadSign sign =>
    rw [openStep_other sign.operator.other, compact_solid sign.operator.solid]
    exact .signed reads (.inr ⟨c, sign, rfl⟩)
  | leadBlank source blank =>
    rw [openStep_other blank.other, compact_blank blank]
    rcases source with rfl | rfl
    · exact Partly.due reads
    · exact reads
  | first leading has => exact step_operand has (reads.due (.inl leading))
  | later awaits has => exact step_operand has (reads.due (.inr awaits))
  | growFirst has => exact grow_operand has reads
  | growLater has => exact grow_operand has reads
  | bracketAfter source bracket =>
    have complete : place.complete = true := by
      rcases source with ⟨run, rfl⟩ | rfl <;> rfl
    have done := reads.done complete
    obtain ⟨d, last, isEnd⟩ := done.last
    rw [compact_solid bracket.solid]
    rcases bracket with rfl | rfl
    · exact absurd isEnd ((fits d last).1 rfl)
    · obtain ⟨inner, rfl⟩ := Nat.exists_eq_add_one.mpr (room rfl)
      exact done.close
  | blankAfter complete _ blank =>
    rw [openStep_other blank.other, compact_blank blank]
    exact reads.done complete
  | signAfter complete sign =>
    rw [openStep_other sign.operator.other, compact_solid sign.operator.solid]
    exact ⟨compact text, [c], rfl, reads.done complete, by simp, by simpa [AllAre] using sign⟩
  | tightAfter complete tight =>
    rw [openStep_other tight.operator.other, compact_solid tight.operator.solid]
    exact ⟨compact text, [c], rfl, reads.done complete, .inr ⟨c, tight, rfl⟩⟩
  | sign sign =>
    obtain ⟨front, link, split, done, _, signs⟩ := reads
    rw [openStep_other sign.operator.other, compact_solid sign.operator.solid, split]
    refine ⟨front, link ++ [c], by simp, done, by simp, fun d member => ?_⟩
    rcases List.mem_append.mp member with old | new
    · exact signs d old
    · rwa [List.mem_singleton.mp new]
  | blankBehind source blank =>
    rw [openStep_other blank.other, compact_blank blank]
    rcases source with rfl | rfl
    · exact .inr (joined_of_signs reads)
    · exact .inr reads
  | bracketBehind awaits unsigned bracket =>
    rw [compact_solid bracket.solid]
    rcases bracket with rfl | rfl
    · exact .inl (.opened (reads.due (.inr awaits)))
    · obtain ⟨inner, rfl⟩ := Nat.exists_eq_add_one.mpr (room rfl)
      obtain ⟨d, last, notEnd⟩ := reads.not_end awaits unsigned
      exact absurd ((fits d last).2 rfl) notEnd
  | ownSign source sign =>
    rw [openStep_other sign.operator.other, compact_solid sign.operator.solid]
    rcases source with rfl | rfl
    · exact Joined.signed reads (.inr ⟨c, sign, rfl⟩)
    · rcases reads with begun | joined
      · exact .signed begun (.inr ⟨c, sign, rfl⟩)
      · exact joined.signed (.inr ⟨c, sign, rfl⟩)

end Reads

theorem Scan.reads {text : List Char} {place : Place} (scan : Scan text place)
    (placed : Placed (compact text))
    (nested : ∀ front, front <+: text → front.count ')' ≤ front.count '(') :
    place.Reads (openDepth text) (compact text) := by
  induction scan with
  | start => exact .outermost
  | @next text place next c _ move ih =>
    rw [compact_append] at placed
    obtain ⟨before, _, between⟩ := List.isChain_append.mp placed
    have earlier := ih before fun front shorter => nested front (shorter.trans (List.prefix_append ..))
    rw [openDepth_concat]
    apply earlier.step move
    · intro d last
      by_cases blank : IsBlank c
      · exact fits_other blank.other
      · have wide : isNarrowBlank c = false := by simpa [IsBlank] using blank
        exact between d last c (by simp [compact, wide])
    · intro closing
      have now := nested _ (List.prefix_refl _)
      have bound := (openDepth_count text).1
      subst closing
      simp at now
      omega

/-- Of the texts that have a value, the well-formed expressions are those with all
parentheses well placed. That the parentheses nest need not be asked for: no other
text has a value. -/
theorem expression_iff_placed {table : Table} {text : List Char} {number : Int}
    (found : value table text = .ok number) :
    Nested text ∧ (Phrase .expression (compact text) ↔ Placed (compact text)) := by
  obtain ⟨accepted, nested⟩ := nested_of_value found
  refine ⟨nested, ?_, ?_⟩
  · intro expression
    exact expression.edges.placed
  intro placed
  obtain ⟨balanced, place, led, ends⟩ := accepts_iff.mp accepted
  have reads := (scan_of_foldlM led).reads placed nested.1
  rw [(nested_iff balanced).mp nested] at reads
  exact (reads.done (Place.complete_of_ends ends)).expression

theorem expression_iff_placed_nested :
    value ∅ ['2', '*', '(', '1', '+', '3', ')'] = .ok 8 ∧
      Nested ['2', '*', '(', '1', '+', '3', ')'] ∧
      (Phrase .expression (compact ['2', '*', '(', '1', '+', '3', ')']) ↔
        Placed (compact ['2', '*', '(', '1', '+', '3', ')'])) :=
  have found : value ∅ ['2', '*', '(', '1', '+', '3', ')'] = .ok 8 := rfl
  ⟨found, expression_iff_placed found⟩

/-- Empty parentheses in front of an operand do not keep a text from having a value. -/
theorem value_empty_parentheses :
    value ∅ ['1', '+', '(', ')', '2'] = .ok 3 ∧
      ¬Phrase .expression (compact ['1', '+', '(', ')', '2']) := by
  refine ⟨rfl, ?_⟩
  intro expression
  have placed : List.IsChain Fits ['1', '+', '(', ')', '2'] := expression.edges.placed
  have fits : Fits '(' ')' := by
    simp only [List.isChain_cons_cons] at placed
    exact placed.2.2.1
  have isEnd := fits.2 rfl
  simp [IsEnd, IsOperand] at isEnd

end Reckoner.Infix
