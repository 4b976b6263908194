import Reckoner.Postfix.Yard
import Reckoner.Proofs.Text.Letters
import Reckoner.Proofs.Text.Words

/-! The conversion to postfix seen on words instead of characters. A sheet keeps
the words that a yard has written, what waits and the last character; every step
of a yard is a step of its sheet, and the postfix text has the sheet's words. -/
namespace Reckoner.Postfix

def Symbol.char : Symbol → Char
  | .opening => '('
  | .closing => ')'
  | .operator op => op.char

theorem Symbol.ofChar?_eq_some {c : Char} {s : Symbol} : ofChar? c = some s ↔ c = s.char := by
  constructor
  · intro read
    unfold ofChar? at read
    split at read
    · cases read; rfl
    · cases read; rfl
    · obtain ⟨op, same, rfl⟩ := Option.map_eq_some_iff.mp read
      exact Operator.ofChar?_eq_some.mp same
  · rintro rfl
    cases s with
    | operator op => cases op <;> rfl
    | _ => rfl

theorem Symbol.ofChar?_eq_none {c : Char} :
    ofChar? c = none ↔ (c ≠ '(' ∧ c ≠ ')') ∧ Operator.ofChar? c = none := by
  constructor
  · intro read
    refine ⟨⟨?_, ?_⟩, ?_⟩
    · rintro rfl
      cases read
    · rintro rfl
      cases read
    · cases operator : Operator.ofChar? c with
      | none => rfl
      | some op =>
        rw [Operator.ofChar?_eq_some.mp operator] at read
        cases op <;> cases read
  · rintro ⟨⟨notOpening, notClosing⟩, notOperator⟩
    unfold ofChar?
    split
    · contradiction
    · contradiction
    · rw [notOperator]
      rfl

@[simp] theorem Symbol.ofChar?_char (s : Symbol) : ofChar? s.char = some s :=
  ofChar?_eq_some.mpr rfl

@[simp] theorem Symbol.ofChar?_operator (op : Operator) : ofChar? op.char = some (.operator op) :=
  ofChar?_char (.operator op)

theorem Symbol.char_ne_space (s : Symbol) : s.char ≠ ' ' := by
  have read := ofChar?_char s
  intro same
  rw [same] at read
  cases read

theorem Yard.step_symbol (s : Symbol) (yard : Yard) :
    yard.step s.char = { yard.symbol s with last? := some s.char } := by
  simp only [step, if_neg s.char_ne_space, Symbol.ofChar?_char]

theorem Yard.step_operand {c : Char} (read : Symbol.ofChar? c = none) (solid : c ≠ ' ')
    (yard : Yard) : yard.step c = { yard.operand c with last? := some c } := by
  simp only [step, if_neg solid, read]

structure Sheet where
  words : List (List Char) := []
  waiting : List Waiting := []
  last? : Option Char := none

namespace Sheet

/-- Each waiting item becomes a word of its own. -/
def release (words : List (List Char)) (items : List Waiting) : List (List Char) :=
  words ++ items.map fun item => [item.char]

def repeats (sheet : Sheet) (op : Operator) : Bool :=
  (op = .add || op = .sub) && sheet.last? = some op.char

def symbol (sheet : Sheet) : Symbol → Sheet
  | .opening => { sheet with waiting := .parenthesis :: sheet.waiting }
  | .closing =>
    { sheet with
      words := release sheet.words (sheet.waiting.takeWhile Waiting.isOperator)
      waiting := (sheet.waiting.dropWhile Waiting.isOperator).tail }
  | .operator op =>
    if sheet.repeats op then
      if op = .sub then { sheet with waiting := sheet.waiting.modifyHead Waiting.flip } else sheet
    else
      { sheet with
        words := release sheet.words (sheet.waiting.takeWhile (Waiting.binds op.precedence))
        waiting := .operator op :: sheet.waiting.dropWhile (Waiting.binds op.precedence) }

def inOperand (sheet : Sheet) : Bool :=
  sheet.last?.any fun c => (Symbol.ofChar? c).isNone

/-- A blank that is not the space is remembered as the last character, but no
word has it. -/
def operand (sheet : Sheet) (c : Char) : Sheet :=
  { sheet with
    words :=
      if Text.isBlank c then sheet.words
      else if sheet.inOperand then Text.extend sheet.words c
      else sheet.words ++ [[c]] }

def step (sheet : Sheet) (c : Char) : Sheet :=
  if c = ' ' then sheet
  else
    let moved := match Symbol.ofChar? c with
      | some s => sheet.symbol s
      | none => sheet.operand c
    { moved with last? := some c }

def finish (sheet : Sheet) : List (List Char) :=
  release sheet.words sheet.waiting

@[simp] theorem step_space (sheet : Sheet) : sheet.step ' ' = sheet := rfl

theorem step_symbol (s : Symbol) (sheet : Sheet) :
    sheet.step s.char = { sheet.symbol s with last? := some s.char } := by
  rw [step, if_neg s.char_ne_space, Symbol.ofChar?_char]

theorem step_operand {c : Char} (read : Symbol.ofChar? c = none) (solid : c ≠ ' ')
    (sheet : Sheet) : sheet.step c = { sheet.operand c with last? := some c } := by
  rw [step, if_neg solid, read]

theorem step_waiting {c : Char} (read : Symbol.ofChar? c = none) (sheet : Sheet) :
    (sheet.step c).waiting = sheet.waiting := by
  by_cases space : c = ' '
  · rw [space, step_space]
  · rw [step_operand read space, operand]

theorem step_last {c : Char} (solid : c ≠ ' ') (sheet : Sheet) : (sheet.step c).last? = some c := by
  rw [step, if_neg solid]

end Sheet

/-- The words of the text written so far, and the rest of the yard as it is. -/
def Yard.sheet (yard : Yard) : Sheet :=
  ⟨Text.words yard.written.reverse, yard.waiting, yard.last?⟩

/-- Nothing is written yet, or the last word is closed by a blank. -/
def Yard.Ended (written : List Char) : Prop :=
  ∀ c ∈ written.head?, Text.isBlank c = true

theorem Waiting.char_solid (item : Waiting) : Text.isBlank item.char = false := by
  cases item with
  | parenthesis => decide
  | operator op => cases op <;> decide

theorem Waiting.takeWhile_operators {p : Waiting → Bool} (stops : p .parenthesis = false)
    (waiting : List Waiting) :
    ∃ released : List Operator, waiting.takeWhile p = released.map .operator := by
  induction waiting with
  | nil => exact ⟨[], rfl⟩
  | cons item rest ih =>
    cases item with
    | parenthesis => exact ⟨[], List.takeWhile_cons_of_neg (by simp [stops])⟩
    | operator op =>
      by_cases taken : p (.operator op) = true
      · obtain ⟨released, same⟩ := ih
        exact ⟨op :: released, by rw [List.takeWhile_cons_of_pos taken, same, List.map_cons]⟩
      · exact ⟨[], List.takeWhile_cons_of_neg taken⟩

/-- A step writes operators that waited, or one more character of an operand. -/
theorem Yard.written_step (yard : Yard) (c : Char) :
    (∃ released : List Operator,
      (yard.step c).written = release yard.written (released.map .operator)) ∨
    Symbol.ofChar? c = none ∧ c ≠ ' ' ∧ (yard.step c).written = (yard.operand c).written := by
  have taken {p : Waiting → Bool} (stops : p .parenthesis = false) : ∃ released : List Operator,
      release yard.written (yard.waiting.takeWhile p) =
        release yard.written (released.map .operator) := by
    obtain ⟨released, same⟩ := Waiting.takeWhile_operators stops yard.waiting
    exact ⟨released, congrArg (release yard.written) same⟩
  unfold step
  split
  · exact .inl ⟨[], rfl⟩
  · next solid =>
    cases read : Symbol.ofChar? c with
    | none => exact .inr ⟨rfl, solid, rfl⟩
    | some s =>
      left
      cases s with
      | opening => exact ⟨[], rfl⟩
      | closing => exact taken rfl
      | operator op =>
        simp only [symbol]
        split
        · unfold repeatSign
          split <;> exact ⟨[], rfl⟩
        · exact taken rfl

namespace Yard

/-- A word of one character, written behind a closed one. -/
theorem words_single {c : Char} (solid : Text.isBlank c = false) {written : List Char}
    (ended : Ended written) :
    Text.words (' ' :: c :: written).reverse = Text.words written.reverse ++ [[c]] := by
  have word : Text.words [c] = [[c]] := Text.words_of_no_blank (by simp) (by simpa using solid)
  rw [List.reverse_cons, Text.words_concat_blank (by decide)]
  cases written with
  | nil => simpa using word
  | cons b rest =>
    have blank : Text.isBlank b = true := ended b rfl
    simp only [List.reverse_cons, List.append_assoc, List.singleton_append]
    rw [Text.words_append_blank blank, Text.words_concat_blank blank, word]

/-- What is released has a space behind it. -/
theorem release_spaced (written : List Char) (items : List Waiting) :
    release written items = written ∨ ∃ before, release written items = ' ' :: before := by
  induction items generalizing written with
  | nil => exact .inl rfl
  | cons item rest ih =>
    refine .inr ?_
    obtain same | grown := ih (' ' :: item.char :: written)
    · exact ⟨_, same⟩
    · exact grown

theorem ended_release {written : List Char} (ended : Ended written) (items : List Waiting) :
    Ended (release written items) := by
  obtain same | ⟨before, grown⟩ := release_spaced written items
  · rwa [same]
  · rw [grown]
    rintro c ⟨⟩
    decide

theorem words_release {written : List Char} (ended : Ended written) (items : List Waiting) :
    Text.words (release written items).reverse =
      Sheet.release (Text.words written.reverse) items := by
  induction items generalizing written with
  | nil => simp [release, Sheet.release]
  | cons item rest ih =>
    have next : Ended (' ' :: item.char :: written) := by
      intro c head
      cases head
      decide
    have grown := ih next
    rw [words_single item.char_solid ended] at grown
    simpa [release, Sheet.release] using grown

/-- A character that joins drops the blanks behind the last word first. -/
theorem words_join {c : Char} (solid : Text.isBlank c = false) (written : List Char) :
    Text.words (' ' :: c :: written.dropWhile Text.isBlank).reverse =
      Text.extend (Text.words written.reverse) c := by
  have stop : ∀ d ∈ (written.dropWhile Text.isBlank).reverse.getLast?, Text.isBlank d = false := by
    intro d last
    rw [List.getLast?_reverse] at last
    have := List.head?_dropWhile_not Text.isBlank written
    rw [Option.mem_def.mp last] at this
    simpa using this
  rw [List.reverse_cons, Text.words_concat_blank (by decide), List.reverse_cons,
    Text.words_concat solid stop, Text.words_reverse_dropWhile]

theorem words_operand {yard : Yard} (ended : Ended yard.written) (c : Char) :
    Text.words (yard.operand c).written.reverse = (yard.sheet.operand c).words := by
  cases blank : Text.isBlank c with
  | true =>
    have unchanged (before : List Char) :
        Text.words (' ' :: c :: before).reverse = Text.words before.reverse := by
      rw [List.reverse_cons, Text.words_concat_blank (by decide), List.reverse_cons,
        Text.words_concat_blank blank]
    rw [operand, unchanged, Sheet.operand, if_pos blank]
    split
    · exact Text.words_reverse_dropWhile _
    · rfl
  | false =>
    have same : yard.sheet.inOperand = yard.inOperand := rfl
    cases inside : yard.inOperand with
    | true =>
      simp only [operand, Sheet.operand, same, inside, blank, if_true, Bool.false_eq_true, if_false]
      exact words_join blank yard.written
    | false =>
      simp only [operand, Sheet.operand, same, inside, blank, Bool.false_eq_true, if_false]
      exact words_single blank ended

theorem sheet_symbol {yard : Yard} (ended : Ended yard.written) (s : Symbol) :
    (yard.symbol s).sheet = yard.sheet.symbol s := by
  cases s with
  | opening => rfl
  | closing => simp only [symbol, close, sheet, Sheet.symbol, words_release ended]
  | operator op =>
    have same : yard.sheet.repeats op = yard.repeats op := rfl
    simp only [symbol, Sheet.symbol, same]
    split
    · rw [repeatSign]
      split <;> rfl
    · simp only [push, sheet, words_release ended]

theorem sheet_operand {yard : Yard} (ended : Ended yard.written) (c : Char) :
    (yard.operand c).sheet = yard.sheet.operand c :=
  congrArg (fun words => { yard.sheet with words }) (words_operand ended c)

theorem sheet_step {yard : Yard} (ended : Ended yard.written) (c : Char) :
    (yard.step c).sheet = yard.sheet.step c := by
  rw [step, Sheet.step]
  split
  · rfl
  · cases Symbol.ofChar? c with
    | some s => exact congrArg (fun moved => { moved with last? := some c }) (sheet_symbol ended s)
    | none => exact congrArg (fun moved => { moved with last? := some c }) (sheet_operand ended c)

theorem ended_step {yard : Yard} (ended : Ended yard.written) (c : Char) :
    Ended (yard.step c).written := by
  obtain ⟨released, same⟩ | ⟨_, _, same⟩ := yard.written_step c
  · rw [same]
    exact ended_release ended _
  · rw [same]
    rintro d ⟨⟩
    decide

theorem sheet_foldl {yard : Yard} (ended : Ended yard.written) (text : List Char) :
    (text.foldl step yard).sheet = text.foldl Sheet.step yard.sheet ∧
      Ended (text.foldl step yard).written := by
  induction text generalizing yard with
  | nil => exact ⟨rfl, ended⟩
  | cons c rest ih =>
    obtain ⟨same, closed⟩ := ih (ended_step ended c)
    exact ⟨by rw [List.foldl_cons, List.foldl_cons, same, sheet_step ended], closed⟩

end Yard

namespace Sheet

/-- The sheet behind a text that is read as it stands. -/
def read (text : List Char) : Sheet :=
  text.foldl step {}

theorem read_concat (text : List Char) (c : Char) : read (text ++ [c]) = (read text).step c := by
  rw [read, read, List.foldl_append, List.foldl_cons, List.foldl_nil]

theorem read_append (text rest : List Char) : read (text ++ rest) = rest.foldl step (read text) :=
  List.foldl_append

/-- A zero is on the sheet already where a sign leads the text. -/
def initial (signed : Bool) : Sheet :=
  if signed then { words := [['0']], last? := some '0' } else {}

/-- The sheet when the whole text is read and nothing is released yet. -/
def ofText (text : List Char) : Sheet :=
  text.foldl step (initial (hasLeadingSign text))

theorem ofText_unsigned {text : List Char} (unsigned : hasLeadingSign text = false) :
    ofText text = read text := by
  rw [ofText, unsigned]
  rfl

theorem ofText_signed {text : List Char} (signed : hasLeadingSign text = true) :
    ofText text = read ('0' :: text) := by
  rw [ofText, signed]
  rfl

theorem read_withLeadingZero (text : List Char) : read (withLeadingZero text) = ofText text := by
  rw [read, withLeadingZero, ofText, initial]
  split <;> rfl

end Sheet

/-- The first character that is not blank decides. -/
theorem hasLeadingSign_eq (text : List Char) :
    hasLeadingSign text = (text.find? (!Text.isBlank ·)).any fun c => c = '+' || c = '-' := by
  induction text with
  | nil => rfl
  | cons c rest ih =>
    cases blank : Text.isBlank c with
    | true =>
      rw [hasLeadingSign, Text.trim_cons_blank blank, ← hasLeadingSign, ih]
      simp [blank]
    | false =>
      obtain ⟨kept, trimmed⟩ := Text.trim_cons blank rest
      simp [hasLeadingSign, trimmed, blank]

theorem Yard.sheet_read (text : List Char) :
    (text.foldl Yard.step {}).sheet = Sheet.read text ∧
      Yard.Ended (text.foldl Yard.step {}).written := by
  have started : Yard.Ended ({} : Yard).written := by simp [Yard.Ended]
  have blank : ({} : Yard).sheet = {} := by simp [Yard.sheet]
  have reads := Yard.sheet_foldl started text
  rwa [blank] at reads

theorem Yard.sheet_ofText (text : List Char) :
    ((withLeadingZero text).foldl Yard.step {}).sheet = Sheet.ofText text ∧
      Yard.Ended ((withLeadingZero text).foldl Yard.step {}).written := by
  rw [← Sheet.read_withLeadingZero]
  exact Yard.sheet_read _

theorem words_ofInfix (text : List Char) :
    Text.words (ofInfix text) = (Sheet.ofText text).finish := by
  obtain ⟨same, ended⟩ := Yard.sheet_ofText text
  rw [ofInfix, Text.words_trim, Yard.finish, Yard.words_release ended, ← same]
  rfl

end Reckoner.Postfix
