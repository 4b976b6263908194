import Reckoner.Proofs.Infix.Nesting
import Reckoner.Proofs.Postfix.Spelling
import Mathlib.Data.List.TakeWhile

/-! Reading on top of what is there already. Words written before and items that wait
below stay as they are, as long as nothing of the text reaches them: a further character
must not join the words in front, and a closing parenthesis must find its opening one
above. -/
namespace Reckoner.Postfix.Sheet
open Text

/-- The whole sheet is the other one behind some words and above some items; both take the
next character in the same way. -/
structure Above (front : List (List Char)) (below : List Waiting) (sheet whole : Sheet) :
    Prop where
  words : whole.words = front ++ sheet.words
  waiting : whole.waiting = sheet.waiting ++ below
  inOperand : whole.inOperand = sheet.inOperand
  repeats : ∀ op, whole.repeats op = sheet.repeats op

/-- Nothing is released from below: an opening parenthesis is on top there, if anything is. -/
def Barred (below : List Waiting) : Prop :=
  ∀ item ∈ below.head?, item = .parenthesis

/-- Within an operand there is a word that the next character joins. -/
def Started (sheet : Sheet) : Prop :=
  sheet.inOperand = true → sheet.words ≠ []

theorem split_barred {p : Waiting → Bool} (stops : p .parenthesis = false) {below : List Waiting}
    (barred : Barred below) (waiting : List Waiting) :
    (waiting ++ below).takeWhile p = waiting.takeWhile p ∧
      (waiting ++ below).dropWhile p = waiting.dropWhile p ++ below := by
  induction waiting with
  | nil =>
    cases below with
    | nil => exact ⟨rfl, rfl⟩
    | cons item rest =>
      have bar : item = .parenthesis := barred item rfl
      simp [bar, stops]
  | cons item rest ih =>
    cases taken : p item with
    | true => simp [taken, ih]
    | false => simp [taken]

theorem flip_barred {below : List Waiting} (barred : Barred below) (waiting : List Waiting) :
    (waiting ++ below).modifyHead Waiting.flip = waiting.modifyHead Waiting.flip ++ below := by
  cases waiting with
  | cons item rest => rfl
  | nil =>
    cases below with
    | nil => rfl
    | cons item rest =>
      have bar : item = .parenthesis := barred item rfl
      rw [bar]
      rfl

theorem release_front (front words : List (List Char)) (items : List Waiting) :
    release (front ++ words) items = front ++ release words items :=
  List.append_assoc ..

theorem extend_front {words : List (List Char)} (stands : words ≠ []) (front : List (List Char))
    (c : Char) : extend (front ++ words) c = front ++ extend words c := by
  obtain ⟨before, word, rfl⟩ := (List.eq_nil_or_concat words).resolve_left stands
  rw [List.concat_eq_append, ← List.append_assoc, extend_concat, extend_concat, List.append_assoc]

namespace Above

variable {front : List (List Char)} {below : List Waiting} {sheet whole : Sheet}

/-- A character is the last one on both sheets, and decides what the next one does. -/
theorem remember (words : whole.words = front ++ sheet.words)
    (waiting : whole.waiting = sheet.waiting ++ below) (c : Char) :
    Above front below { sheet with last? := some c } { whole with last? := some c } :=
  ⟨words, waiting, rfl, fun _ => rfl⟩

theorem symbol (above : Above front below sheet whole) (barred : Barred below) (s : Symbol)
    (matched : s = .closing → below = [] ∨ .parenthesis ∈ sheet.waiting) :
    Above front below (sheet.step s.char) (whole.step s.char) := by
  obtain ⟨words, waiting, _, repeats⟩ := above
  rw [step_symbol, step_symbol]
  cases s with
  | opening =>
    apply remember
    · exact words
    · exact congrArg (Waiting.parenthesis :: ·) waiting
  | closing =>
    obtain ⟨taken, dropped⟩ := split_barred (p := Waiting.isOperator) rfl barred sheet.waiting
    apply remember
    · rw [Sheet.symbol, waiting, taken, words, release_front]
      rfl
    · rw [Sheet.symbol, waiting, dropped]
      obtain rfl | member := matched rfl
      · simp [Sheet.symbol]
      · apply List.tail_append_of_ne_nil
        intro none
        have operator := List.dropWhile_eq_nil_iff.mp none .parenthesis member
        cases operator
  | operator op =>
    obtain ⟨taken, dropped⟩ :=
      split_barred (p := Waiting.binds op.precedence) rfl barred sheet.waiting
    apply remember
    · simp only [Sheet.symbol, repeats]
      split
      · split <;> exact words
      · rw [waiting, taken, words, release_front]
    · simp only [Sheet.symbol, repeats]
      split
      · split
        · rw [waiting, flip_barred barred]
        · exact waiting
      · rw [waiting, dropped, List.cons_append]

theorem operand (above : Above front below sheet whole) (apart : front = [] ∨ sheet.Started)
    {c : Char} (read : Symbol.ofChar? c = none) (solid : c ≠ ' ') :
    Above front below (sheet.step c) (whole.step c) := by
  obtain ⟨words, waiting, inOperand, _⟩ := above
  rw [step_operand read solid, step_operand read solid]
  refine @remember _ _ (sheet.operand c) (whole.operand c) ?_ waiting c
  simp only [Sheet.operand, inOperand, words]
  split
  · rfl
  split
  · next inside =>
    obtain rfl | started := apart
    · rfl
    · exact extend_front (started inside) front c
  · exact List.append_assoc ..

theorem step (above : Above front below sheet whole) (barred : Barred below)
    (apart : front = [] ∨ sheet.Started) (c : Char)
    (matched : c = ')' → below = [] ∨ .parenthesis ∈ sheet.waiting) :
    Above front below (sheet.step c) (whole.step c) := by
  by_cases space : c = ' '
  · rw [space, step_space, step_space]
    exact above
  cases read : Symbol.ofChar? c with
  | none => exact above.operand apart read space
  | some s =>
    obtain rfl := Symbol.ofChar?_eq_some.mp read
    apply above.symbol barred s
    rintro rfl
    exact matched rfl

theorem finish (above : Above front [] sheet whole) : whole.finish = front ++ sheet.finish := by
  rw [Sheet.finish, above.words, above.waiting, List.append_nil, release_front, Sheet.finish]

end Above

/-- Only a blank that is remembered can be followed by a character that joins nothing. -/
theorem Started.step {sheet : Sheet} (started : sheet.Started) {c : Char}
    (soft : isBlank c = true → c = ' ') : (sheet.step c).Started := by
  by_cases space : c = ' '
  · rw [space, step_space]
    exact started
  have solid : isBlank c = false := Bool.eq_false_iff.mpr fun blank => space (soft blank)
  cases read : Symbol.ofChar? c with
  | some s =>
    intro inside
    simp [inOperand, step_last space, read] at inside
  | none =>
    intro _
    rw [step_operand read space]
    simp only [Sheet.operand, solid, Bool.false_eq_true, if_false]
    split <;> simp [extend]

/-- Behind other words a text is read as it is alone, if it has no blanks but spaces. -/
theorem Above.foldl_soft {front : List (List Char)} {sheet whole : Sheet}
    (above : Above front [] sheet whole) (started : sheet.Started) {text : List Char}
    (soft : ∀ c ∈ text, isBlank c = true → c = ' ') :
    Above front [] (text.foldl Sheet.step sheet) (text.foldl Sheet.step whole) := by
  induction text generalizing sheet whole with
  | nil => exact above
  | cons c rest ih =>
    have softly := soft c List.mem_cons_self
    have next := above.step (by simp [Barred]) (.inr started) c fun _ => .inl rfl
    exact ih next (started.step softly) fun d member => soft d (List.mem_cons_of_mem c member)

/-- Above a parenthesis a text is read as it is alone, if it closes none but its own. -/
theorem Above.foldl_nested {below : List Waiting} {whole : Sheet}
    (above : Above [] below {} whole) (barred : Barred below) {text : List Char}
    (nested : ∀ front, front <+: text → front.count ')' ≤ front.count '(') :
    Above [] below (read text) (text.foldl Sheet.step whole) := by
  induction text using List.reverseRecOn with
  | nil => exact above
  | append_singleton text c ih =>
    have earlier := ih fun front shorter => nested front (shorter.trans (List.prefix_append ..))
    rw [read_concat, List.foldl_append]
    apply earlier.step barred (.inl rfl) c
    rintro rfl
    right
    -- a parenthesis is open on this sheet, or the prefix up to here would close one too many
    have now := nested _ (List.prefix_refl _)
    have bound := (openDepth_count text).1
    have depth : (read text).waiting.count .parenthesis = openDepth text := count_foldl {} text
    apply List.count_pos_iff.mp
    simp at now
    omega

end Reckoner.Postfix.Sheet
