import Reckoner.Proofs.Infix.Blanks
import Reckoner.Proofs.Postfix.SignRun
import Reckoner.Proofs.Postfix.Tally

/-! What a conversion keeps of a text, whatever the text. The characters that are neither
symbols nor white space stay as they are and in their order. Operators may move, but none is
lost or made up, where a run of one sign counts as the one sign that it is read as. -/
namespace Reckoner.Text

/-- Neither white space nor a symbol. -/
def isPlain (c : Char) : Bool :=
  !(isBlank c || ['+', '-', '*', '/', '^', '(', ')'].contains c)

/-- The longest runs of the one sign, spaces aside. -/
def signRuns (sign : Char) (text : List Char) : List (List Char) :=
  runs (· == sign) (unspaced text)

theorem flatten_words (text : List Char) : (words text).flatten = text.filter (!isBlank ·) := by
  simp only [words_eq_runs, flatten_runs]

end Reckoner.Text

namespace Reckoner.Postfix
open Infix Infix.Grammar Text

theorem isPlain_symbol (s : Symbol) : isPlain s.char = false := by
  cases s with
  | operator op => cases op <;> decide
  | _ => decide

theorem isPlain_other {c : Char} (read : Symbol.ofChar? c = none) : isPlain c = !isBlank c := by
  obtain ⟨⟨notOpening, notClosing⟩, other⟩ := IsOperator.no_symbol_iff.mp read
  simp only [IsOperator, IsSign, IsTight, not_or] at other
  simp [isPlain, notOpening, notClosing, other]

namespace Sheet

theorem plain_release (words : List (List Char)) (items : List Waiting) :
    (release words items).flatten.filter isPlain = words.flatten.filter isPlain := by
  have none : (items.map fun item => [item.char]).flatten.filter isPlain = [] := by
    simp only [List.filter_eq_nil_iff, List.mem_flatten, List.mem_map]
    rintro c ⟨_, ⟨item, _, rfl⟩, member⟩
    obtain rfl := List.mem_singleton.mp member
    cases item with
    | parenthesis => decide
    | operator op => exact Bool.eq_false_iff.mp (isPlain_symbol (.operator op))
  simp only [release, List.flatten_append, List.filter_append, none, List.append_nil]

theorem plain_step (sheet : Sheet) (c : Char) :
    (sheet.step c).words.flatten.filter isPlain =
      sheet.words.flatten.filter isPlain ++ [c].filter isPlain := by
  cases read : Symbol.ofChar? c with
  | some s =>
    obtain rfl := Symbol.ofChar?_eq_some.mp read
    obtain ⟨released, waiting, _, turned⟩ := sheet.turn s
    simp only [step_symbol, turned, ← release_operators, plain_release]
    simp [isPlain_symbol]
  | none =>
    by_cases space : c = ' '
    · simp [space, isPlain, isBlank, isNarrowBlank]
    · simp only [step_operand read space, flatten_operand, List.filter_append]
      cases blank : isBlank c <;> simp [isPlain_other read, blank]

theorem plain_foldl (text : List Char) (sheet : Sheet) :
    (text.foldl step sheet).words.flatten.filter isPlain =
      sheet.words.flatten.filter isPlain ++ text.filter isPlain := by
  induction text generalizing sheet with
  | nil => simp
  | cons c rest ih =>
    simp only [List.foldl_cons, ih, plain_step, List.append_assoc, ← List.filter_append,
      List.singleton_append]

/-- Every character counts as itself, but for a sign that repeats the one before it. -/
theorem tally_step {c : Char} (operator : IsOperator c) (sheet : Sheet) (d : Char)
    (tight : IsSign d → sheet.last? = some d → IsTight c) :
    (sheet.step d).tally (· == c) = sheet.tally (· == c) + (d == c).toNat := by
  cases read : Symbol.ofChar? d with
  | none =>
    have other : d ≠ c := by
      rintro rfl
      exact (IsOperator.no_symbol_iff.mp read).2 operator
    have counted := @tally_other d (· == c) read sheet
    cases blank : isBlank d <;> simpa [other, blank, beq_eq_false_iff_ne.mpr other] using counted
  | some s =>
    obtain rfl := Symbol.ofChar?_eq_some.mp read
    have bracket : ('(' == c) = false := by simpa using operator.other.1.symm
    have counted := @tally_symbol (· == c) bracket sheet s fun op same again => by
      obtain ⟨sign, last⟩ := repeats_iff.mp again
      subst same
      obtain rfl | rfl | rfl := tight sign last <;> rfl
    refine counted.trans (congrArg (fun one : Bool => sheet.tally (· == c) + one.toNat) ?_)
    cases s with
    | opening => exact bracket.symm
    | closing => simpa [begins, Symbol.char] using operator.other.2.symm
    | operator op =>
      have fresh (same : op.char = c) : sheet.repeats op = false := by
        rw [Bool.eq_false_iff]
        intro again
        obtain ⟨sign, last⟩ := repeats_iff.mp again
        exact (tight sign last).unsigned (same ▸ sign)
      by_cases same : op.char = c
      · simp [begins, fresh same, same, Symbol.char, Waiting.char]
      · simp [begins, same, Symbol.char, Waiting.char]

theorem tally_foldl {c : Char} (tight : IsTight c) (text : List Char) (sheet : Sheet) :
    (text.foldl step sheet).tally (· == c) = sheet.tally (· == c) + text.count c := by
  induction text generalizing sheet with
  | nil => simp
  | cons d rest ih =>
    have stepped := tally_step tight.operator sheet d fun _ _ => tight
    simp only [List.foldl_cons, ih, stepped, List.count_cons]
    cases d == c <;> simp
    omega

/-- A further plus is as good as none. -/
theorem step_plus {sheet : Sheet} (last : sheet.last? = some '+') : sheet.step '+' = sheet := by
  have again : sheet.repeats .add = true := repeats_iff.mpr ⟨.inl rfl, last⟩
  have stepped := step_symbol (.operator .add) sheet
  simp only [symbol, again, if_true] at stepped
  refine stepped.trans ?_
  simp [Symbol.char, Operator.char, ← last]

/-- A further minus turns around the operator that waits on top. -/
theorem step_minus {sheet : Sheet} (last : sheet.last? = some '-') :
    sheet.step '-' = { sheet with waiting := sheet.waiting.modifyHead Waiting.flip } := by
  have again : sheet.repeats .sub = true := repeats_iff.mpr ⟨.inr rfl, last⟩
  have stepped := step_symbol (.operator .sub) sheet
  simp only [symbol, again, if_true] at stepped
  refine stepped.trans ?_
  simp [Symbol.char, Operator.char, ← last]

/-- Any other sign waits on top itself. -/
theorem top_step {sheet : Sheet} {op : Operator} (fresh : sheet.repeats op = false) :
    ∃ below, (sheet.step op.char).waiting = .operator op :: below := by
  obtain ⟨released, waiting, turn, turned⟩ := sheet.turn (.operator op)
  have stepped := step_symbol (.operator op) sheet
  cases turn with
  | repeated again => simp [fresh] at again
  | pushed =>
    rw [turned] at stepped
    exact ⟨_, congrArg Sheet.waiting stepped⟩

end Sheet

/-- How many operators of the sign the runs of signs are read as. A run of pluses is one plus,
a run of minuses what so many minuses amount to. -/
def readAs (sign : Char) (text : List Char) : Nat :=
  (if sign = '+' then (runs (· == '+') text).length else 0) +
    (runs (· == '-') text).countP fun run => (ofMinuses run.length).char == sign

section

variable {text : List Char} {c sign : Char}

theorem runs_other (other : c ≠ sign) (text : List Char) :
    runs (· == sign) (text ++ [c]) = runs (· == sign) text :=
  runs_concat_outside (by simpa using other) text

theorem runs_fresh (fresh : text.getLast? ≠ some c) :
    runs (· == c) (text ++ [c]) = runs (· == c) text ++ [[c]] := by
  apply runs_concat_first (by simp)
  intro d last
  simpa using fun same : d = c => fresh (same ▸ last)

theorem readAs_fresh (isSign : IsSign sign) (fresh : IsSign c → text.getLast? ≠ some c) :
    readAs sign (text ++ [c]) = readAs sign text + (c == sign).toNat := by
  by_cases minus : c = '-'
  · subst minus
    simp only [readAs, runs_fresh (fresh (.inr rfl)), runs_other (show '-' ≠ '+' by decide),
      List.countP_append, List.countP_singleton]
    change _ + (_ + if ('-' == sign) = true then 1 else 0) = _
    cases '-' == sign <;> rfl
  · by_cases plus : c = '+'
    · subst plus
      obtain rfl | rfl := isSign
      · simp [readAs, runs_fresh (fresh (.inl rfl)), runs_other]
        omega
      · simp [readAs, runs_other]
    · have other : (c == sign) = false := by
        obtain rfl | rfl := isSign
        · simpa using plus
        · simpa using minus
      simp [readAs, runs_other plus, runs_other minus, other]

theorem readAs_plus (last : text.getLast? = some '+') :
    readAs sign (text ++ ['+']) = readAs sign text := by
  have pluses := length_runs_concat (· == '+') text '+'
  simp [readAs, runs_other, pluses, last]

end

theorem Waiting.flip_ofMinuses (count : Nat) :
    (Waiting.operator (ofMinuses count)).flip = .operator (ofMinuses (count + 1)) := by
  unfold ofMinuses
  obtain even | odd := Nat.mod_two_eq_zero_or_one count
  · simp [even, Nat.add_mod, flip]
  · simp [odd, Nat.add_mod, flip]

/-- What the runs of signs have become on the sheet. While minuses are read, the operator on
top stands for the run so far. -/
structure SignsKept (text : List Char) (sheet : Sheet) : Prop where
  last : ∀ c, IsSign c → (sheet.last? = some c ↔ text.getLast? = some c)
  signs : ∀ sign, IsSign sign → sheet.tally (· == sign) = readAs sign text
  top : text.getLast? = some '-' → ∃ front run below, runs (· == '-') text = front ++ [run] ∧
    sheet.waiting = .operator (ofMinuses run.length) :: below

namespace SignsKept

variable {text : List Char} {sheet : Sheet} {c : Char}

theorem last_step (solid : c ≠ ' ') (d : Char) :
    (sheet.step c).last? = some d ↔ (text ++ [c]).getLast? = some d := by
  simp only [Sheet.step_last solid, List.getLast?_concat]

theorem fresh (kept : SignsKept text sheet) (solid : c ≠ ' ')
    (fresh : IsSign c → text.getLast? ≠ some c) : SignsKept (text ++ [c]) (sheet.step c) := by
  constructor
  · exact fun d _ => last_step solid d
  · intro sign isSign
    have counted := Sheet.tally_step isSign.operator sheet c fun isSign last =>
      absurd ((kept.last c isSign).mp last) (fresh isSign)
    rw [counted, kept.signs sign isSign, readAs_fresh isSign fresh]
  · intro last
    obtain rfl : c = '-' := by simpa using last
    have fresh := fresh (.inr rfl)
    have unrepeated : sheet.repeats .sub = false :=
      Sheet.not_repeats fun last => fresh ((kept.last _ (.inr rfl)).mp last)
    obtain ⟨below, waits⟩ := Sheet.top_step unrepeated
    exact ⟨_, ['-'], below, runs_fresh fresh, waits⟩

theorem plus (kept : SignsKept text sheet) (last : text.getLast? = some '+') :
    SignsKept (text ++ ['+']) (sheet.step '+') := by
  constructor
  · exact fun d _ => last_step (by decide) d
  · intro sign isSign
    rw [Sheet.step_plus ((kept.last '+' (.inl rfl)).mpr last), readAs_plus last, kept.signs sign isSign]
  · simp

/-- One more minus turns the operator on top into what the longer run amounts to. -/
theorem minus (kept : SignsKept text sheet) (last : text.getLast? = some '-') :
    SignsKept (text ++ ['-']) (sheet.step '-') := by
  obtain ⟨front, run, below, split, waits⟩ := kept.top last
  have grown : runs (· == '-') (text ++ ['-']) = front ++ [run ++ ['-']] := by
    rw [runs_concat (by decide) (by simp [last]), split, extend_concat]
  have turned : sheet.step '-' =
      { sheet with waiting := .operator (ofMinuses (run ++ ['-']).length) :: below } := by
    simp [Sheet.step_minus ((kept.last '-' (.inr rfl)).mpr last), waits, Waiting.flip_ofMinuses]
  constructor
  · exact fun d _ => last_step (by decide) d
  · intro sign isSign
    have before := kept.signs sign isSign
    simp only [turned, readAs, grown, split, runs_other (show '-' ≠ '+' by decide), Sheet.tally_eq,
      waits, List.countP_cons, List.countP_append, List.countP_nil, Waiting.char] at before ⊢
    omega
  · exact fun _ => ⟨front, _, below, grown, congrArg Sheet.waiting turned⟩

theorem step (kept : SignsKept text sheet) (solid : c ≠ ' ') :
    SignsKept (text ++ [c]) (sheet.step c) := by
  by_cases again : IsSign c ∧ text.getLast? = some c
  · obtain ⟨rfl | rfl, last⟩ := again
    · exact kept.plus last
    · exact kept.minus last
  · exact kept.fresh solid fun isSign last => again ⟨isSign, last⟩

theorem foldl (kept : SignsKept text sheet) (rest : List Char) :
    SignsKept (text ++ unspaced rest) (rest.foldl Sheet.step sheet) := by
  induction rest generalizing text sheet with
  | nil => simpa [unspaced] using kept
  | cons c rest ih =>
    by_cases space : c = ' '
    · simpa [space, unspaced] using ih kept
    · simpa [space, unspaced] using ih (kept.step space)

theorem initial (signed : Bool) : SignsKept [] (Sheet.initial signed) := by
  constructor
  · intro c isSign
    obtain rfl | rfl := isSign <;> cases signed <;> simp [Sheet.initial]
  · intro sign isSign
    obtain rfl | rfl := isSign <;> cases signed <;> rfl
  · simp

end SignsKept

/-- The characters of a kind that is not blank, by the words of the conversion. -/
theorem filter_ofInfix {kind : Char → Bool} (solid : ∀ c, kind c = true → isBlank c = false)
    (text : List Char) : (ofInfix text).filter kind = (Sheet.ofText text).finish.flatten.filter kind := by
  rw [← words_ofInfix, flatten_words, List.filter_filter]
  refine List.filter_congr fun c _ => ?_
  cases isKind : kind c with
  | false => rfl
  | true => simp [solid c isKind]

theorem count_ofInfix_operator {c : Char} (operator : IsOperator c) (text : List Char) :
    (ofInfix text).count c = (Sheet.ofText text).tally (· == c) := by
  have solid : ∀ d, (d == c) = true → isBlank d = false := by
    simpa using operator.solid
  simp only [List.count, List.countP_eq_length_filter, Sheet.tally, filter_ofInfix solid]

theorem filter_plain (text : List Char) :
    (ofInfix text).filter isPlain =
      (if hasLeadingSign text then ['0'] else []) ++ text.filter isPlain := by
  have solid : ∀ c, isPlain c = true → isBlank c = false := by
    intro c plain
    simp only [isPlain, Bool.not_eq_true', Bool.or_eq_false_iff] at plain
    exact plain.1
  rw [filter_ofInfix solid, Sheet.finish, Sheet.plain_release, Sheet.ofText, Sheet.plain_foldl]
  congr 1
  cases hasLeadingSign text <;> rfl

theorem count_tight {c : Char} (tight : IsTight c) (text : List Char) :
    (ofInfix text).count c = text.count c := by
  have none : (Sheet.initial (hasLeadingSign text)).tally (· == c) = 0 := by
    obtain rfl | rfl | rfl := tight <;> cases hasLeadingSign text <;> rfl
  rw [count_ofInfix_operator tight.operator, Sheet.ofText, Sheet.tally_foldl tight, none, Nat.zero_add]

theorem count_sign {sign : Char} (isSign : IsSign sign) (text : List Char) :
    (ofInfix text).count sign = readAs sign (unspaced text) := by
  rw [count_ofInfix_operator isSign.operator]
  exact ((SignsKept.initial (hasLeadingSign text)).foldl text).signs sign isSign

/-- The conversion keeps all characters of operands as they come, and writes nothing of its own
but the zero before a leading sign. It has each tight operator as often as the text. A run of
one sign, spaces aside, leaves one operator: a minus if it is a run of minuses odd in number,
and a plus otherwise. -/
theorem ofInfix_conserves (text : List Char) :
    (ofInfix text).filter isPlain =
        (if hasLeadingSign text then ['0'] else []) ++ text.filter isPlain ∧
      (∀ c, IsTight c → (ofInfix text).count c = text.count c) ∧
      (ofInfix text).count '-' = (signRuns '-' text).countP (·.length % 2 = 1) ∧
      (ofInfix text).count '+' =
        (signRuns '+' text).length + (signRuns '-' text).countP (·.length % 2 = 0) := by
  refine ⟨filter_plain text, fun c tight => count_tight tight text, ?_, ?_⟩
  · refine (count_sign (.inr rfl) text).trans ?_
    simp only [readAs, if_neg (show '-' ≠ '+' by decide), Nat.zero_add, signRuns]
    refine List.countP_congr fun run _ => ?_
    rw [ofMinuses_char]
    split <;> simp_all
  · refine (count_sign (.inl rfl) text).trans ?_
    simp only [readAs, if_true, signRuns]
    congr 1
    refine List.countP_congr fun run _ => ?_
    rw [ofMinuses_char]
    split <;> simp_all

/-- The tab parts the first minus from the two behind it, and is no character of the operand. -/
theorem ofInfix_conserves_tab :
    (ofInfix ['-', '\t', '-', ' ', '-', '1', 'é', '*', '2']).filter isPlain =
        ['0', '1', 'é', '2'] ∧
      (ofInfix ['-', '\t', '-', ' ', '-', '1', 'é', '*', '2']).count '*' = 1 ∧
      (ofInfix ['-', '\t', '-', ' ', '-', '1', 'é', '*', '2']).count '-' = 1 ∧
      (ofInfix ['-', '\t', '-', ' ', '-', '1', 'é', '*', '2']).count '+' = 1 := by
  obtain ⟨plain, tight, minuses, pluses⟩ :=
    ofInfix_conserves ['-', '\t', '-', ' ', '-', '1', 'é', '*', '2']
  exact ⟨plain.trans rfl, (tight '*' (.inl rfl)).trans rfl, minuses.trans rfl, pluses.trans rfl⟩

end Reckoner.Postfix
