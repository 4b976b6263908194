import Reckoner.Proofs.Infix.Blanks
import Reckoner.Proofs.Postfix.Tally

/-! The conversion of a text compared with that of the same text without its blanks,
as which a text is read that has spaces only. The two are alike exactly if no blank
does harm: what harm was done is never made up for, and two tallies of the finished
words still show it. -/
namespace Reckoner.Infix
open Grammar Text Postfix

/-- How a sheet compares with that of the same text without its blanks: it has fewer
words for its operands or more signs as soon as a blank did harm, and until then it is
the same. -/
structure Compared (text : List Char) (sheet bare : Sheet) : Prop where
  same : Harmless text → sheet.words = bare.words ∧ sheet.waiting = bare.waiting
  begun : (∃ d ∈ text, IsOperand d) → 0 < sheet.operandWords
  fewer : sheet.operandWords ≤ bare.operandWords
  more : bare.signs ≤ sheet.signs
  harmless : sheet.operandWords = bare.operandWords → sheet.signs = bare.signs → Harmless text

namespace Compared

variable {text : List Char} {c : Char} {sheet bare : Sheet}

/-- A step that leaves both tallies as they compare. -/
theorem keep {sheet' bare' : Sheet} (compared : Compared text sheet bare) (words signs : Nat)
    (harmless : Harmless (text ++ [c]) ↔ Harmless text)
    (same : sheet.words = bare.words ∧ sheet.waiting = bare.waiting →
      sheet'.words = bare'.words ∧ sheet'.waiting = bare'.waiting)
    (operands : sheet'.operandWords = sheet.operandWords + words ∧
      bare'.operandWords = bare.operandWords + words)
    (signed : sheet'.signs = sheet.signs + signs ∧ bare'.signs = bare.signs + signs)
    (begun : IsOperand c → 0 < sheet'.operandWords) : Compared (text ++ [c]) sheet' bare' := by
  have fewer := compared.fewer
  have more := compared.more
  constructor
  · intro calm
    exact same (compared.same (harmless.mp calm))
  · intro ⟨d, member, operand⟩
    rcases List.mem_append.mp member with old | new
    · have := compared.begun ⟨d, old, operand⟩
      omega
    · rw [List.mem_singleton.mp new] at operand
      exact begun operand
  · omega
  · omega
  · intro sameWords sameSigns
    exact harmless.mpr (compared.harmless (by omega) (by omega))

/-- A step behind a blank that does harm. -/
theorem part {sheet' bare' : Sheet} (compared : Compared text sheet bare)
    (harmful : ¬Harmless (text ++ [c])) (kept : sheet'.operandWords = sheet.operandWords)
    (begun : IsOperand c → ∃ d ∈ text, IsOperand d)
    (apart : bare'.operandWords = bare.operandWords + 1 ∧ bare'.signs = bare.signs ∧
        sheet'.signs = sheet.signs ∨
      bare'.operandWords = bare.operandWords ∧ bare'.signs = bare.signs ∧
        sheet'.signs = sheet.signs + 1) : Compared (text ++ [c]) sheet' bare' := by
  have fewer := compared.fewer
  have more := compared.more
  constructor
  · intro calm
    exact absurd calm harmful
  · intro ⟨d, member, operand⟩
    rw [kept]
    rcases List.mem_append.mp member with old | new
    · exact compared.begun ⟨d, old, operand⟩
    · rw [List.mem_singleton.mp new] at operand
      exact compared.begun (begun operand)
  · omega
  · omega
  · intro sameWords sameSigns
    omega

theorem blank (compared : Compared text sheet bare) (blank : IsBlank c) :
    Compared (text ++ [c]) (sheet.step c) bare := by
  obtain ⟨words, waiting⟩ := Sheet.step_blank blank sheet
  have finished : (sheet.step c).finish = sheet.finish := by
    rw [Sheet.finish, Sheet.finish, words, waiting]
  have operands : (sheet.step c).operandWords = sheet.operandWords :=
    congrArg (List.countP _) finished
  have signs : (sheet.step c).signs = sheet.signs :=
    congrArg (fun words => words.flatten.countP Sheet.isSign) finished
  refine compared.keep 0 0 (harmless_other ?_ blank.not_operand) ?_ ⟨operands, rfl⟩ ⟨signs, rfl⟩ ?_
  · exact fun sign => blank.not_operator sign.operator
  · rw [words, waiting]
    exact id
  · exact fun operand => absurd operand blank.not_operand

theorem symbol (compared : Compared text sheet bare) {s : Symbol} (other : ¬IsOperand s.char)
    (alike : ∀ op, s = .operator op → sheet.repeats op = bare.repeats op)
    (harmless : Harmless (text ++ [s.char]) ↔ Harmless text) :
    Compared (text ++ [s.char]) (sheet.step s.char) (bare.step s.char) := by
  have begins : sheet.begins (Sheet.isSign ·.char) s = bare.begins (Sheet.isSign ·.char) s := by
    cases s with
    | operator op => simp [Sheet.begins, alike op rfl]
    | _ => rfl
  refine compared.keep 0 _ harmless ?_ ⟨Sheet.operandWords_symbol .., Sheet.operandWords_symbol ..⟩
    ⟨Sheet.signs_symbol .., ?_⟩ fun operand => absurd operand other
  · rintro ⟨words, waiting⟩
    rw [Sheet.step_symbol, Sheet.step_symbol]
    cases s with
    | operator op =>
      simp only [Sheet.symbol, alike op rfl, words, waiting]
      split
      · split
        · exact ⟨rfl, rfl⟩
        · exact ⟨words, waiting⟩
      · exact ⟨rfl, rfl⟩
    | _ => simp [Sheet.symbol, words, waiting]
  · rw [begins]
    exact Sheet.signs_symbol ..

/-- A sign that repeats the one before it, were it not for the blank between them. -/
theorem parted (compared : Compared text sheet bare) {op : Operator} (sign : IsSign op.char)
    (fresh : sheet.repeats op = false) (again : bare.repeats op = true)
    (harmful : ¬Harmless (text ++ [op.char])) :
    Compared (text ++ [op.char]) (sheet.step op.char) (bare.step op.char) := by
  have signed : Sheet.isSign op.char = true := by simpa [Sheet.isSign, IsSign] using sign
  have more := Sheet.signs_symbol sheet (.operator op)
  have kept := Sheet.signs_symbol bare (.operator op)
  simp only [Sheet.begins, fresh, again, Waiting.char, signed] at more kept
  exact compared.part harmful (Sheet.operandWords_symbol sheet (.operator op))
    (fun operand => absurd operand sign.operator.not_operand) (.inr
      ⟨Sheet.operandWords_symbol bare (.operator op), kept, more⟩)

theorem grown (compared : Compared text sheet bare) (operand : IsOperand c)
    (inside : sheet.inOperand = true ∧ bare.inOperand = true) (begun : ∃ d ∈ text, IsOperand d)
    (harmless : Harmless (text ++ [c]) ↔ Harmless text) :
    Compared (text ++ [c]) (sheet.step c) (bare.step c) := by
  have positive := compared.begun begun
  have fewer := compared.fewer
  have joined := Sheet.operandWords_joined operand inside.1 (Sheet.words_of_operandWords positive)
  refine compared.keep 0 0 harmless ?_ ⟨joined, ?_⟩
    ⟨Sheet.signs_operand operand _, Sheet.signs_operand operand _⟩ fun _ => by omega
  · rintro ⟨words, waiting⟩
    obtain ⟨same, joins⟩ := Sheet.operand_words operand sheet
    obtain ⟨same', joins'⟩ := Sheet.operand_words operand bare
    rw [same, same', joins, joins', if_pos inside.1, if_pos inside.2, words]
    exact ⟨rfl, waiting⟩
  · exact Sheet.operandWords_joined operand inside.2 (Sheet.words_of_operandWords (by omega))

/-- A new operand, on the sheet with the blanks perhaps the first of all words. -/
theorem starts (compared : Compared text sheet bare) (operand : IsOperand c)
    (outside : sheet.inOperand = false ∨ sheet.words = []) (apart : bare.inOperand = false)
    (harmless : Harmless (text ++ [c]) ↔ Harmless text) :
    Compared (text ++ [c]) (sheet.step c) (bare.step c) := by
  have added := Sheet.words_begun operand outside
  have added' := Sheet.words_begun operand (.inl apart)
  have words := Sheet.operandWords_begun operand outside
  refine compared.keep 1 0 harmless ?_ ⟨words, Sheet.operandWords_begun operand (.inl apart)⟩
    ⟨Sheet.signs_operand operand _, Sheet.signs_operand operand _⟩ fun _ => by omega
  rintro ⟨words, waiting⟩
  rw [added, added', words, (Sheet.operand_words operand sheet).1,
    (Sheet.operand_words operand bare).1]
  exact ⟨rfl, waiting⟩

/-- An operand that joins the word before it behind a blank. -/
theorem joined (compared : Compared text sheet bare) (operand : IsOperand c)
    (inside : sheet.inOperand = true) (apart : bare.inOperand = false)
    (begun : ∃ d ∈ text, IsOperand d) (harmful : ¬Harmless (text ++ [c])) :
    Compared (text ++ [c]) (sheet.step c) (bare.step c) := by
  have stands := Sheet.words_of_operandWords (compared.begun begun)
  exact compared.part harmful (Sheet.operandWords_joined operand inside stands) (fun _ => begun)
    (.inl ⟨Sheet.operandWords_begun operand (.inl apart), Sheet.signs_operand operand _,
      Sheet.signs_operand operand _⟩)

end Compared

section Steps

variable {text : List Char} {place : Place} {c : Char}

/-- A hard blank stands at the end, or the sheets agree on what does. -/
theorem Scan.blank_or_alike (scan : Scan text place) :
    (∃ front t, text = front ++ [t] ∧ IsHard t ∧ (Sheet.read text).last? = some t) ∨
      (∀ t ∈ text.getLast?, ¬IsHard t) ∧
        (Sheet.read text).last? = (Sheet.read (compact text)).last? := by
  by_cases found : ∃ t, text.getLast? = some t ∧ IsHard t
  · obtain ⟨t, last, hard⟩ := found
    obtain ⟨front, rfl⟩ := List.getLast?_eq_some_iff.mp last
    refine .inl ⟨front, t, rfl, hard, ?_⟩
    rw [Sheet.read_concat, Sheet.step_last hard.2]
  · have soft : ∀ t ∈ text.getLast?, ¬IsHard t := by
      intro t last hard
      exact found ⟨t, last, hard⟩
    exact .inr ⟨soft, scan.last_read soft⟩

theorem Scan.behind_compact (scan : Scan text place) :
    place.Behind (Sheet.read (compact text)).last? := by
  rw [Sheet.last_compact]
  exact scan.behind

/-- An operand begins. Behind a hard blank it joins the last word, if there is one. -/
theorem Scan.compared_begun (scan : Scan text place)
    (compared : Compared text (Sheet.read text) (Sheet.read (compact text)))
    (incomplete : place.complete = false) (operand : IsOperand c) :
    Compared (text ++ [c]) ((Sheet.read text).step c) ((Sheet.read (compact text)).step c) := by
  have apart := Sheet.outside_of_symbol (scan.behind_compact.symbol incomplete)
  rcases scan.blank_or_alike with ⟨front, t, rfl, hard, last⟩ | ⟨soft, last⟩
  · cases leading : place.leading with
    | true =>
      have none : ¬∃ d ∈ front ++ [t], IsOperand d := by
        rw [← scan.leading_iff, leading]
        nofun
      have unwritten := (scan.unwritten leading).1
      exact compared.starts operand (.inr unwritten) apart (harmless_first none operand)
    | false =>
      have inside := Sheet.inside_of_other last hard.1.no_symbol
      have harmful := scan.harmful_operand hard incomplete leading operand
      exact compared.joined operand inside apart (scan.leading_iff.mp leading) harmful
  · have outside := (Sheet.inOperand_congr last).trans apart
    exact compared.starts operand (.inl outside) apart (harmless_soft soft)

theorem Scan.compared_grown {run : Run} (scan : Scan text place)
    (compared : Compared text (Sheet.read text) (Sheet.read (compact text)))
    (source : place = .first run ∨ place = .later run) (operand : IsOperand c) :
    Compared (text ++ [c]) ((Sheet.read text).step c) ((Sheet.read (compact text)).step c) := by
  obtain ⟨d, bareLast, has⟩ := scan.behind_compact.inside source
  have other := has.isOperand.no_symbol
  rcases scan.blank_or_alike with ⟨front, t, rfl, hard, _⟩ | ⟨soft, last⟩
  · have ended := scan.last t List.getLast?_concat
    have inside : IsOperand t := by
      rcases source with rfl | rfl <;> exact Run.Has.isOperand ended
    exact absurd inside hard.1.not_operand
  · have begun : ∃ d ∈ text, IsOperand d := by
      rw [← scan.leading_iff]
      rcases source with rfl | rfl <;> rfl
    have inside := Sheet.inside_of_other (last.trans bareLast) other
    have inside' := Sheet.inside_of_other bareLast other
    exact compared.grown operand ⟨inside, inside'⟩ begun (harmless_soft soft)

/-- Behind another operator a hard blank keeps a sign from repeating it. -/
theorem Scan.compared_operator (op : Operator) (scan : Scan text place)
    (compared : Compared text (Sheet.read text) (Sheet.read (compact text))) :
    Compared (text ++ [op.char]) ((Sheet.read text).step op.char)
      ((Sheet.read (compact text)).step op.char) := by
  have other := (IsOperator.char op).not_operand
  rcases scan.blank_or_alike with ⟨front, t, rfl, hard, last⟩ | ⟨soft, last⟩
  · have fresh := @IsHard.fresh t hard _ op last
    by_cases again : (Sheet.read (compact (front ++ [t]))).repeats op = true
    · obtain ⟨sign, same⟩ := Sheet.repeats_iff.mp again
      apply compared.parted sign fresh again
      intro calm
      rw [Sheet.last_compact] at same
      exact ((scan.harmless_sign hard sign).mp calm).2 same
    · have calm : Harmless (front ++ [t] ++ [op.char]) ↔ Harmless (front ++ [t]) := by
        by_cases sign : IsSign op.char
        · rw [Sheet.repeats_iff, Sheet.last_compact, and_iff_right sign] at again
          exact (scan.harmless_sign hard sign).trans (and_iff_left again)
        · exact harmless_other sign other
      refine compared.symbol (s := .operator op) other ?_ calm
      rintro _ ⟨⟩
      rw [fresh, Bool.eq_false_iff.mpr again]
  · refine compared.symbol (s := .operator op) other ?_ (harmless_soft soft)
    rintro _ ⟨⟩
    exact Sheet.repeats_congr last op

end Steps

theorem Scan.compared {text : List Char} {place : Place} (scan : Scan text place) :
    Compared text (Sheet.read text) (Sheet.read (compact text)) := by
  induction scan with
  | start =>
    constructor
    · intro _
      exact ⟨rfl, rfl⟩
    · simp
    · exact Nat.le_refl _
    · exact Nat.le_refl _
    · intro _ _ before d blank e behind split
      simp at split
  | @next text place next c scan move ih =>
    rw [Sheet.read_concat]
    cases move.effect with
    | blank blank _ _ =>
      rw [compact_blank blank]
      exact ih.blank blank
    | bracket bracket _ _ =>
      rw [compact_solid bracket.solid, Sheet.read_concat]
      have other := bracket.not_operand
      have harmless := @harmless_other text c (fun sign => bracket.not_operator sign.operator) other
      rcases bracket with rfl | rfl
      · exact ih.symbol (s := .opening) other nofun harmless
      · exact ih.symbol (s := .closing) other nofun harmless
    | begun incomplete has _ =>
      rw [compact_solid has.isOperand.solid, Sheet.read_concat]
      exact scan.compared_begun ih incomplete has.isOperand
    | grown source has =>
      rw [compact_solid has.isOperand.solid, Sheet.read_concat]
      exact scan.compared_grown ih source has.isOperand
    | operator _ operator _ =>
      obtain ⟨op, rfl⟩ := operator.exists_char
      rw [compact_solid operator.solid, Sheet.read_concat]
      exact scan.compared_operator op ih
    | sign _ sign _ =>
      obtain ⟨op, rfl⟩ := sign.operator.exists_char
      rw [compact_solid sign.operator.solid, Sheet.read_concat]
      exact scan.compared_operator op ih

/-- An accepted text is accepted with spaces for all its blanks too, and is converted
alike exactly if none of the blanks does harm. Then it has the same values. -/
theorem soften_iff_harmless {text : List Char} (accepted : accepts text = true) :
    accepts (soften text) = true ∧
      (words (ofInfix (soften text)) = words (ofInfix text) ↔ Harmless (withLeadingZero text)) ∧
      (Harmless (withLeadingZero text) →
        ∀ table, value table (soften text) = value table text) := by
  have softAccepted : accepts (soften text) = true := (accepts_soften text).trans accepted
  obtain ⟨place, _, scan⟩ := scan_of_accepts accepted
  have compared := scan.compared
  have alike : words (ofInfix (soften text)) = words (ofInfix text) ↔
      Harmless (withLeadingZero text) := by
    rw [words_ofInfix, words_ofInfix, ← Sheet.read_withLeadingZero, ← Sheet.read_withLeadingZero,
      withLeadingZero_soften accepted, read_soften]
    constructor
    · intro same
      apply compared.harmless
      · rw [Sheet.operandWords, Sheet.operandWords, same]
      · rw [Sheet.signs, Sheet.signs, same]
    · intro harmless
      obtain ⟨words, waiting⟩ := compared.same harmless
      rw [Sheet.finish, Sheet.finish, words, waiting]
  refine ⟨softAccepted, alike, ?_⟩
  intro harmless table
  rw [value, value, if_pos softAccepted, if_pos accepted, Postfix.value, Postfix.value,
    alike.mpr harmless]

/-- A line feed before an operand does harm, a tab before a sign does none. -/
theorem soften_iff_harmless_feed :
    let feed := ['1', '*', '\n', '2']
    let tab := ['1', '\t', '+', '2']
    (accepts feed = true ∧ accepts (soften feed) = true ∧ ¬Harmless (withLeadingZero feed) ∧
      words (ofInfix (soften feed)) ≠ words (ofInfix feed)) ∧
    (accepts tab = true ∧ soften tab = ['1', ' ', '+', '2'] ∧ Harmless (withLeadingZero tab) ∧
      ∀ table, value table (soften tab) = value table tab) := by
  intro feed tab
  have acceptedFeed : accepts feed = true := rfl
  have acceptedTab : accepts tab = true := rfl
  obtain ⟨softFeed, alikeFeed, _⟩ := soften_iff_harmless acceptedFeed
  obtain ⟨_, alikeTab, valued⟩ := soften_iff_harmless acceptedTab
  -- the feed stands between the operator and an operand behind another one
  have harmful : ¬Harmless (withLeadingZero feed) := by
    intro harmless
    have operand {c : Char} (digit : c.isDigit = true) : IsOperand c := .inl digit
    have splits : Splits ['1'] '*' '2' :=
      .inr ⟨.inr (.inl rfl), operand rfl, '1', List.mem_singleton_self _, operand rfl⟩
    exact harmless ['1'] '*' '\n' '2' [] rfl ⟨rfl, by decide⟩ splits
  have alike : words (ofInfix (soften tab)) = words (ofInfix tab) := by decide +kernel
  have harmless := alikeTab.mp alike
  exact ⟨⟨acceptedFeed, softFeed, harmful, mt alikeFeed.mp harmful⟩, acceptedTab, rfl, harmless,
    valued harmless⟩

/-- Behind a tab an operand joins the one before the operator. -/
theorem value_tab :
    accepts ['1', '+', '\t', '2'] = true ∧ value ∅ ['1', '+', '\t', '2'] = .ok 12 ∧
      value ∅ (soften ['1', '+', '\t', '2']) = .ok 3 :=
  ⟨rfl, rfl, rfl⟩

end Reckoner.Infix
