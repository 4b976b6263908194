import Reckoner.Numeral.Normal
import Reckoner.Proofs.Postfix.Atom

/-! Reading and writing of integers against the positional value and the normal form. What is
written is the normal form of all that reads as the integer, so equal integers are told by
equal normal forms. -/
namespace Reckoner.Numeral

variable {text digits : List Char} {value : Int} {c : Char} {n : Nat}

theorem positional_eq (digits : List Char) : positional digits = Nat.ofDigitChars 10 digits 0 := by
  induction digits with
  | nil => rfl
  | cons c rest ih =>
    rw [Nat.ofDigitChars_cons, Nat.ofDigitChars_eq_ofDigitChars_zero, positional, ih,
      Nat.mul_zero, Nat.zero_add, Nat.pow_eq, Nat.mul_comm]

theorem digits?_positional : digits? digits = some n ↔
    (digits ≠ [] ∧ ∀ c ∈ digits, c.isDigit = true) ∧ positional digits = n := by
  rw [positional_eq]
  exact Postfix.digits?_eq_some

theorem read?_parts : read? text = some value ↔ ∃ sign digits, Parts text sign digits ∧
    value = if sign = ['-'] then -(positional digits : Int) else positional digits := by
  constructor
  · intro read
    obtain ⟨n, digits, rfl⟩ | ⟨sign, word, n, rfl, digits, signed⟩ := read?_eq_some.mp read
    all_goals obtain ⟨⟨nonempty, isDigits⟩, rfl⟩ := digits?_positional.mp digits
    · exact ⟨[], text, ⟨rfl, .inl rfl, nonempty, isDigits⟩, rfl⟩
    · obtain ⟨rfl, rfl⟩ | ⟨rfl, rfl⟩ := signed
      · exact ⟨['+'], word, ⟨rfl, .inr (.inl rfl), nonempty, isDigits⟩, rfl⟩
      · exact ⟨['-'], word, ⟨rfl, .inr (.inr rfl), nonempty, isDigits⟩, rfl⟩
  · rintro ⟨sign, digits, ⟨rfl, single, nonempty, isDigits⟩, rfl⟩
    have read := digits?_positional.mpr ⟨⟨nonempty, isDigits⟩, rfl⟩
    obtain rfl | rfl | rfl := single
    · exact read?_eq_some.mpr (.inl ⟨_, read, rfl⟩)
    · exact read?_eq_some.mpr (.inr ⟨_, _, _, rfl, read, .inl ⟨rfl, rfl⟩⟩)
    · exact read?_eq_some.mpr (.inr ⟨_, _, _, rfl, read, .inr ⟨rfl, rfl⟩⟩)

/-- A digit stands as many places behind the zero as it is worth. -/
theorem toNat_of_isDigit (digit : c.isDigit = true) :
    c.toNat = 48 + (c.toNat - '0'.toNat) ∧ c.toNat - '0'.toNat < 10 := by
  have bounds := Text.isDigit_iff.mp digit
  have zero : '0'.toNat = 48 := rfl
  omega

theorem digit_positive (digit : c.isDigit = true) (nonzero : c ≠ '0') :
    0 < c.toNat - '0'.toNat := by
  obtain ⟨place, _⟩ := toNat_of_isDigit digit
  refine Nat.pos_of_ne_zero fun worthless => nonzero (Char.toNat_inj.mp ?_)
  rw [place, worthless]
  rfl

theorem toDigits_digit (digit : c.isDigit = true) : Nat.toDigits 10 (c.toNat - '0'.toNat) = [c] := by
  obtain ⟨place, small⟩ := toNat_of_isDigit digit
  have same : Nat.digitChar (c.toNat - '0'.toNat) = c :=
    Char.toNat_inj.mp ((Nat.toNat_digitChar_of_lt_ten small).trans place.symm)
  rw [Nat.toDigits_of_lt_base small, same]

/-- Behind a positive number all further digits stay as they are. -/
theorem toDigits_ofDigitChars (isDigits : ∀ c ∈ digits, c.isDigit = true) (positive : 0 < n) :
    Nat.toDigits 10 (Nat.ofDigitChars 10 digits n) = Nat.toDigits 10 n ++ digits := by
  induction digits generalizing n with
  | nil => simp
  | cons c rest ih =>
    obtain ⟨digit, others⟩ := List.forall_mem_cons.mp isDigits
    rw [Nat.ofDigitChars_cons, ih others (by omega),
      ← Nat.toDigits_append_toDigits (by decide) positive (toNat_of_isDigit digit).2,
      toDigits_digit digit, List.append_assoc, List.singleton_append]

/-- The digits that are written for a number are those it was read from, without the leading
zeros. -/
theorem toDigits_positional (isDigits : ∀ c ∈ digits, c.isDigit = true) :
    Nat.toDigits 10 (positional digits) = unpadded digits := by
  rw [positional_eq]
  induction digits with
  | nil => rfl
  | cons c rest ih =>
    obtain ⟨digit, others⟩ := List.forall_mem_cons.mp isDigits
    rw [Nat.ofDigitChars_cons, unpadded]
    split
    · next zero =>
      subst zero
      exact ih others
    · next nonzero =>
      rw [Nat.mul_zero, Nat.zero_add, toDigits_ofDigitChars others (digit_positive digit nonzero),
        toDigits_digit digit, List.singleton_append]

theorem toDigits_eq_zero : Nat.toDigits 10 n = ['0'] ↔ n = 0 := by
  constructor
  · intro written
    have back := Nat.ofDigitChars_ten_toDigits (n := n)
    rw [written] at back
    exact back.symm
  · rintro rfl
    rfl

theorem write_minus (positive : 0 < n) : write (-n) = '-' :: Nat.toDigits 10 n := by
  obtain ⟨m, rfl⟩ := Nat.exists_eq_add_one.mpr positive
  rfl

theorem normal_of_isDigit {rest : List Char} (digit : c.isDigit = true) :
    normal (c :: rest) = unpadded (c :: rest) := by
  unfold normal
  split
  · next same => cases same; exact absurd digit (by decide)
  · next same => cases same; exact absurd digit (by decide)
  · rfl

/-- An integer is written as the normal form of any text that it was read from. -/
theorem write_eq_normal (read : read? text = some value) : write value = normal text := by
  obtain ⟨sign, digits, ⟨rfl, single, nonempty, isDigits⟩, rfl⟩ := read?_parts.mp read
  have bare := toDigits_positional isDigits
  obtain rfl | rfl | rfl := single
  · obtain ⟨c, rest, rfl⟩ := List.exists_cons_of_ne_nil nonempty
    exact bare.trans (normal_of_isDigit (isDigits c List.mem_cons_self)).symm
  · exact bare
  · simp only [if_true, List.singleton_append, normal, ← bare, toDigits_eq_zero]
    split
    · next zero => rw [zero]; rfl
    · next nonzero => exact write_minus (Nat.pos_of_ne_zero nonzero)

/-- What is read is exactly at most one sign and digits behind it, as the integer that the
digits are worth at their places. The integer is written as the normal form of the text, which
reads as the same integer again, so two texts that are read are one integer exactly if they
have one normal form. -/
theorem read?_exact (text : List Char) :
    (∀ value, read? text = some value ↔ ∃ sign digits, Parts text sign digits ∧
      value = if sign = ['-'] then -(positional digits : Int) else positional digits) ∧
    (∀ value, read? text = some value →
      write value = normal text ∧ read? (normal text) = some value) ∧
    ∀ other value value', read? text = some value → read? other = some value' →
      (value = value' ↔ normal text = normal other) := by
  have again {text : List Char} {value : Int} (read : read? text = some value) :
      read? (normal text) = some value := by
    rw [← write_eq_normal read, read?_write]
  refine ⟨fun value => read?_parts, fun value read => ⟨write_eq_normal read, again read⟩, ?_⟩
  intro other value value' read read'
  constructor
  · rintro rfl
    rw [← write_eq_normal read, write_eq_normal read']
  · intro same
    have both := again read
    rw [same, again read'] at both
    exact (Option.some.inj both).symm

/-- A negative number with leading zeros, and two zeros with different signs. -/
theorem read?_exact_zeros :
    (Parts ['-', '0', '0', '7'] ['-'] ['0', '0', '7'] ∧
      read? ['-', '0', '0', '7'] = some (-7)) ∧
    (write (-7) = ['-', '7'] ∧ read? ['-', '7'] = some (-7)) ∧
    read? ['-', '0', '0'] = some 0 ∧ read? ['+', '0'] = some 0 ∧
      normal ['-', '0', '0'] = normal ['+', '0'] := by
  have parts : Parts ['-', '0', '0', '7'] ['-'] ['0', '0', '7'] :=
    ⟨rfl, .inr (.inr rfl), by simp, by simp⟩
  obtain ⟨exact, normalised, _⟩ := read?_exact ['-', '0', '0', '7']
  have read : read? ['-', '0', '0', '7'] = some (-7) := (exact _).mpr ⟨_, _, parts, rfl⟩
  obtain ⟨_, _, alike⟩ := read?_exact ['-', '0', '0']
  exact ⟨⟨parts, read⟩, normalised _ read, rfl, rfl, (alike ['+', '0'] 0 0 rfl rfl).mp rfl⟩

end Reckoner.Numeral
