/-! Decimal integers as text. Reading takes at most one sign, which need not be
a minus, and any number of leading zeros; writing gives neither, and what is
written reads back. -/
namespace Reckoner.Numeral

/-- A nonempty run of ASCII digits, read as a natural number. -/
def digits? (text : List Char) : Option Nat :=
  if text ≠ [] ∧ text.all Char.isDigit then some (Nat.ofDigitChars 10 text 0) else none

/-- An optional sign and at least one digit, with nothing around them. -/
def read? : List Char → Option Int
  | '+' :: rest => (digits? rest).map Int.ofNat
  | '-' :: rest => (digits? rest).map fun n => -Int.ofNat n
  | text => (digits? text).map Int.ofNat

/-- The digits of the magnitude, after a minus if the integer is negative. -/
def write : Int → List Char
  | .ofNat n => Nat.toDigits 10 n
  | .negSucc n => '-' :: Nat.toDigits 10 (n + 1)

theorem digits?_toDigits (n : Nat) : digits? (Nat.toDigits 10 n) = some n := by
  have digits : (Nat.toDigits 10 n).all Char.isDigit = true :=
    List.all_eq_true.mpr fun _ => Nat.isDigit_of_mem_toDigits (by decide) (by decide)
  rw [digits?, if_pos ⟨Nat.toDigits_ne_nil, digits⟩,
    Nat.ofDigitChars_toDigits (by decide) (by decide)]

/-- A text that begins with a digit has no sign to take off. -/
theorem read?_of_isDigit {c : Char} {rest : List Char} (digit : c.isDigit = true) :
    read? (c :: rest) = (digits? (c :: rest)).map Int.ofNat := by
  unfold read?
  split
  · next same => cases same; exact absurd digit (by decide)
  · next same => cases same; exact absurd digit (by decide)
  · rfl

theorem read?_write (value : Int) : read? (write value) = some value := by
  cases value with
  | negSucc n => simp [write, read?, digits?_toDigits, Int.negSucc_eq]
  | ofNat n =>
    obtain ⟨c, rest, shape⟩ := List.exists_cons_of_ne_nil (Nat.toDigits_ne_nil (n := n) (b := 10))
    have digit : c.isDigit = true :=
      Nat.isDigit_of_mem_toDigits (b := 10) (n := n) (by decide) (by decide) (by simp [shape])
    rw [write, shape, read?_of_isDigit digit, ← shape, digits?_toDigits]
    rfl

end Reckoner.Numeral
