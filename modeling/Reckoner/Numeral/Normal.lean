/-! Numerals taken apart and their normal form, told without the reader and the writer: what
the digits are worth, and the one spelling among all those of an integer that has nothing to
leave out. -/
namespace Reckoner.Numeral

/-- At most one sign, and behind it at least one digit. -/
structure Parts (text sign digits : List Char) : Prop where
  whole : text = sign ++ digits
  single : sign = [] ∨ sign = ['+'] ∨ sign = ['-']
  nonempty : digits ≠ []
  isDigits : ∀ c ∈ digits, c.isDigit = true

/-- A digit counts ten times for each digit behind it. -/
def positional : List Char → Nat
  | [] => 0
  | c :: rest => (c.toNat - '0'.toNat) * Nat.pow 10 rest.length + positional rest

/-- Without leading zeros. Zeros alone come to a single one. -/
def unpadded : List Char → List Char
  | [] => ['0']
  | c :: rest => if c = '0' then unpadded rest else c :: rest

/-- Without a plus, without leading zeros, and without the minus of a zero. -/
def normal : List Char → List Char
  | '+' :: digits => unpadded digits
  | '-' :: digits => if unpadded digits = ['0'] then ['0'] else '-' :: unpadded digits
  | digits => unpadded digits

end Reckoner.Numeral
