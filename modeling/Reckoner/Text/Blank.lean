/-! Blank characters, the cutting of text at them, and the runs of characters
of any one class. Texts are lists of characters, so that a scan is a recursion
on the data. Two classes of blanks are kept apart: the white space of Unicode,
which lines are trimmed of and words are cut at, and its six members in ASCII. -/
namespace Reckoner.Text

/-- Tab, line feed, vertical tab, form feed, carriage return and space. -/
def isNarrowBlank (c : Char) : Bool :=
  (0x9 ≤ c.toNat && c.toNat ≤ 0xD) || c.toNat = 0x20

/-- White space as Unicode's property White_Space has it. -/
def isBlank (c : Char) : Bool :=
  isNarrowBlank c || c.toNat = 0x85 || c.toNat = 0xA0 || c.toNat = 0x1680 ||
    (0x2000 ≤ c.toNat && c.toNat ≤ 0x200A) || c.toNat = 0x2028 || c.toNat = 0x2029 ||
    c.toNat = 0x202F || c.toNat = 0x205F || c.toNat = 0x3000

theorem isBlank_of_isNarrowBlank {c : Char} (narrow : isNarrowBlank c = true) :
    isBlank c = true := by
  simp [isBlank, narrow]

/-- The text without the blanks at either end. -/
def trim (text : List Char) : List Char :=
  ((text.dropWhile isBlank).reverse.dropWhile isBlank).reverse

/-- The longest runs of characters that are not blank, in order. -/
def words (text : List Char) : List (List Char) :=
  (text.splitOnP isBlank).filter (!·.isEmpty)

/-- The longest runs of characters that are inside the class, in order. -/
def runs (inside : Char → Bool) (text : List Char) : List (List Char) :=
  (text.splitOnP (!inside ·)).filter (!·.isEmpty)

@[simp] theorem words_nil : words [] = [] := by
  simp [words, List.splitOnP_nil]

theorem words_append_blank {c : Char} (blank : isBlank c = true) (before behind : List Char) :
    words (before ++ c :: behind) = words before ++ words behind := by
  rw [words, List.splitOnP_append_cons before behind blank, List.filter_append]
  rfl

theorem words_of_no_blank {word : List Char} (occupied : word ≠ [])
    (solid : ∀ c ∈ word, isBlank c = false) : words word = [word] := by
  simp [words, List.splitOnP_eq_singleton solid, occupied]

end Reckoner.Text
