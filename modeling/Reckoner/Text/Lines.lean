/-! Lines of a text or of a sequence of bytes. A separator ends a line; what
follows the last separator is a line of its own unless it is empty. -/
namespace Reckoner.Text

variable {α : Type} [BEq α]

/-- The stretches between separators, without an empty one at the end. -/
def pieces (separator : α) (input : List α) : List (List α) :=
  let all := input.splitOn separator
  if all.getLast?.any List.isEmpty then all.dropLast else all

/-- The lines of a text. -/
def lines (text : List Char) : List (List Char) :=
  pieces '\n' text

/-- Strict UTF-8: `none` unless every byte belongs to an encoded character. -/
def decode (bytes : List UInt8) : Option (List Char) :=
  (String.fromUTF8? ⟨bytes.toArray⟩).map String.toList

/-- The lines of a sequence of bytes, each decoded by itself, so that bytes
which are no text spoil their own line only. A line feed is one byte, and that
byte is part of no other character. -/
def linesOfBytes (bytes : List UInt8) : List (Option (List Char)) :=
  (pieces 10 bytes).map decode

end Reckoner.Text
