import Reckoner.Dialogue.History
import Reckoner.Dialogue.Transcript

/-! A dialogue over bytes or arguments, told by its pieces: the lines that are replied to, one
after the other, and the piece at which it ends. -/
namespace Reckoner

namespace Text

/-- The stretches of an input between its separators. What is behind the last separator is a
stretch too, unless it is empty. -/
inductive Cut {α : Type} (separator : α) : List α → List (List α) → Prop
  | nil : Cut separator [] []
  | unended {piece : List α} : piece ≠ [] → separator ∉ piece → Cut separator piece [piece]
  | ended {piece rest : List α} {pieces : List (List α)} : separator ∉ piece →
      Cut separator rest pieces → Cut separator (piece ++ separator :: rest) (piece :: pieces)

/-- The text in UTF-8. -/
def encode (text : List Char) : List UInt8 :=
  text.flatMap String.utf8EncodeChar

/-- The same bytes with a carriage return in front of any of the line feeds. -/
inductive Returned : List UInt8 → List UInt8 → Prop
  | nil : Returned [] []
  | same {input other : List UInt8} (byte : UInt8) : Returned input other →
      Returned (byte :: input) (byte :: other)
  | feed {input other : List UInt8} : Returned input other →
      Returned (10 :: input) (13 :: 10 :: other)

end Text

namespace Dialogue

/-- The replies to the lines, each with the table that those before it leave. -/
def replies (table : Table) : List (List Char) → List Reply
  | [] => []
  | line :: rest => (respond table line).1 :: replies (respond table line).2 rest

/-- Each reply on a line of its own, and nothing for a silent one. -/
def printed (replies : List Reply) : List Char :=
  (replies.filter (· ≠ .silent)).flatMap fun reply => reply.text ++ ['\n']

/-- The lines before the first that asks for the end. -/
def untilExit (lines : List (List Char)) : List (List Char) :=
  lines.takeWhile (Text.trim · ≠ ['/', 'e', 'x', 'i', 't'])

/-- What a dialogue over these lines prints in all. -/
def spoken (table : Table) (lines : List (List Char)) : List Char :=
  printed (replies table (untilExit lines)) ++ ['B', 'y', 'e', '!', '\n']

end Dialogue

/-- A piece that ends a dialogue: the command to do so, or bytes that are no text. -/
inductive Ending.OfPiece : List UInt8 → Ending → Prop
  | exit {line : List Char} : Text.trim line = ['/', 'e', 'x', 'i', 't'] →
      OfPiece (Text.encode line) .farewell
  | unreadable {piece : List UInt8} : (∀ line, Text.encode line ≠ piece) →
      OfPiece piece .unreadable

/-- How a dialogue ends when these pieces are left: at the first of them, or because there is
none. -/
inductive Ending.OfRest : List (List UInt8) → Ending → Prop
  | finished : OfRest [] .farewell
  | stopped {piece : List UInt8} {rest : List (List UInt8)} {ending : Ending} :
      OfPiece piece ending → OfRest (piece :: rest) ending

/-- Each argument cut at its line feeds, in order. -/
def CommandLine.pieces (arguments : List (List Char)) : List (List Char) :=
  arguments.flatMap (·.splitOn '\n')

end Reckoner
