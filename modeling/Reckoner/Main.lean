import Reckoner.CommandLine

/-! The program itself. With arguments it prints what they come to; without, it
answers each line of the standard input as soon as that line is complete. -/
namespace Reckoner.Console

/-- The next line as bytes, without its line feed; `none` at the end. -/
partial def readLine (input : IO.FS.Stream) (reversed : List UInt8) :
    IO (Option (List UInt8)) := do
  match (← input.read 1).toList with
  | [] => return if reversed.isEmpty then none else some reversed.reverse
  | byte :: _ =>
    if byte = 10 then return some reversed.reverse
    readLine input (byte :: reversed)

def print (stream : IO.FS.Stream) (text : List Char) : IO Unit := do
  stream.putStr (String.ofList text)
  stream.flush

partial def converse (table : Table) : IO Ending := do
  match ← readLine (← IO.getStdin) [] with
  | none => return .farewell
  | some bytes =>
    match Turn.ofLine table (Text.decode bytes) with
    | .stop ending => return ending
    | .proceed printed changed =>
      print (← IO.getStdout) printed
      converse changed

end Reckoner.Console

open Reckoner in
def main (arguments : List String) : IO UInt32 := do
  let outcome ←
    if arguments.isEmpty then
      let ending ← Console.converse ∅
      pure (CommandLine.Outcome.ofEnding ending.printed ending)
    else
      pure (CommandLine.run (arguments.map String.toList) [])
  Console.print (← IO.getStdout) outcome.stdout
  Console.print (← IO.getStderr) outcome.stderr
  return outcome.code.toUInt32
