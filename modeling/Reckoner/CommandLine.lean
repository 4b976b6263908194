import Reckoner.Dialogue.Transcript

/-! The program as a function of its arguments and its standard input. -/
namespace Reckoner.CommandLine

/-- What a finished program has printed, and its exit code. -/
structure Outcome where
  stdout : List Char
  stderr : List Char
  code : UInt8
  deriving DecidableEq, Repr

/-- A run that stops at an unreadable line says so and fails. -/
def Outcome.ofEnding (output : List Char) (ending : Ending) : Outcome :=
  match ending.message? with
  | none => ⟨output, [], 0⟩
  | some message => ⟨output, message.toList ++ ['\n'], 1⟩

/-- Arguments are lines typed in advance. -/
def transcript (arguments : List (List Char)) (input : List UInt8) : Transcript :=
  if arguments.isEmpty then .ofBytes ∅ input
  else .ofText ∅ (['\n'].intercalate arguments)

/-- Only without arguments does the standard input count. -/
def run (arguments : List (List Char)) (input : List UInt8) : Outcome :=
  let done := transcript arguments input
  .ofEnding done.output done.ending

end Reckoner.CommandLine
