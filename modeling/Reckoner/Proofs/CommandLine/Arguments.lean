import Reckoner.CommandLine
import Reckoner.Proofs.Dialogue.Script

/-! Runs over arguments. What is joined by line feeds is cut at them again, so the lines of such
a run are the pieces of its arguments, but for an empty one at the end, which is silent as any
blank line is. -/
namespace Reckoner

namespace Transcript
open Dialogue

variable {table : Table} {line : List Char}

theorem ofLines_blank (blank : Text.trim line = []) (rest : List (Option (List Char))) :
    ofLines table (some line :: rest) = ofLines table rest := by
  have silent : respond table line = (.silent, table) := by
    simp only [respond, Request.ofLine, blank]
  have goes : Text.trim line ≠ ['/', 'e', 'x', 'i', 't'] := by simp [blank]
  simp only [ofLines_cons goes, silent]
  rfl

theorem untilExit_exit (exit : Text.trim line = ['/', 'e', 'x', 'i', 't'])
    (front behind : List (List Char)) :
    untilExit (front ++ line :: behind) = untilExit front := by
  have stops (rest : List (List Char)) : untilExit (line :: rest) = [] :=
    List.takeWhile_cons_of_neg (by simp [exit])
  rw [untilExit, List.takeWhile_append]
  split
  · next whole =>
    have all : untilExit front = front := (List.takeWhile_prefix _).eq_of_length whole
    exact (congrArg (front ++ ·) (stops behind)).trans (by simp [all])
  · rfl

/-- A text is run by its stretches, the empty one behind a last line feed included. -/
theorem ofText_splitOn (table : Table) (text : List Char) :
    ofText table text = ofLines table ((text.splitOn '\n').map some) := by
  obtain ⟨others, last, split⟩ :=
    (List.eq_nil_or_concat (text.splitOn '\n')).resolve_left (by simp)
  simp only [ofText, Text.lines, Text.pieces, split, List.concat_eq_append, List.getLast?_concat,
    List.dropLast_concat, Option.any_some]
  split
  · next empty =>
    have none : last = [] := List.isEmpty_iff.mp empty
    have kept : ofLines table (others.map some ++ [some []]) = ofLines table (others.map some ++ []) :=
      ofLines_front (fun table => ofLines_blank rfl []) _
    simpa [none] using kept.symm
  · rfl

/-- Lines that are all text are replied to up to the one that ends the run. -/
theorem ofLines_script (table : Table) (lines : List (List Char)) :
    ofLines table (lines.map some) =
      ⟨spoken table lines, .farewell, tableAfter table (untilExit lines)⟩ := by
  induction lines generalizing table with
  | nil => rfl
  | cons line rest ih =>
    by_cases exit : Text.trim line = ['/', 'e', 'x', 'i', 't']
    · have none : untilExit (line :: rest) = [] := untilExit_exit exit [] rest
      rw [List.map_cons, ofLines_exit exit, spoken, none]
      rfl
    · have kept : untilExit (line :: rest) = line :: untilExit rest :=
        List.takeWhile_cons_of_pos (by simpa using exit)
      rw [List.map_cons, ofLines_cons exit, ih, after, spoken, spoken, kept, replies, printed_cons,
        List.append_assoc]
      rfl

/-- A text is run as its bytes are. -/
theorem ofBytes_encode (table : Table) (text : List Char) :
    ofBytes table (Text.encode text) = ofText table text := by
  rw [ofBytes, Text.linesOfBytes_encode, ofText]

end Transcript

namespace CommandLine
open Dialogue Transcript

variable {arguments : List (List Char)}

theorem pieces_append (front behind : List (List Char)) :
    pieces (front ++ behind) = pieces front ++ pieces behind :=
  List.flatMap_append

theorem transcript_bytes (given : arguments ≠ []) (input : List UInt8) :
    transcript arguments input = ofBytes ∅ (Text.encode (['\n'].intercalate arguments)) := by
  have some : ¬arguments.isEmpty = true := by simpa using given
  rw [transcript, if_neg some, ofBytes_encode]

theorem transcript_arguments (given : arguments ≠ []) (input : List UInt8) :
    transcript arguments input = ofLines ∅ ((pieces arguments).map some) := by
  rw [transcript_bytes given, ofBytes_encode, ofText_splitOn, Text.splitOn_join '\n' given, pieces]

theorem run_pieces (given : arguments ≠ []) (input : List UInt8) :
    run arguments input = ⟨spoken ∅ (pieces arguments), [], 0⟩ := by
  simp only [run, transcript_arguments given, ofLines_script]
  rfl

theorem spoken_blank (front behind : List (List Char)) :
    spoken ∅ (front ++ [] :: behind) = spoken ∅ (front ++ behind) := by
  have same : ofLines ∅ (front.map some ++ some [] :: behind.map some) =
      ofLines ∅ (front.map some ++ behind.map some) :=
    ofLines_front (fun table => ofLines_blank rfl _) _
  simpa only [← List.map_cons, ← List.map_append, ofLines_script] using congrArg Transcript.output same

/-- A carriage return at the end of a piece is trimmed away with it. -/
theorem transcript_return (front behind : List (List Char)) (argument : List Char)
    (input : List UInt8) :
    transcript (front ++ (argument ++ ['\r']) :: behind) input =
      transcript (front ++ argument :: behind) input := by
  obtain ⟨others, last, split, grown⟩ := Text.splitOn_concat '\n' argument
  have same (table : Table) : Turn.ofLine table (some (last ++ ['\r'])) =
      Turn.ofLine table (some last) := by
    have trimmed : Text.trim (last ++ ['\r']) = Text.trim last := Text.trim_concat_blank (by decide) last
    simp only [Turn.ofLine, respond_congr trimmed]
  have moved := @ofLines_middle ∅ _ _ same ((pieces front ++ others).map some) ((pieces behind).map some)
  rw [transcript_arguments (by simp), transcript_arguments (by simp)]
  simpa [pieces, split, grown '\r' (by decide)] using moved

/-- Arguments are a new dialogue over all their pieces, whatever there is to read besides. It
ends at the first piece that asks for it and never fails, and it is the one over the bytes of
the arguments joined by line feeds. Arguments without text, carriage returns at their ends and
pieces behind the end make no difference. -/
theorem run_arguments (given : arguments ≠ []) (input : List UInt8) :
    run arguments input = ⟨spoken ∅ (pieces arguments), [], 0⟩ ∧
      transcript arguments input = ofBytes ∅ (Text.encode (['\n'].intercalate arguments)) ∧
      (∀ front behind, arguments = front ++ [] :: behind →
        run arguments input = ⟨spoken ∅ (pieces (front ++ behind)), [], 0⟩) ∧
      (∀ front argument behind, arguments = front ++ (argument ++ ['\r']) :: behind →
        run arguments input = run (front ++ argument :: behind) input) ∧
      ∀ front line behind, pieces arguments = front ++ line :: behind →
        Text.trim line = ['/', 'e', 'x', 'i', 't'] →
        run arguments input = ⟨spoken ∅ front, [], 0⟩ := by
  refine ⟨run_pieces given input, transcript_bytes given input, ?_, ?_, ?_⟩
  · rintro front behind rfl
    have blank : pieces (front ++ [] :: behind) = pieces front ++ [] :: pieces behind := by
      simp [pieces]
    rw [run_pieces given, blank, spoken_blank, pieces_append]
  · rintro front argument behind rfl
    simp only [run, transcript_return]
  · intro front line behind split exit
    rw [run_pieces given, split, spoken, untilExit_exit exit, spoken]

/-- One argument of two lines, one with a carriage return and one that is not reached. -/
theorem run_arguments_exit :
    [['a', '=', '5'], [], ['a', '+', '1', '\n', 'a', '\r'], ['/', 'e', 'x', 'i', 't'], ['a']] ≠ [] ∧
      ∀ input, run [['a', '=', '5'], [], ['a', '+', '1', '\n', 'a', '\r'],
          ['/', 'e', 'x', 'i', 't'], ['a']] input =
        ⟨['6', '\n', '5', '\n', 'B', 'y', 'e', '!', '\n'], [], 0⟩ :=
  ⟨by simp, fun input => (run_arguments (by simp) input).1.trans rfl⟩

end CommandLine
end Reckoner
