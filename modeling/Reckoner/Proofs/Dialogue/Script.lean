import Reckoner.Proofs.Dialogue.Assigning
import Reckoner.Proofs.Text.Lines

/-! A run over bytes as a dialogue: it replies to the lines before the first piece that ends it
and to no other, and prints what they are replied to with. -/
namespace Reckoner

namespace Dialogue

variable {table : Table} {line other : List Char}

/-- Of a line no more than the trimmed text counts. -/
theorem respond_congr (same : Text.trim line = Text.trim other) (table : Table) :
    respond table line = respond table other := by
  simp only [respond, Request.ofLine, same]

theorem ofLine_exit : Request.ofLine line = .command (some .exit) ↔
    Text.trim line = ['/', 'e', 'x', 'i', 't'] := by
  constructor
  · intro asked
    rw [Request.ofLine] at asked
    split at asked
    · cases asked
    · next rest trimmed =>
      rw [trimmed]
      simp only [Command.ofWord?, Request.command.injEq] at asked
      split at asked
      · assumption
      · split at asked <;> cases asked
    · split at asked <;> cases asked
  · intro trimmed
    rw [Request.ofLine, trimmed]
    rfl

/-- Only the command to end is replied to by a farewell. -/
theorem respond_farewell : (respond table line).1 = .farewell ↔
    Text.trim line = ['/', 'e', 'x', 'i', 't'] := by
  rw [← ofLine_exit]
  cases asked : Request.ofLine line with
  | nothing => simp [respond, asked]
  | command known =>
    cases known with
    | none => simp [respond, asked, Reply.ofCommand]
    | some command => cases command <;> simp [respond, asked, Reply.ofCommand]
  | assignment text =>
    cases done : (Assignment.perform table text).1 <;>
      simp [respond, asked, done, Reply.ofAssignment]
  | expression text =>
    cases result : Infix.value table text <;> simp [respond, asked, result, Reply.ofValue]

theorem printed_cons (reply : Reply) (rest : List Reply) :
    printed (reply :: rest) = reply.printed ++ printed rest := by
  cases reply <;> simp [printed, Reply.printed]

end Dialogue

namespace Transcript
open Dialogue

variable {table : Table} {line : List Char}

theorem ofLines_exit (exit : Text.trim line = ['/', 'e', 'x', 'i', 't'])
    (rest : List (Option (List Char))) :
    ofLines table (some line :: rest) = ended .farewell table := by
  obtain ⟨changed, answered⟩ : ∃ changed, respond table line = (.farewell, changed) :=
    ⟨_, Prod.ext (respond_farewell.mpr exit) rfl⟩
  simp [ofLines, Turn.ofLine, answered]

theorem ofLines_cons (goes : Text.trim line ≠ ['/', 'e', 'x', 'i', 't'])
    (rest : List (Option (List Char))) :
    ofLines table (some line :: rest) =
      (ofLines (respond table line).2 rest).after (respond table line).1.printed := by
  have spoken : (respond table line).1 ≠ .farewell := mt respond_farewell.mp goes
  cases answered : respond table line with
  | mk reply changed =>
    rw [answered] at spoken
    cases reply with
    | farewell => exact absurd rfl spoken
    | _ => simp [ofLines, Turn.ofLine, answered]

/-- The lines up to the one that ends the run are replied to, and nothing of what is behind
them matters. -/
theorem ofLines_pieces (table : Table) (all : List (List UInt8)) :
    ∃ executed rest ending, all = executed.map Text.encode ++ rest ∧
      (∀ line ∈ executed, Text.trim line ≠ ['/', 'e', 'x', 'i', 't']) ∧
      Ending.OfRest rest ending ∧
      ofLines table (all.map Text.decode) =
        ⟨printed (replies table executed) ++ ending.printed, ending, tableAfter table executed⟩ := by
  induction all generalizing table with
  | nil => exact ⟨[], [], .farewell, rfl, by simp, .finished, rfl⟩
  | cons piece others ih =>
    cases decoded : Text.decode piece with
    | none =>
      refine ⟨[], piece :: others, .unreadable, rfl, by simp, ?_, ?_⟩
      · exact .stopped (.unreadable (Text.decode_eq_none.mp decoded))
      · rw [List.map_cons, decoded]
        rfl
    | some line =>
      obtain rfl := Text.decode_eq_some.mp decoded
      by_cases exit : Text.trim line = ['/', 'e', 'x', 'i', 't']
      · refine ⟨[], Text.encode line :: others, .farewell, rfl, by simp, .stopped (.exit exit), ?_⟩
        rw [List.map_cons, decoded, ofLines_exit exit]
        rfl
      · obtain ⟨executed, rest, ending, split, goes, ends, same⟩ := ih (respond table line).2
        refine ⟨line :: executed, rest, ending, ?_, ?_, ends, ?_⟩
        · rw [split, List.map_cons, List.cons_append]
        · exact List.forall_mem_cons.mpr ⟨exit, goes⟩
        · rw [List.map_cons, decoded, ofLines_cons exit, same, after, replies, printed_cons,
            List.append_assoc]
          rfl

/-- Lines behind one that ends the run are never read. -/
theorem ofLines_stopped {front : List (List UInt8)}
    (stops : ∃ piece ∈ front, ∃ ending, Ending.OfPiece piece ending)
    (tail other : List (Option (List Char))) :
    ofLines table (front.map Text.decode ++ tail) =
      ofLines table (front.map Text.decode ++ other) := by
  induction front generalizing table with
  | nil => simp at stops
  | cons piece rest ih =>
    rw [List.map_cons, List.cons_append, List.cons_append]
    cases decoded : Text.decode piece with
    | none => rfl
    | some line =>
      by_cases exit : Text.trim line = ['/', 'e', 'x', 'i', 't']
      · rw [ofLines_exit exit, ofLines_exit exit]
      · rw [ofLines_cons exit, ofLines_cons exit, ih]
        obtain ⟨stop, member, ending, ends⟩ := stops
        rcases List.mem_cons.mp member with rfl | member
        · -- this piece is a line other than the command to end
          cases ends with
          | exit exits =>
            obtain rfl : _ = line :=
              Option.some.inj ((Text.decode_eq_some.mpr rfl).symm.trans decoded)
            exact absurd exits exit
          | unreadable unread => exact absurd (Text.decode_eq_some.mp decoded) (unread line)
        · exact ⟨stop, member, ending, ends⟩

theorem ofLines_front {first second : List (Option (List Char))}
    (same : ∀ table, ofLines table first = ofLines table second)
    (front : List (Option (List Char))) :
    ofLines table (front ++ first) = ofLines table (front ++ second) := by
  induction front generalizing table with
  | nil => exact same table
  | cons line rest ih =>
    simp only [List.cons_append, ofLines]
    split
    · simp only [ih]
    · rfl

theorem ofLines_middle {first second : Option (List Char)}
    (same : ∀ table, Turn.ofLine table first = Turn.ofLine table second)
    (front behind : List (Option (List Char))) :
    ofLines table (front ++ first :: behind) = ofLines table (front ++ second :: behind) :=
  ofLines_front (fun table => by simp only [ofLines, same]) front

/-- The table behind bytes cut at one of their line feeds. -/
theorem ofBytes_feed (front behind : List UInt8) :
    ofBytes table (front ++ 10 :: behind) =
      ofLines table ((front.splitOn 10).map Text.decode ++ Text.linesOfBytes behind) := by
  rw [ofBytes, Text.linesOfBytes, Text.pieces_append_separator, List.map_append]
  rfl

theorem ofBytes_return (front behind : List UInt8) :
    ofBytes table (front ++ 13 :: 10 :: behind) = ofBytes table (front ++ 10 :: behind) := by
  obtain ⟨others, last, split, grown⟩ := Text.splitOn_concat 10 front
  have whole : front ++ 13 :: 10 :: behind = (front ++ [13]) ++ 10 :: behind := by simp
  have same (table : Table) : Turn.ofLine table (Text.decode (last ++ [13])) =
      Turn.ofLine table (Text.decode last) := by
    rw [Text.decode_return]
    cases Text.decode last with
    | none => rfl
    | some line =>
      rw [Option.map_some, Turn.ofLine, Turn.ofLine,
        respond_congr (Text.trim_concat_blank (c := '\r') (by decide) line)]
  rw [whole, ofBytes_feed, ofBytes_feed, grown 13 (by decide), split]
  simp only [List.map_append, List.map_cons, List.map_nil, List.append_assoc, List.cons_append,
    List.nil_append]
  exact ofLines_middle same _ _

theorem ofBytes_returned {input other : List UInt8} (returned : Text.Returned input other)
    (front : List UInt8) : ofBytes table (front ++ other) = ofBytes table (front ++ input) := by
  induction returned generalizing front with
  | nil => rfl
  | same byte _ ih => simpa using ih (front ++ [byte])
  | feed _ ih =>
    have behind := ih (front ++ [10])
    rw [List.append_assoc, List.append_assoc] at behind
    exact (ofBytes_return ..).trans behind

/-- A run over bytes, for any table to begin with: the lines before the first piece that ends it
are replied to in order, and their replies and the farewell are all that is printed. Bytes behind
that piece and carriage returns before line feeds are of no account. -/
theorem ofBytes_dialogue (table : Table) (input : List UInt8) :
    (∃ executed rest ending,
      Text.Cut 10 input (executed.map Text.encode ++ rest) ∧
      (∀ line ∈ executed, Text.trim line ≠ ['/', 'e', 'x', 'i', 't']) ∧
      Ending.OfRest rest ending ∧
      ofBytes table input =
        ⟨printed (replies table executed) ++
            (if ending = .farewell then ['B', 'y', 'e', '!', '\n'] else []),
          ending, tableAfter table executed⟩) ∧
    (∀ front all, Text.Cut 10 (front ++ [10]) all →
      (∃ piece ∈ all, ∃ ending, Ending.OfPiece piece ending) →
      ∀ tail other, ofBytes table (front ++ 10 :: tail) = ofBytes table (front ++ 10 :: other)) ∧
    ∀ other, Text.Returned input other → ofBytes table other = ofBytes table input := by
  refine ⟨?_, ?_, ?_⟩
  · obtain ⟨executed, rest, ending, split, goes, ends, same⟩ :=
      ofLines_pieces table (Text.pieces 10 input)
    refine ⟨executed, rest, ending, split ▸ Text.cut_pieces 10 input, goes, ends, ?_⟩
    rw [ofBytes, Text.linesOfBytes, same]
    cases ending <;> rfl
  · intro front all cut stops tail other
    have pieces : front.splitOn 10 = all := by
      rw [← Text.pieces_of_cut cut, Text.pieces_append_separator]
      simp [Text.pieces]
    rw [ofBytes_feed, ofBytes_feed, pieces]
    exact ofLines_stopped stops _ _
  · intro other returned
    exact ofBytes_returned returned []

/-- Behind the command to end even bytes that are no text do no harm. -/
theorem ofBytes_dialogue_exit :
    Text.Cut (10 : UInt8) ([49, 10, 47, 101, 120, 105, 116] ++ [10])
        [[49], [47, 101, 120, 105, 116]] ∧
      Ending.OfPiece [47, 101, 120, 105, 116] .farewell ∧ Text.Returned [49, 10] [49, 13, 10] ∧
      ofBytes ∅ ([49, 10, 47, 101, 120, 105, 116] ++ 10 :: [255]) =
        ofBytes ∅ ([49, 10, 47, 101, 120, 105, 116] ++ 10 :: []) ∧
      ofBytes ∅ [49, 13, 10] = ofBytes ∅ [49, 10] := by
  have last : Text.Cut (10 : UInt8) [47, 101, 120, 105, 116, 10] [[47, 101, 120, 105, 116]] :=
    @Text.Cut.ended _ 10 [47, 101, 120, 105, 116] _ _ (by decide) .nil
  have cut : Text.Cut (10 : UInt8) ([49, 10, 47, 101, 120, 105, 116] ++ [10])
      [[49], [47, 101, 120, 105, 116]] :=
    @Text.Cut.ended _ 10 [49] _ _ (by decide) last
  have exit : Ending.OfPiece [47, 101, 120, 105, 116] .farewell :=
    @Ending.OfPiece.exit ['/', 'e', 'x', 'i', 't'] rfl
  have returned : Text.Returned [49, 10] [49, 13, 10] := .same 49 (.feed .nil)
  obtain ⟨_, unread, _⟩ := ofBytes_dialogue ∅ []
  obtain ⟨_, _, carriage⟩ := ofBytes_dialogue ∅ [49, 10]
  exact ⟨cut, exit, returned, unread _ _ cut ⟨_, by simp, _, exit⟩ [255] [], carriage _ returned⟩

end Transcript
end Reckoner
