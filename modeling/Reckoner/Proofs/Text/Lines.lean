import Reckoner.Dialogue.Script
import Reckoner.Proofs.Text.Words

/-! Lines of bytes. The pieces of an input are the one way of cutting it at its separators, a
piece decodes to a text exactly if it is that text in UTF-8, and a carriage return at the end
of a piece is a blank at the end of its text. -/
namespace Reckoner.Text

section Pieces

variable {α : Type} {separator : α}

theorem exists_cut (separator : α) (input : List α) : ∃ all, Cut separator input all := by
  induction input with
  | nil => exact ⟨[], .nil⟩
  | cons c rest ih =>
    obtain ⟨all, cut⟩ := ih
    by_cases same : separator = c
    · subst c
      exact ⟨[] :: all, @Cut.ended _ _ [] _ _ (by simp) cut⟩
    · -- the element joins the first piece of the rest, if there is one
      cases cut with
      | nil => exact ⟨[[c]], .unended (by simp) (by simp [same])⟩
      | unended _ inside => exact ⟨[c :: rest], .unended (by simp) (by simp [same, inside])⟩
      | @ended piece rest pieces inside cut =>
        exact ⟨(c :: piece) :: pieces, @Cut.ended _ _ (c :: piece) _ _ (by simp [same, inside]) cut⟩

variable [BEq α] [LawfulBEq α]

/-- What is cut behind a separator does not depend on what is before it. -/
theorem pieces_append_separator (front behind : List α) :
    pieces separator (front ++ separator :: behind) =
      front.splitOn separator ++ pieces separator behind := by
  have nonempty : behind.splitOn separator ≠ [] := by simp
  obtain ⟨others, last, split⟩ := (List.eq_nil_or_concat _).resolve_left nonempty
  rw [pieces, pieces, List.splitOn_append_cons_self, split, List.concat_eq_append,
    ← List.append_assoc, List.getLast?_concat, List.getLast?_concat, List.dropLast_concat,
    List.dropLast_concat]
  split
  · rfl
  · rw [List.append_assoc]

theorem pieces_of_cut {input : List α} {all : List (List α)} (cut : Cut separator input all) :
    pieces separator input = all := by
  induction cut with
  | nil => simp [pieces]
  | unended nonempty inside => simp [pieces, List.splitOn_eq_singleton inside, nonempty]
  | ended inside _ ih =>
    rw [pieces_append_separator, List.splitOn_eq_singleton inside, ih]
    rfl

theorem cut_pieces (separator : α) (input : List α) :
    Cut separator input (pieces separator input) := by
  obtain ⟨all, cut⟩ := exists_cut separator input
  rwa [pieces_of_cut cut]

/-- Another element at the end belongs to the last stretch. -/
theorem splitOn_concat (separator : α) (front : List α) : ∃ others last,
    front.splitOn separator = others ++ [last] ∧
      ∀ c, c ≠ separator → (front ++ [c]).splitOn separator = others ++ [last ++ [c]] := by
  by_cases member : separator ∈ front
  · obtain ⟨last, others, split, inside⟩ :=
      List.eq_append_cons_of_mem (List.mem_reverse.mpr member)
    have whole : front = others.reverse ++ separator :: last.reverse := by
      simpa using congrArg List.reverse split
    have inside : separator ∉ last.reverse := by simpa using inside
    refine ⟨others.reverse.splitOn separator, last.reverse, ?_, ?_⟩
    · rw [whole, List.splitOn_append_cons_self, List.splitOn_eq_singleton inside]
    · intro c other
      have longer : separator ∉ last.reverse ++ [c] := by simpa [Ne.symm other] using inside
      rw [whole, List.append_assoc, List.cons_append, List.splitOn_append_cons_self,
        List.splitOn_eq_singleton longer]
  · refine ⟨[], front, List.splitOn_eq_singleton member, ?_⟩
    intro c other
    exact List.splitOn_eq_singleton (by simp [member, Ne.symm other])

/-- A text put together with separators falls apart again where its parts do. -/
theorem splitOn_join (separator : α) {parts : List (List α)} (given : parts ≠ []) :
    ([separator].intercalate parts).splitOn separator = parts.flatMap (·.splitOn separator) := by
  induction parts with
  | nil => contradiction
  | cons part rest ih =>
    cases rest with
    | nil => simp
    | cons next others =>
      have behind := ih (List.cons_ne_nil next others)
      rw [List.intercalate_cons_cons, List.append_assoc, List.singleton_append,
        List.splitOn_append_cons_self, behind]
      exact List.flatMap_cons.symm

end Pieces

section Decode

variable {bytes : List UInt8} {text : List Char}

theorem decode_eq_some : decode bytes = some text ↔ encode text = bytes := by
  constructor
  · intro decoded
    obtain ⟨string, valid, rfl⟩ := Option.map_eq_some_iff.mp decoded
    have same : string.toByteArray = ⟨bytes.toArray⟩ := by
      rw [String.fromUTF8?] at valid
      split at valid
      · cases valid
        rfl
      · cases valid
    have encoded := (String.utf8Encode_toList (b := string)).trans same
    simpa [List.utf8Encode, encode] using congrArg (·.data.toList) encoded
  · rintro rfl
    have same : (⟨(encode text).toArray⟩ : ByteArray) = (String.ofList text).toByteArray := by
      rw [String.toByteArray_ofList, List.utf8Encode]
      ext1
      simp [encode]
    have valid : ByteArray.IsValidUTF8 ⟨(encode text).toArray⟩ :=
      same ▸ (String.ofList text).isValidUTF8
    have string : String.fromUTF8 ⟨(encode text).toArray⟩ valid = String.ofList text :=
      String.toByteArray_inj.mp same
    rw [decode, String.fromUTF8?, dif_pos valid, Option.map_some, string, String.toList_ofList]

theorem decode_eq_none : decode bytes = none ↔ ∀ text, encode text ≠ bytes := by
  simp only [Option.eq_none_iff_forall_ne_some, ne_eq, decode_eq_some]

theorem encode_concat (text : List Char) (c : Char) :
    encode (text ++ [c]) = encode text ++ String.utf8EncodeChar c := by
  simp [encode]

/-- A byte below 128 is part of no character but the one that it is. -/
theorem toNat_of_small {c : Char} {byte : UInt8} (member : byte ∈ String.utf8EncodeChar c)
    (small : byte.toNat < 128) : c.toNat = byte.toNat := by
  have high (n : Nat) (least : 128 ≤ n) (most : n < 256) : byte ≠ UInt8.ofNat n := by
    rintro rfl
    rw [UInt8.toNat_ofNat', Nat.mod_eq_of_lt most] at small
    omega
  simp only [String.utf8EncodeChar] at member
  split at member
  · next bound =>
    have bound : c.toNat ≤ 127 := bound
    rw [List.mem_singleton.mp member, UInt8.toNat_ofNat']
    change c.toNat = c.toNat % 256
    omega
  -- every byte of a longer character is at least 128
  repeat' split at member
  all_goals simp only [List.mem_cons, List.not_mem_nil, or_false] at member
  · rcases member with same | same <;> exact absurd same (high _ (by omega) (by omega))
  · rcases member with same | same | same <;> exact absurd same (high _ (by omega) (by omega))
  · rcases member with same | same | same | same <;>
      exact absurd same (high _ (by omega) (by omega))

theorem utf8EncodeChar_ne_nil (c : Char) : String.utf8EncodeChar c ≠ [] := by
  intro none
  have size := String.length_utf8EncodeChar c
  have positive := c.utf8Size_pos
  simp [none] at size
  omega

/-- Bytes are text behind a carriage return just if they are text without it. -/
theorem decode_return (bytes : List UInt8) :
    decode (bytes ++ [13]) = (decode bytes).map (· ++ ['\r']) := by
  have single : String.utf8EncodeChar '\r' = [13] := rfl
  cases decoded : decode bytes with
  | some text =>
    rw [Option.map_some, decode_eq_some, encode_concat, decode_eq_some.mp decoded, single]
  | none =>
    rw [Option.map_none, decode_eq_none]
    intro text encoded
    obtain rfl | ⟨front, c, rfl⟩ := List.eq_nil_or_concat text
    · simp [encode] at encoded
    rw [List.concat_eq_append, encode_concat] at encoded
    -- the last character ends in the carriage return, so it is one
    obtain ⟨others, byte, shape⟩ := (List.eq_nil_or_concat _).resolve_left (utf8EncodeChar_ne_nil c)
    have last : byte = 13 := by
      rw [shape, List.concat_eq_append, ← List.append_assoc] at encoded
      simpa using (List.append_inj' encoded rfl).2
    have code : c.toNat = byte.toNat := toNat_of_small (by simp [shape]) (by rw [last]; decide)
    obtain rfl : c = '\r' := Char.toNat_inj.mp (by rw [code, last]; rfl)
    exact decode_eq_none.mp decoded front (List.append_inj' encoded rfl).1

theorem feed_not_mem_encode (unfed : '\n' ∉ text) : 10 ∉ encode text := by
  intro member
  obtain ⟨c, inside, byte⟩ := List.mem_flatMap.mp member
  have code : c.toNat = 10 := toNat_of_small byte (by decide)
  obtain rfl : c = '\n' := Char.toNat_inj.mp code
  exact unfed inside

/-- Line feeds in UTF-8 stand where they stand in the text. -/
theorem cut_encode {all : List (List Char)} (cut : Cut '\n' text all) :
    Cut 10 (encode text) (all.map encode) := by
  induction cut with
  | nil => exact .nil
  | @unended piece nonempty unfed =>
    refine .unended ?_ (feed_not_mem_encode unfed)
    obtain ⟨c, rest, rfl⟩ := List.exists_cons_of_ne_nil nonempty
    simp [encode]
  | @ended piece rest pieces unfed _ ih =>
    have feed : encode (piece ++ '\n' :: rest) = encode piece ++ 10 :: encode rest := by
      simp [encode, show String.utf8EncodeChar '\n' = [10] from rfl]
    rw [feed]
    exact .ended (feed_not_mem_encode unfed) ih

theorem linesOfBytes_encode (text : List Char) :
    linesOfBytes (encode text) = (lines text).map some := by
  have cut := cut_encode (cut_pieces '\n' text)
  rw [linesOfBytes, pieces_of_cut cut, List.map_map]
  exact List.map_congr_left fun line _ => decode_eq_some.mpr rfl

end Decode

end Reckoner.Text
