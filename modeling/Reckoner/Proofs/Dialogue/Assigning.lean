import Reckoner.Dialogue.History
import Reckoner.Proofs.Postfix.Evaluation

/-! What one line does to the table. A line either sets one name, and is replied to by
silence, or leaves the table as it is; its text and the values of the names on its right
side decide which. -/
namespace Reckoner

namespace Text

/-- A text cut at the first place where the given character stands. -/
theorem takeWhile_dropWhile_ne {c : Char} {before : List Char} (first : c ∉ before)
    (behind : List Char) :
    (before ++ c :: behind).takeWhile (· ≠ c) = before ∧
      (before ++ c :: behind).dropWhile (· ≠ c) = c :: behind := by
  have others : ∀ d ∈ before, decide (d ≠ c) = true := by
    intro d member
    rw [decide_eq_true_eq]
    rintro rfl
    exact first member
  rw [List.takeWhile_append_of_pos others, List.dropWhile_append_of_pos others]
  simp

end Text

namespace Table

variable {table : Table} {name other : Name} {value : Int}

theorem getElem?_insert_other (apart : other ≠ name) :
    (table.insert name value)[other]? = table[other]? := by
  rw [Std.ExtTreeMap.getElem?_insert, if_neg]
  intro same
  exact apart (Std.LawfulEqCmp.eq_of_compare same).symm

/-- To set a name to the value that it has changes nothing. -/
theorem insert_present (found : table[name]? = some value) : table.insert name value = table := by
  apply Std.ExtTreeMap.ext_getElem?
  intro other
  by_cases same : other = name
  · rw [same, found]
    exact Std.ExtTreeMap.getElem?_insert_self
  · exact getElem?_insert_other same

end Table

namespace Assignment

variable {table : Table} {line left right : List Char} {name : Name} {value : Int}

theorem sides?_eq_some : sides? line = some (left, right) ↔
    ∃ before behind, line = before ++ '=' :: behind ∧ '=' ∉ before ∧
      Text.trim before = left ∧ Text.trim behind = right := by
  constructor
  · intro cut
    have whole := line.takeWhile_append_dropWhile (p := (· ≠ '='))
    have stop := List.head?_dropWhile_not (· ≠ '=') line
    have first : '=' ∉ line.takeWhile (· ≠ '=') := by
      intro member
      simpa using List.all_eq_true.mp List.all_takeWhile _ member
    rw [sides?] at cut
    split at cut
    · next c behind rest =>
      cases cut
      rw [rest] at stop whole
      have equals : c = '=' := by simpa using stop
      rw [equals] at whole
      exact ⟨_, behind, whole.symm, first, rfl, rfl⟩
    · cases cut
  · rintro ⟨before, behind, rfl, first, rfl, rfl⟩
    obtain ⟨taken, dropped⟩ := Text.takeWhile_dropWhile_ne first behind
    rw [sides?, dropped, taken]

theorem resolve_eq_ok : resolve table right = .ok value ↔ Worth table right value := by
  constructor
  · intro resolved
    cases read : Name.read? right with
    | some source =>
      obtain rfl := Name.read?_eq_some_iff.mp read
      cases found : table[source]? with
      | none => simp [resolve, read, found] at resolved
      | some copied =>
        obtain rfl : copied = value := by simpa [resolve, read, found] using resolved
        exact .copy found
    | none =>
      cases numeral : Numeral.read? right with
      | none => simp [resolve, read, numeral] at resolved
      | some integer =>
        obtain rfl : integer = value := by simpa [resolve, read, numeral] using resolved
        exact .numeral numeral
  · intro worth
    cases worth with
    | copy found => simp [resolve, Name.read?_letters, found]
    | numeral numeral => simp [resolve, Name.read?_of_numeral numeral, numeral]

theorem read_eq_ok : read table line = .ok (name, value) ↔
    ∃ before behind, line = before ++ '=' :: behind ∧ '=' ∉ before ∧
      Text.trim before = name.letters ∧ Worth table (Text.trim behind) value := by
  constructor
  · intro done
    cases cut : sides? line with
    | none => simp [read, cut] at done
    | some sides =>
      obtain ⟨left, right⟩ := sides
      obtain ⟨before, behind, split, first, rfl, rfl⟩ := sides?_eq_some.mp cut
      cases named : Name.read? (Text.trim before) with
      | none => simp [read, cut, named] at done
      | some written =>
        cases resolved : resolve table (Text.trim behind) with
        | error fault => simp [read, cut, named, resolved, Except.map] at done
        | ok integer =>
          obtain ⟨rfl, rfl⟩ : written = name ∧ integer = value := by
            simpa [read, cut, named, resolved, Except.map] using done
          exact ⟨before, behind, split, first, (Name.read?_eq_some_iff.mp named).symm,
            resolve_eq_ok.mp resolved⟩
  · rintro ⟨before, behind, split, first, named, worth⟩
    have cut := sides?_eq_some.mpr ⟨before, behind, split, first, rfl, rfl⟩
    simp [read, cut, Name.read?_eq_some_iff.mpr named.symm, resolve_eq_ok.mpr worth, Except.map]

end Assignment

namespace Dialogue

variable {table : Table} {line : List Char} {name other : Name} {value result : Int}

theorem ofLine_assigning (assigning : Assigning line) :
    Request.ofLine line = .assignment (Text.trim line) := by
  obtain ⟨nonempty, noSlash, equals⟩ := assigning
  obtain ⟨c, rest, trimmed⟩ := List.exists_cons_of_ne_nil nonempty
  rw [trimmed] at noSlash equals
  rw [Request.ofLine, trimmed]
  split
  · contradiction
  · next same =>
    cases same
    exact absurd rfl (noSlash '/' rfl)
  · exact if_pos (List.contains_iff_mem.mpr equals)

theorem ofLine_other (other : ¬Assigning line) (text : List Char) :
    Request.ofLine line ≠ .assignment text := by
  intro asked
  apply other
  rw [Request.ofLine] at asked
  split at asked
  · cases asked
  · cases asked
  · next empty slash =>
    split at asked
    · next equals =>
      refine ⟨empty, ?_, by simpa using equals⟩
      rintro c head rfl
      obtain ⟨rest, trimmed⟩ := List.head?_eq_some_iff.mp head
      exact slash rest trimmed
    · cases asked

theorem Sets.assigning (sets : Sets table line name value) : Assigning line := by
  obtain ⟨before, behind, split, _, named, _⟩ := sets
  have nonempty : before ≠ [] := by
    rintro rfl
    have valid := name.valid
    simp [← named, Text.trim, isName] at valid
  obtain ⟨c, rest, rfl⟩ := List.exists_cons_of_ne_nil nonempty
  refine ⟨by simp [split], ?_, by simp [split]⟩
  rintro d head rfl
  rw [split] at head
  cases head
  -- a slash in front would be the first character of the name
  obtain ⟨kept, trimmed⟩ := Text.trim_cons (c := '/') (by decide) rest
  have valid := name.valid
  simp [← named, trimmed, isName] at valid

theorem sets_iff : Sets table line name value ↔
    Assigning line ∧ Assignment.read table (Text.trim line) = .ok (name, value) := by
  constructor
  · intro sets
    exact ⟨sets.assigning, Assignment.read_eq_ok.mpr sets⟩
  · rintro ⟨_, done⟩
    exact Assignment.read_eq_ok.mp done

theorem Sets.unique (sets : Sets table line name value) (again : Sets table line other result) :
    name = other ∧ value = result := by
  have same := (sets_iff.mp sets).2.symm.trans (sets_iff.mp again).2
  simpa using same

theorem respond_of_sets (sets : Sets table line name value) :
    respond table line = (.silent, table.insert name value) := by
  obtain ⟨assigning, done⟩ := sets_iff.mp sets
  simp only [respond, ofLine_assigning assigning, Assignment.perform_of_read done,
    Reply.ofAssignment]

/-- A line that sets nothing leaves the table, and if it asked for an assignment the reply
says what is wrong. -/
theorem respond_of_not_sets (none : ∀ name value, ¬Sets table line name value) :
    (respond table line).2 = table ∧ (Assigning line → (respond table line).1 ≠ .silent) := by
  by_cases assigning : Assigning line
  · cases done : Assignment.read table (Text.trim line) with
    | ok entry => exact absurd (sets_iff.mpr ⟨assigning, done⟩) (none entry.1 entry.2)
    | error fault =>
      simp [respond, ofLine_assigning assigning, Assignment.perform_of_fault done,
        Reply.ofAssignment]
  · refine ⟨?_, fun asked => absurd asked assigning⟩
    rw [respond]
    split
    · rfl
    · rfl
    · next asked => exact absurd asked (ofLine_other assigning _)
    · rfl

/-- Whatever the line asked for, if it is replied to by a fault it has changed nothing. -/
theorem respond_fault {cause : Fault} (failed : (respond table line).1 = .fault cause) :
    (respond table line).2 = table := by
  apply (respond_of_not_sets ?_).1
  intro name value sets
  rw [respond_of_sets sets] at failed
  cases failed

end Dialogue
end Reckoner
