import Reckoner.Proofs.Text.Runs
import Reckoner.Text.Blank

/-! How the words of a text change when the text grows at its end. The words are the runs
of the characters that are not blank. -/
namespace Reckoner.Text

variable {c : Char}

theorem words_eq_runs (text : List Char) : words text = runs (!isBlank ·) text := by
  simp [words, runs]

theorem words_concat_blank (blank : isBlank c = true) (text : List Char) :
    words (text ++ [c]) = words text := by
  simp only [words_eq_runs]
  exact runs_concat_outside (by simp [blank]) text

/-- At the end of a text, kept with its last character first, blanks have no word. -/
theorem words_reverse_dropWhile (text : List Char) :
    words (text.dropWhile isBlank).reverse = words text.reverse := by
  simp only [words_eq_runs]
  exact runs_reverse_dropWhile (by simp) text

theorem runs_trim {inside : Char → Bool} (outside : ∀ c, isBlank c = true → inside c = false)
    (text : List Char) : runs inside (trim text) = runs inside text := by
  rw [trim, runs_reverse_dropWhile outside, List.reverse_reverse, runs_dropWhile outside]

theorem words_trim (text : List Char) : words (trim text) = words text := by
  simp only [words_eq_runs]
  exact runs_trim (by simp) text

theorem mem_of_mem_trim {text : List Char} (member : c ∈ trim text) : c ∈ text := by
  rw [trim, List.mem_reverse] at member
  have kept := List.mem_reverse.mp ((List.dropWhile_suffix isBlank).mem member)
  exact (List.dropWhile_suffix isBlank).mem kept

theorem count_dropWhile {c : Char} (solid : isBlank c = false) (text : List Char) :
    (text.dropWhile isBlank).count c = text.count c := by
  have lost : (text.takeWhile isBlank).count c = 0 := by
    apply List.count_eq_zero.mpr
    intro member
    have blank := List.all_eq_true.mp List.all_takeWhile c member
    exact absurd blank (by simp [solid])
  have whole := congrArg (List.count c) (List.takeWhile_append_dropWhile (p := isBlank) (l := text))
  rw [List.count_append, lost] at whole
  omega

theorem count_trim {c : Char} (solid : isBlank c = false) (text : List Char) :
    (trim text).count c = text.count c := by
  simp only [trim, List.count_reverse, count_dropWhile solid]

/-- A text that begins with a character which is not blank keeps that beginning. -/
theorem trim_cons (solid : isBlank c = false) (text : List Char) :
    ∃ rest, trim (c :: text) = c :: rest := by
  rw [trim, List.dropWhile_cons_of_neg (by simp [solid]), List.reverse_cons]
  rw [List.dropWhile_append]
  split
  · exact ⟨[], by simp [solid]⟩
  · exact ⟨_, by rw [List.reverse_append]; rfl⟩

theorem trim_cons_blank (blank : isBlank c = true) (text : List Char) :
    trim (c :: text) = trim text := by
  rw [trim, List.dropWhile_cons_of_pos blank, trim]

/-- A blank at the end is trimmed away. -/
theorem trim_concat_blank (blank : isBlank c = true) (text : List Char) :
    trim (text ++ [c]) = trim text := by
  rw [trim, trim, List.dropWhile_append]
  split
  · next none => simp [blank, List.isEmpty_iff.mp none]
  · rw [List.reverse_append, List.reverse_singleton, List.singleton_append,
      List.dropWhile_cons_of_pos blank]

theorem dropWhile_of_head {p : Char → Bool} {text : List Char}
    (stops : ∀ c ∈ text.head?, p c = false) : text.dropWhile p = text := by
  cases text with
  | nil => rfl
  | cons c rest => exact List.dropWhile_cons_of_neg (by simp [stops c rfl])

/-- There is nothing to trim where neither end is blank. -/
theorem trim_of_ends {text : List Char} (first : ∀ c ∈ text.head?, isBlank c = false)
    (last : ∀ c ∈ text.getLast?, isBlank c = false) : trim text = text := by
  have behind : text.reverse.dropWhile isBlank = text.reverse :=
    dropWhile_of_head (by simpa only [List.head?_reverse] using last)
  simp only [trim, dropWhile_of_head first, behind, List.reverse_reverse]

theorem trim_solid {text : List Char} (solid : ∀ c ∈ text, isBlank c = false) :
    trim text = text :=
  trim_of_ends (fun c head => solid c (List.mem_of_mem_head? head))
    fun c last => solid c (List.mem_of_mem_getLast? last)

/-- Blanks between two solid words are not at an end. -/
theorem trim_framed {front behind : List Char} (middle : List Char)
    (occupied : front ≠ [] ∧ behind ≠ []) (solid : ∀ c ∈ front ++ behind, isBlank c = false) :
    trim (front ++ middle ++ behind) = front ++ middle ++ behind := by
  obtain ⟨first, rest, rfl⟩ := List.exists_cons_of_ne_nil occupied.1
  obtain ⟨before, last, rfl⟩ := (List.eq_nil_or_concat behind).resolve_left occupied.2
  apply trim_of_ends
  · simpa using solid first (by simp)
  · simpa [List.getLast?_cons, List.getLast?_append] using solid last (by simp)

/-- A character that is not blank, behind a text which does not end in a blank. -/
theorem words_concat (occupied : isBlank c = false) {text : List Char}
    (solid : ∀ d ∈ text.getLast?, isBlank d = false) :
    words (text ++ [c]) = extend (words text) c := by
  simp only [words_eq_runs]
  exact runs_concat (by simp [occupied]) (by simpa using solid)

end Reckoner.Text
