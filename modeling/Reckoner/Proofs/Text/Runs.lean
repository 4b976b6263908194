import Reckoner.Text.Blank

/-! How the runs of a text change when the text grows at its end. Characters outside the
class at either end belong to no run, and a character behind the last run joins it. -/
namespace Reckoner.Text

/-- The runs when a character joins the last of them, or begins the first. -/
def extend (texts : List (List Char)) (c : Char) : List (List Char) :=
  texts.dropLast ++ [texts.getLastD [] ++ [c]]

@[simp] theorem extend_nil (c : Char) : extend [] c = [[c]] := rfl

@[simp] theorem extend_concat (texts : List (List Char)) (word : List Char) (c : Char) :
    extend (texts ++ [word]) c = texts ++ [word ++ [c]] := by
  simp [extend]

variable {inside : Char → Bool} {text word : List Char} {c : Char}

@[simp] theorem runs_nil : runs inside [] = [] := by
  simp [runs, List.splitOnP_nil]

theorem runs_append_outside (outside : inside c = false) (before behind : List Char) :
    runs inside (before ++ c :: behind) = runs inside before ++ runs inside behind := by
  have cut : (!inside c) = true := by simp [outside]
  rw [runs, List.splitOnP_append_cons before behind cut, List.filter_append]
  rfl

theorem runs_of_inside (occupied : word ≠ []) (all : ∀ c ∈ word, inside c = true) :
    runs inside word = [word] := by
  have uncut : ∀ c ∈ word, (!inside c) = false := by simpa using all
  simp [runs, List.splitOnP_eq_singleton uncut, occupied]

theorem runs_cons_outside (outside : inside c = false) (text : List Char) :
    runs inside (c :: text) = runs inside text := by
  simpa using runs_append_outside outside [] text

theorem runs_outside (outside : ∀ c ∈ text, inside c = false) : runs inside text = [] := by
  induction text with
  | nil => exact runs_nil
  | cons c rest ih =>
    rw [runs_cons_outside (outside c List.mem_cons_self)]
    exact ih fun d member => outside d (List.mem_cons_of_mem c member)

theorem runs_append_all_outside {gap : List Char} (outside : ∀ c ∈ gap, inside c = false)
    (text : List Char) : runs inside (text ++ gap) = runs inside text := by
  cases gap with
  | nil => rw [List.append_nil]
  | cons c rest =>
    have none : runs inside rest = [] :=
      runs_outside fun d member => outside d (List.mem_cons_of_mem c member)
    rw [runs_append_outside (outside c List.mem_cons_self), none, List.append_nil]

theorem runs_concat_outside (outside : inside c = false) (text : List Char) :
    runs inside (text ++ [c]) = runs inside text := by
  rw [runs_append_outside outside, runs_nil, List.append_nil]

section Ends

variable {p : Char → Bool} (outside : ∀ c, p c = true → inside c = false)

include outside

theorem runs_dropWhile (text : List Char) : runs inside (text.dropWhile p) = runs inside text := by
  induction text with
  | nil => rfl
  | cons c rest ih =>
    by_cases dropped : p c = true
    · rw [List.dropWhile_cons_of_pos dropped, ih, runs_cons_outside (outside c dropped)]
    · rw [List.dropWhile_cons_of_neg dropped]

/-- The same at the other end, for texts kept with their last character first. -/
theorem runs_reverse_dropWhile (text : List Char) :
    runs inside (text.dropWhile p).reverse = runs inside text.reverse := by
  have dropped : ∀ c ∈ (text.takeWhile p).reverse, inside c = false := by
    intro c member
    exact outside c (List.all_eq_true.mp List.all_takeWhile c (List.mem_reverse.mp member))
  calc runs inside (text.dropWhile p).reverse
      = runs inside ((text.dropWhile p).reverse ++ (text.takeWhile p).reverse) :=
        (runs_append_all_outside dropped _).symm
    _ = runs inside text.reverse := by rw [← List.reverse_append, List.takeWhile_append_dropWhile]

end Ends

/-- A text is one run, or ends in a run behind its last character outside. -/
theorem last_outside (inside : Char → Bool) (text : List Char) :
    (∀ c ∈ text, inside c = true) ∨ ∃ front d word, text = front ++ d :: word ∧
      inside d = false ∧ ∀ c ∈ word, inside c = true := by
  induction text with
  | nil => exact .inl (by simp)
  | cons c rest ih =>
    obtain all | ⟨front, d, word, rfl, outside, all⟩ := ih
    · cases first : inside c with
      | false => exact .inr ⟨[], c, rest, rfl, first, all⟩
      | true => exact .inl (List.forall_mem_cons.mpr ⟨first, all⟩)
    · exact .inr ⟨c :: front, d, word, rfl, outside, all⟩

/-- A character of the class, behind a text which ends in another one. -/
theorem runs_concat (isInside : inside c = true) (joins : ∀ d ∈ text.getLast?, inside d = true) :
    runs inside (text ++ [c]) = extend (runs inside text) c := by
  have grown {word : List Char} (all : ∀ d ∈ word, inside d = true) :
      runs inside (word ++ [c]) = [word ++ [c]] := by
    apply runs_of_inside (by simp)
    simpa [or_imp, forall_and] using ⟨all, isInside⟩
  obtain all | ⟨front, d, word, rfl, outside, all⟩ := last_outside inside text
  · rw [grown all]
    cases text with
    | nil => rw [runs_nil, extend_nil, List.nil_append]
    | cons d rest =>
      rw [runs_of_inside (by simp) all]
      exact (extend_concat [] (d :: rest) c).symm
  · have nonempty : word ≠ [] := by
      rintro rfl
      exact absurd (joins d (by simp)) (by simp [outside])
    rw [List.append_assoc, List.cons_append, runs_append_outside outside,
      runs_append_outside outside, grown all, runs_of_inside nonempty all, extend_concat]

/-- A character of the class, behind a text which ends outside it. -/
theorem runs_concat_first (isInside : inside c = true)
    (apart : ∀ d ∈ text.getLast?, inside d = false) :
    runs inside (text ++ [c]) = runs inside text ++ [[c]] := by
  have single : runs inside [c] = [[c]] := runs_of_inside (by simp) (by simpa using isInside)
  obtain rfl | ⟨front, d, rfl⟩ := List.eq_nil_or_concat text
  · simpa using single
  · rw [List.concat_eq_append] at apart ⊢
    have outside : inside d = false := apart d List.getLast?_concat
    rw [List.append_assoc, List.singleton_append, runs_append_outside outside,
      runs_concat_outside outside, single]

/-- The runs have all characters of the class, in order. -/
theorem flatten_runs (inside : Char → Bool) (text : List Char) :
    (runs inside text).flatten = text.filter inside := by
  simp only [runs, List.flatten_filter_not_isEmpty]
  induction text with
  | nil => simp
  | cons c rest ih =>
    obtain ⟨word, others, split⟩ := List.exists_cons_of_ne_nil
      (List.splitOnP_ne_nil (fun d => !inside d) rest)
    cases isInside : inside c <;>
      simp [List.splitOnP_cons_eq_if_modifyHead, isInside, split, ← ih]

theorem exists_last_run (isInside : inside c = true) (text : List Char) :
    ∃ front word, runs inside (text ++ [c]) = front ++ [word] := by
  have occupied : runs inside (text ++ [c]) ≠ [] := by
    intro none
    have kept := flatten_runs inside (text ++ [c])
    simp [none, isInside] at kept
  obtain ⟨front, word, split⟩ := (List.eq_nil_or_concat _).resolve_left occupied
  exact ⟨front, word, by simpa only [List.concat_eq_append] using split⟩

/-- A run begins with a character of the class that stands behind none. -/
theorem length_runs_concat (inside : Char → Bool) (text : List Char) (c : Char) :
    (runs inside (text ++ [c])).length =
      (runs inside text).length + (inside c && !text.getLast?.any inside).toNat := by
  cases isInside : inside c with
  | false => simp [runs_concat_outside isInside]
  | true =>
    by_cases joins : ∃ d ∈ text.getLast?, inside d = true
    · obtain ⟨d, last, joined⟩ := joins
      obtain ⟨before, rfl⟩ := List.getLast?_eq_some_iff.mp last
      obtain ⟨front, word, split⟩ := exists_last_run joined before
      have joins : ∀ e ∈ (before ++ [d]).getLast?, inside e = true := by simpa using joined
      simp [runs_concat isInside joins, split, joined, -List.append_assoc]
    · have apart : ∀ d ∈ text.getLast?, inside d = false := by simpa using joins
      have none : text.getLast?.any inside = false := by
        cases last : text.getLast? <;> simp_all
      simp [runs_concat_first isInside apart, none]

end Reckoner.Text
