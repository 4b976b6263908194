import Reckoner.Dialogue.Access
import Reckoner.Proofs.Dialogue.Store
import Reckoner.Proofs.Infix.Operands

/-! Lines that have nothing to do with each other may be said in either order. A line is
replied to by the values of the names that it reads, and leaves all names as they are but the
one that it writes. -/
namespace Reckoner

variable {table other : Table}

namespace Postfix

theorem step_congr {word : List Char}
    (agree : ∀ name : Name, name.letters = word → table[name]? = other[name]?) (stack : List Int) :
    step table stack word = step other stack word := by
  rw [step, step]
  cases read : Atom.read? word with
  | none => rfl
  | some atom =>
    cases atom with
    | name name => simp only [Atom.perform, agree name (Atom.name_of_read? read)]
    | _ => rfl

/-- No name is looked up that is not among the words. -/
theorem run_congr {words : List (List Char)}
    (agree : ∀ name : Name, name.letters ∈ words → table[name]? = other[name]?) (stack : List Int) :
    run table stack words = run other stack words := by
  induction words generalizing stack with
  | nil => rfl
  | cons word rest ih =>
    have first := @step_congr table other word (fun name same => agree name (by simp [same])) stack
    have further := ih fun name member => agree name (List.mem_cons_of_mem word member)
    simp only [run_cons, first, further]

end Postfix

namespace Infix
open Text Postfix

/-- An expression is worth the same under tables that agree on the names in it. -/
theorem value_congr {text : List Char} (soft : ∀ c ∈ text, isBlank c = true → c = ' ')
    (agree : ∀ name : Name, name.letters ∈ runs Char.isAlpha text → table[name]? = other[name]?) :
    value table text = value other text := by
  by_cases accepted : accepts text = true
  · have same :
        run table [0] (Sheet.ofText text).finish = run other [0] (Sheet.ofText text).finish :=
      run_congr (fun name member => agree name (name_of_mem_finish accepted soft name member)) [0]
    simp only [value, if_pos accepted, value_ofInfix, same]
  · simp only [value, if_neg accepted]

end Infix

namespace Assignment

theorem resolve_congr {right : List Char}
    (agree : ∀ name : Name, name.letters = right → table[name]? = other[name]?) :
    resolve table right = resolve other right := by
  rw [resolve, resolve]
  cases named : Name.read? right with
  | none => rfl
  | some name => simp only [agree name (Name.read?_eq_some_iff.mp named)]

theorem read_congr {line : List Char}
    (agree : ∀ before behind (name : Name), line = before ++ '=' :: behind → '=' ∉ before →
      name.letters = Text.trim behind → table[name]? = other[name]?) :
    read table line = read other line := by
  rw [read, read]
  cases cut : sides? line with
  | none => rfl
  | some sides =>
    obtain ⟨left, right⟩ := sides
    obtain ⟨before, behind, split, first, -, rfl⟩ := sides?_eq_some.mp cut
    have same : resolve table (Text.trim behind) = resolve other (Text.trim behind) :=
      resolve_congr fun name named => agree before behind name split first named
    simp only [same]

end Assignment

namespace Request

theorem writes_assignment {line : List Char} {name : Name} :
    (assignment line).Writes name ↔
      ∃ right, Assignment.sides? line = some (name.letters, right) := by
  constructor
  · rintro ⟨first, named⟩
    exact ⟨_, Assignment.sides?_eq_some.mpr ⟨_, _, rfl, first, named, rfl⟩⟩
  · rintro ⟨right, cut⟩
    obtain ⟨before, behind, rfl, first, named, _⟩ := Assignment.sides?_eq_some.mp cut
    exact .assignment first named

end Request

namespace Dialogue
open Request

variable {line : List Char} {name : Name} {value : Int}

theorem Sets.writes (sets : Sets table line name value) : (ofLine line).Writes name := by
  have asked := ofLine_assigning sets.assigning
  obtain ⟨before, behind, split, first, named, _⟩ := sets
  rw [asked, split]
  exact .assignment first named

theorem ofLine_expression {text : List Char} (asked : ofLine line = .expression text) :
    text = Text.trim line := by
  rw [ofLine] at asked
  split at asked
  · cases asked
  · cases asked
  · split at asked
    · cases asked
    · cases asked
      rfl

section Reading

variable (agree : ∀ name, (ofLine line).Reads name → table[name]? = other[name]?)

include agree

theorem read_trim_congr (assigning : Assigning line) :
    Assignment.read table (Text.trim line) = Assignment.read other (Text.trim line) := by
  apply Assignment.read_congr
  intro before behind name split first named
  apply agree
  rw [ofLine_assigning assigning, split]
  apply Reads.assignment first
  -- the whole right side is one run of letters
  rw [← Text.runs_trim (fun c => Text.blank_not_alpha) behind, ← named,
    Text.runs_of_inside name.nonempty name.alpha]
  exact List.mem_singleton_self _

theorem sets_congr : Sets table line name value ↔ Sets other line name value := by
  rw [sets_iff, sets_iff]
  apply and_congr_right
  intro assigning
  rw [read_trim_congr agree assigning]

/-- A line is replied to the same under tables that agree on the names it reads. -/
theorem reply_congr (soft : ∀ c ∈ line, Text.isBlank c = true → c = ' ') :
    (respond table line).1 = (respond other line).1 := by
  by_cases assigning : Assigning line
  · simp only [respond, ofLine_assigning assigning, Assignment.perform_eq,
      read_trim_congr agree assigning]
    cases Assignment.read other (Text.trim line) <;> rfl
  · cases asked : ofLine line with
    | nothing | command known => simp only [respond, asked]
    | assignment text => exact absurd asked (ofLine_other assigning text)
    | expression text =>
      have softly : ∀ c ∈ text, Text.isBlank c = true → c = ' ' := by
        intro c member
        rw [ofLine_expression asked] at member
        exact soft c (Text.mem_of_mem_trim member)
      have same : Infix.value table text = Infix.value other text :=
        Infix.value_congr softly fun name member => agree name (asked ▸ .expression member)
      simp only [respond, asked, same]

end Reading

/-- What a line does not write it leaves as it is. -/
theorem getElem?_respond_unwritten (unwritten : ¬(ofLine line).Writes name) :
    (respond table line).2[name]? = table[name]? :=
  getElem?_respond_other fun _ sets => unwritten sets.writes

section Order

variable {first second : List Char} (independent : (ofLine first).Independent (ofLine second))

include independent

theorem agree_respond (table : Table) (name : Name) (reads : (ofLine first).Reads name) :
    table[name]? = (respond table second).2[name]? :=
  (getElem?_respond_unwritten fun writes => ((independent name).2 writes).2 reads).symm

/-- A name that the first line sets has that value afterwards in either order. -/
theorem getElem?_respond_both (sets : Sets table first name value) :
    (respond (respond table first).2 second).2[name]? = some value ∧
      (respond (respond table second).2 first).2[name]? = some value := by
  have sets' := (sets_congr (agree_respond independent table)).mp sets
  refine ⟨?_, (getElem?_respond_sets sets').1⟩
  rw [getElem?_respond_unwritten ((independent name).1 sets.writes).1]
  exact (getElem?_respond_sets sets).1

theorem getElem?_respond_comm (table : Table) (name : Name) :
    (respond (respond table first).2 second).2[name]? =
      (respond (respond table second).2 first).2[name]? := by
  by_cases setsFirst : ∃ value, Sets table first name value
  · obtain ⟨value, sets⟩ := setsFirst
    obtain ⟨before, after⟩ := getElem?_respond_both independent sets
    rw [before, after]
  by_cases setsSecond : ∃ value, Sets table second name value
  · obtain ⟨value, sets⟩ := setsSecond
    obtain ⟨before, after⟩ := getElem?_respond_both independent.symm sets
    rw [before, after]
  have first' : ∀ value, ¬Sets (respond table second).2 first name value := by
    intro value sets
    exact setsFirst ⟨value, (sets_congr (agree_respond independent table)).mpr sets⟩
  have second' : ∀ value, ¬Sets (respond table first).2 second name value := by
    intro value sets
    exact setsSecond ⟨value, (sets_congr (agree_respond independent.symm table)).mpr sets⟩
  rw [getElem?_respond_other second', getElem?_respond_other first',
    getElem?_respond_other fun value sets => setsFirst ⟨value, sets⟩,
    getElem?_respond_other fun value sets => setsSecond ⟨value, sets⟩]

end Order

/-- Two lines without blanks but spaces, neither of which writes a name that the other one
writes or reads, are replied to the same and leave the same table in either order. -/
theorem respond_comm {first second : List Char}
    (softFirst : ∀ c ∈ first, Text.isBlank c = true → c = ' ')
    (softSecond : ∀ c ∈ second, Text.isBlank c = true → c = ' ')
    (independent : (ofLine first).Independent (ofLine second)) (table : Table) :
    (respond (respond table second).2 first).1 = (respond table first).1 ∧
      (respond (respond table first).2 second).1 = (respond table second).1 ∧
      (respond (respond table first).2 second).2 = (respond (respond table second).2 first).2 := by
  refine ⟨?_, ?_, ?_⟩
  · exact (reply_congr (agree_respond independent table) softFirst).symm
  · exact (reply_congr (agree_respond independent.symm table) softSecond).symm
  · apply Std.ExtTreeMap.ext_getElem?
    exact getElem?_respond_comm independent table

/-- Both lines read one name, and one of them sets another. -/
theorem respond_comm_shared :
    let table : Table := (∅ : Table).insert ⟨['b'], rfl⟩ 3
    (ofLine ['a', '=', 'b']).Independent (ofLine ['b', '*', 'b']) ∧
      (respond (respond table ['b', '*', 'b']).2 ['a', '=', 'b']).1 = .silent ∧
      (respond (respond table ['a', '=', 'b']).2 ['b', '*', 'b']).1 = .value 9 ∧
      (respond (respond table ['a', '=', 'b']).2 ['b', '*', 'b']).2 =
        (respond (respond table ['b', '*', 'b']).2 ['a', '=', 'b']).2 := by
  intro table
  have unwritten (name : Name) : ¬(ofLine ['b', '*', 'b']).Writes name := by
    intro writes
    rw [show ofLine ['b', '*', 'b'] = .expression ['b', '*', 'b'] from rfl] at writes
    cases writes
  have independent : (ofLine ['a', '=', 'b']).Independent (ofLine ['b', '*', 'b']) := by
    intro name
    refine ⟨fun writes => ⟨unwritten name, ?_⟩, fun writes => absurd writes (unwritten name)⟩
    obtain ⟨right, cut⟩ := writes_assignment.mp writes
    have letters : ['a'] = name.letters := congrArg Prod.fst (Option.some.inj cut)
    rw [show ofLine ['b', '*', 'b'] = .expression ['b', '*', 'b'] from rfl]
    intro reads
    cases reads with
    | expression member =>
      rw [← letters] at member
      exact absurd member (by decide)
  have softFirst : ∀ c ∈ ['a', '=', 'b'], Text.isBlank c = true → c = ' ' := by
    simp [Text.isBlank, Text.isNarrowBlank]
  have softSecond : ∀ c ∈ ['b', '*', 'b'], Text.isBlank c = true → c = ' ' := by
    simp [Text.isBlank, Text.isNarrowBlank]
  obtain ⟨first, second, same⟩ := respond_comm softFirst softSecond independent table
  exact ⟨independent, first.trans rfl, second.trans rfl, same⟩

end Dialogue
end Reckoner
