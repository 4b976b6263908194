import Std.Data.ExtTreeMap

/-! Names and the table that gives them values. A name is one or more ASCII
letters, upper and lower case apart. The table is ordered by name and is
determined by its look-ups alone. -/
namespace Reckoner

/-- One or more ASCII letters. -/
def isName (text : List Char) : Bool :=
  !text.isEmpty && text.all Char.isAlpha

structure Name where
  letters : List Char
  valid : isName letters = true
  deriving DecidableEq

namespace Name

def read? (text : List Char) : Option Name :=
  if valid : isName text = true then some ⟨text, valid⟩ else none

theorem read?_eq_some_iff {text : List Char} {name : Name} :
    read? text = some name ↔ name.letters = text := by
  constructor
  · intro read
    unfold read? at read
    split at read <;> cases read
    rfl
  · rintro rfl
    exact dif_pos name.valid

theorem nonempty (name : Name) : name.letters ≠ [] := by
  simpa using (Bool.and_eq_true_iff.mp name.valid).1

theorem alpha (name : Name) : ∀ c ∈ name.letters, c.isAlpha = true :=
  List.all_eq_true.mp (Bool.and_eq_true_iff.mp name.valid).2

instance : Ord Name := ⟨fun a b => compare a.letters b.letters⟩

instance : Std.TransOrd Name :=
  inferInstanceAs (Std.TransCmp fun a b : Name => compareOn Name.letters a b)

instance : Std.LawfulEqOrd Name where
  eq_of_compare {a b} same := by
    have letters : a.letters = b.letters := Std.LawfulEqOrd.eq_of_compare same
    cases a
    cases b
    simp_all

end Name

/-- The values of the names that have one. -/
abbrev Table := Std.ExtTreeMap Name Int

end Reckoner
