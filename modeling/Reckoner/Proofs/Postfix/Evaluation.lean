import Reckoner.Infix.Grammar
import Reckoner.Proofs.Postfix.Sheet
import Reckoner.Proofs.Postfix.Step
import Reckoner.Tree

/-! What the stack makes of postfix words. The words of a tree in post-order put
the tree's value on top of any stack, or stop at the tree's fault; a word that is
no atom stops every run. -/
namespace Reckoner.Postfix
open Infix.Grammar

theorem run_cons (table : Table) (stack : List Int) (word : List Char) (rest : List (List Char)) :
    run table stack (word :: rest) = step table stack word >>= fun next => run table next rest :=
  List.foldlM_cons

theorem run_append (table : Table) (stack : List Int) (front rest : List (List Char)) :
    run table stack (front ++ rest) = run table stack front >>= fun next => run table next rest :=
  List.foldlM_append

theorem run_singleton (table : Table) (stack : List Int) (word : List Char) :
    run table stack [word] = step table stack word := by
  rw [run_cons]
  exact bind_pure _

theorem run_cons_eq_ok {table : Table} {stack last : List Int} {word : List Char}
    {rest : List (List Char)} : run table stack (word :: rest) = .ok last ↔
      ∃ next, step table stack word = .ok next ∧ run table next rest = .ok last := by
  rw [run_cons]
  cases step table stack word <;> simp [bind, Except.bind]

theorem run_append_eq_ok {table : Table} {stack last : List Int} {front rest : List (List Char)} :
    run table stack (front ++ rest) = .ok last ↔
      ∃ middle, run table stack front = .ok middle ∧ run table middle rest = .ok last := by
  rw [run_append]
  cases run table stack front <;> simp [bind, Except.bind]

/-- The words before the first that fails can be worked out. -/
theorem run_eq_error {table : Table} {stack : List Int} {words : List (List Char)} {fault : Fault} :
    run table stack words = .error fault ↔
      ∃ front word rest middle, words = front ++ word :: rest ∧
        run table stack front = .ok middle ∧ step table middle word = .error fault := by
  constructor
  · intro failed
    induction words generalizing stack with
    | nil => cases failed
    | cons word rest ih =>
      rw [run_cons] at failed
      cases stepped : step table stack word with
      | error other =>
        rw [stepped] at failed
        cases failed
        exact ⟨[], word, rest, stack, rfl, rfl, stepped⟩
      | ok next =>
        rw [stepped] at failed
        obtain ⟨front, last, behind, middle, rfl, reached, halts⟩ := ih failed
        exact ⟨word :: front, last, behind, middle, rfl, run_cons_eq_ok.mpr ⟨next, stepped, reached⟩,
          halts⟩
  · rintro ⟨front, word, rest, middle, rfl, reached, failed⟩
    simp only [run_append, run_cons, reached, failed, bind, Except.bind]

/-- The value of a converted text, by the words that the conversion leaves. -/
theorem value_ofInfix (table : Table) (text : List Char) :
    value table (ofInfix text) = run table [0] (Sheet.ofText text).finish >>= top := by
  rw [value, words_ofInfix]

theorem leafValue_name (table : Table) (name : Name) :
    Tree.leafValue table name.letters = (table[name]?).elim (.error .undefinedName) .ok := by
  rw [Tree.leafValue, Name.read?_letters]

theorem leafValue_digits (table : Table) {word : List Char} (nonempty : word ≠ [])
    (digits : AllAre (·.isDigit = true) word) :
    Tree.leafValue table word = .ok (Nat.ofDigitChars 10 word 0 : Nat) := by
  obtain ⟨c, rest, rfl⟩ := List.exists_cons_of_ne_nil nonempty
  rw [Tree.leafValue, Name.read?_digits (digits c List.mem_cons_self), digits?_eq nonempty digits]
  rfl

theorem step_operand (table : Table) (stack : List Int) {word : List Char}
    (operand : Operand word) :
    step table stack word = (Tree.leafValue table word).map (· :: stack) := by
  obtain ⟨nonempty, digits | letters⟩ := operand
  · rw [step, Atom.read?_digits nonempty digits, leafValue_digits table nonempty digits]
    rfl
  · obtain ⟨name, rfl⟩ := name_of_letters nonempty letters
    rw [step, Atom.read?_name, leafValue_name]
    simp only [Atom.perform]
    cases table[name]? <;> rfl

/-- The stack below the tree's words is left as it was. -/
theorem run_postorder (table : Table) {tree : Tree} (leaves : tree.Leaves Operand)
    (stack : List Int) :
    run table stack tree.postorder = (tree.value table).map (· :: stack) := by
  induction tree generalizing stack with
  | leaf word => rw [Tree.postorder, run_singleton, step_operand table stack leaves, Tree.value]
  | node op left right ihl ihr =>
    rw [Tree.postorder, run_append, run_append, ihl leaves.1, Tree.value]
    cases left.value table with
    | error fault => rfl
    | ok first =>
      change (run table (first :: stack) right.postorder >>= _) = _
      rw [ihr leaves.2]
      cases right.value table with
      | error fault => rfl
      | ok second =>
        change run table (second :: first :: stack) [[op.char]] = (op.combine first second).map _
        rw [run_singleton, step, Atom.read?_operator]
        rfl

theorem combine_well_formed (op : Operator) (left right : Int) :
    op.combine left right ≠ .error .malformedExpression := by
  intro failed
  cases (combine_eq_error.mp failed).2.2

/-- Only names without a value and divisions by zero stop the evaluation of a tree. -/
theorem tree_value_well_formed (table : Table) {tree : Tree} (leaves : tree.Leaves Operand) :
    tree.value table ≠ .error .malformedExpression := by
  induction tree with
  | leaf word =>
    rw [Tree.value]
    obtain ⟨nonempty, digits | letters⟩ := leaves
    · rw [leafValue_digits table nonempty digits]
      nofun
    · obtain ⟨name, rfl⟩ := name_of_letters nonempty letters
      rw [leafValue_name]
      cases table[name]? <;> nofun
  | node op left right ihl ihr =>
    have first := ihl leaves.1
    have second := ihr leaves.2
    rw [Tree.value]
    cases leftValue : left.value table with
    | error fault => rwa [leftValue] at first
    | ok value =>
      cases rightValue : right.value table with
      | error fault => rwa [rightValue] at second
      | ok other => exact combine_well_formed op value other

end Reckoner.Postfix
