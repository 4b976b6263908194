import Reckoner.Infix.Grammar
import Reckoner.Proofs.Infix.Stretch

/-! The table of places decides the form. The pattern of the form is ambiguous: a sign may
end a link or belong to the operand behind it, and parentheses may end one group or begin
the next. The scan settles on one reading, and what is shown is that it loses no text by
it: each place keeps a decomposition of what was read, and each decomposition is led
through the places. -/
namespace Reckoner.Infix
open Grammar Text

namespace Grammar

variable {text word : List Char}

theorem AllAre.nil {good : Char → Prop} : AllAre good [] := by
  simp [AllAre]

theorem AllAre.concat {good : Char → Prop} {c : Char} (all : AllAre good text) (one : good c) :
    AllAre good (text ++ [c]) :=
  List.forall_mem_append.mpr ⟨all, List.forall_mem_singleton.mpr one⟩

theorem Form.group {group : List Char} (form : Form text) (isGroup : Group group) :
    Form (text ++ group) := by
  cases form with
  | @mk head groups isHead all =>
    have grown : ∀ other ∈ groups ++ [group], Group other :=
      List.forall_mem_append.mpr ⟨all, List.forall_mem_singleton.mpr isGroup⟩
    simpa using Form.mk isHead grown

/-- A head up to its operand. -/
inductive Lead : List Char → Prop
  | mk {parentheses sign blank : List Char} : AllAre (· = '(') parentheses →
      AtMostOne IsSign sign → AtMostOne IsBlank blank → Lead (parentheses ++ sign ++ blank)

theorem Lead.form (lead : Lead text) (operand : Operand word) : Form (text ++ word) := by
  cases lead with
  | mk parentheses sign blank =>
    have head := Head.mk parentheses sign blank operand
    have form := @Form.mk _ [] head nofun
    simpa using form

/-- A form with the link of one more group. -/
inductive Linked : List Char → Prop
  | mk {front before link : List Char} : Form front → AtMostOne IsBlank before → Link link →
      Linked (front ++ before ++ link)

/-- ... with the blank and the parentheses behind it, and with a sign behind these. -/
inductive Opened : List Char → Prop
  | mk {front blank parentheses : List Char} : Linked front → AtMostOne IsBlank blank →
      AllAre IsParenthesis parentheses → Opened (front ++ blank ++ parentheses)

inductive Due : List Char → Prop
  | mk {front sign : List Char} : Opened front → AtMostOne IsSign sign → Due (front ++ sign)

theorem Linked.opened (linked : Linked text) {blank : List Char}
    (isBlank : AtMostOne IsBlank blank) : Opened (text ++ blank) := by
  have opened := Opened.mk linked isBlank .nil
  simpa using opened

theorem Opened.due (opened : Opened text) : Due text := by
  have due := Due.mk opened (.inl rfl)
  simpa using due

theorem Opened.parenthesis {c : Char} (opened : Opened text) (parenthesis : IsParenthesis c) :
    Opened (text ++ [c]) := by
  cases opened with
  | mk linked blank parentheses =>
    rw [List.append_assoc]
    exact .mk linked blank (parentheses.concat parenthesis)

theorem Due.form {closing : List Char} (due : Due text) (operand : Operand word)
    (parentheses : AllAre IsParenthesis closing) : Form (text ++ word ++ closing) := by
  cases due with
  | mk opened sign =>
    cases opened with
    | mk linked behind opening =>
      cases linked with
      | mk form before link =>
        have whole := form.group (.mk before link behind opening sign operand parentheses)
        simpa using whole

end Grammar

/-- How the text read so far is decomposed, at each place. -/
def Place.Shape (text : List Char) : Place → Prop
  | .head => AllAre (· = '(') text
  | .headSigned => ∃ parentheses c, text = parentheses ++ [c] ∧ AllAre (· = '(') parentheses ∧
      IsSign c
  | .headSpaced => Lead text
  | .first run => ∃ lead word, text = lead ++ word ∧ Lead lead ∧ word ≠ [] ∧ ∀ c ∈ word, run.Has c
  | .later run => ∃ due word, text = due ++ word ∧ Due due ∧ word ≠ [] ∧ ∀ c ∈ word, run.Has c
  | .closed => ∃ due word closing, text = due ++ word ++ closing ∧ Due due ∧ Operand word ∧
      AllAre IsParenthesis closing
  | .spaced => ∃ front c, text = front ++ [c] ∧ Form front ∧ IsBlank c
  | .signs => ∃ front before link, text = front ++ before ++ link ∧ Form front ∧
      AtMostOne IsBlank before ∧ link ≠ [] ∧ AllAre IsSign link
  | .tight => Linked text
  | .opened => Opened text
  | .signed => Due text

section Shape

variable {text : List Char} {place next : Place} {c : Char}

theorem Place.Shape.lead (shape : place.Shape text) (leading : place.leading = true) :
    Lead text := by
  cases place with
  | head =>
    have lead := Lead.mk shape (.inl rfl) (.inl rfl)
    simpa using lead
  | headSigned =>
    obtain ⟨parentheses, c, rfl, openings, sign⟩ := shape
    have lead := Lead.mk openings (.inr ⟨c, sign, rfl⟩) (.inl rfl)
    simpa using lead
  | headSpaced => exact shape
  | _ => contradiction

theorem Place.Shape.linked (shape : place.Shape text) (link : place = .signs ∨ place = .tight) :
    Linked text := by
  obtain rfl | rfl := link
  · obtain ⟨front, before, link, rfl, form, blank, nonempty, signs⟩ := shape
    exact .mk form blank (.inl ⟨nonempty, signs⟩)
  · exact shape

theorem Place.Shape.opened (shape : place.Shape text) (awaits : place.due = true)
    (unsigned : place ≠ .signed) : Opened text := by
  cases place with
  | signs => simpa using (Shape.linked shape (.inl rfl)).opened (.inl rfl)
  | tight => simpa using (Shape.linked shape (.inr rfl)).opened (.inl rfl)
  | opened => exact shape
  | _ => contradiction

theorem Place.Shape.due (shape : place.Shape text) (awaits : place.due = true) : Due text := by
  by_cases signed : place = .signed
  · subst place
    exact shape
  · exact (shape.opened awaits signed).due

theorem Place.Shape.form (shape : place.Shape text) (ends : place.ends = true) : Form text := by
  cases place with
  | first run =>
    obtain ⟨lead, word, rfl, isLead, nonempty, has⟩ := shape
    exact isLead.form (operand_of_run nonempty has)
  | later run =>
    obtain ⟨due, word, rfl, isDue, nonempty, has⟩ := shape
    have form := isDue.form (operand_of_run nonempty has) .nil
    simpa using form
  | closed =>
    obtain ⟨due, word, closing, rfl, isDue, operand, parentheses⟩ := shape
    exact isDue.form operand parentheses
  | _ => contradiction

theorem Place.ends_of_complete (complete : place.complete = true) (unspaced : place ≠ .spaced) :
    place.ends = true := by
  cases place with
  | first run | later run | closed => rfl
  | _ => contradiction

/-- Where an operator may come a form is read, and a blank at most. -/
theorem Place.Shape.complete (shape : place.Shape text) (complete : place.complete = true) :
    ∃ front before, text = front ++ before ∧ Form front ∧ AtMostOne IsBlank before := by
  by_cases spaced : place = .spaced
  · subst place
    obtain ⟨front, c, rfl, form, blank⟩ := shape
    exact ⟨front, [c], rfl, form, .inr ⟨c, blank, rfl⟩⟩
  · have form := shape.form (ends_of_complete complete spaced)
    exact ⟨text, [], (List.append_nil _).symm, form, .inl rfl⟩

theorem Place.Shape.step (shape : place.Shape text) (move : Move place c next) :
    next.Shape (text ++ [c]) := by
  cases move with
  | nest => exact AllAre.concat shape rfl
  | leadSign sign => exact ⟨text, c, rfl, shape, sign⟩
  | leadBlank source blank =>
    have one : AtMostOne IsBlank [c] := .inr ⟨c, blank, rfl⟩
    obtain rfl | rfl := source
    · have lead := Lead.mk shape (.inl rfl) one
      simpa [Place.Shape] using lead
    · obtain ⟨parentheses, d, rfl, openings, sign⟩ := shape
      exact Lead.mk openings (.inr ⟨d, sign, rfl⟩) one
  | first leading has => exact ⟨text, [c], rfl, shape.lead leading, by simp, by simpa using has⟩
  | later awaits has => exact ⟨text, [c], rfl, shape.due awaits, by simp, by simpa using has⟩
  | growFirst has =>
    obtain ⟨lead, word, rfl, isLead, _, all⟩ := shape
    exact ⟨lead, word ++ [c], by simp, isLead, by simp, Run.has_concat all has⟩
  | growLater has =>
    obtain ⟨due, word, rfl, isDue, _, all⟩ := shape
    exact ⟨due, word ++ [c], by simp, isDue, by simp, Run.has_concat all has⟩
  | bracketAfter source parenthesis =>
    obtain ⟨run, rfl⟩ | rfl := source
    · obtain ⟨due, word, rfl, isDue, nonempty, has⟩ := shape
      exact ⟨due, word, [c], rfl, isDue, operand_of_run nonempty has,
        by simpa [AllAre] using parenthesis⟩
    · obtain ⟨due, word, closing, rfl, isDue, operand, parentheses⟩ := shape
      exact ⟨due, word, closing ++ [c], by simp, isDue, operand, parentheses.concat parenthesis⟩
  | blankAfter complete unspaced blank =>
    exact ⟨text, c, rfl, shape.form (ends_of_complete complete unspaced), blank⟩
  | signAfter complete sign =>
    obtain ⟨front, before, rfl, form, blank⟩ := shape.complete complete
    exact ⟨front, before, [c], rfl, form, blank, by simp, by simpa [AllAre] using sign⟩
  | tightAfter complete tight =>
    obtain ⟨front, before, rfl, form, blank⟩ := shape.complete complete
    exact .mk form blank (.inr ⟨c, tight, rfl⟩)
  | sign sign =>
    obtain ⟨front, before, link, rfl, form, blank, _, signs⟩ := shape
    exact ⟨front, before, link ++ [c], by simp, form, blank, by simp, signs.concat sign⟩
  | blankBehind source blank => exact (shape.linked source).opened (.inr ⟨c, blank, rfl⟩)
  | bracketBehind awaits unsigned parenthesis =>
    exact (shape.opened awaits unsigned).parenthesis parenthesis
  | ownSign source sign =>
    have opened : Opened text := by
      obtain rfl | rfl := source
      · exact shape.opened rfl nofun
      · exact shape
    exact .mk opened (.inr ⟨c, sign, rfl⟩)

end Shape

theorem Scan.shape {text : List Char} {place : Place} (scan : Scan text place) :
    place.Shape text := by
  induction scan with
  | start => simp [Place.Shape, AllAre]
  | next _ move ih => exact ih.step move

section Led

variable {text : List Char}

theorem Grammar.Head.led (head : Head text) :
    ∃ run, text.foldlM Place.step .head = some (.first run) := by
  cases head with
  | mk openings isSign isBlank operand =>
    obtain ⟨place₁, reached₁, source⟩ := Place.foldlM_leadSign isSign
    obtain ⟨place₂, reached₂, leading⟩ := Place.foldlM_leadBlank source isBlank
    obtain ⟨run, reached₃⟩ := Place.foldlM_operand operand
    have signs := Place.foldlM_trans (Place.foldlM_openings openings) reached₁
    have lead := Place.foldlM_trans signs reached₂
    exact ⟨run, Place.foldlM_trans lead ((reached₃ place₂).1 leading)⟩

theorem Grammar.Group.led (group : Group text) {place : Place} (ends : place.ends = true) :
    ∃ last, text.foldlM Place.step place = some last ∧ last.ends = true := by
  cases group with
  | mk before link behind opening sign operand closing =>
    obtain ⟨place₁, reached₁, complete⟩ := Place.foldlM_before ends before
    obtain ⟨place₂, reached₂, isLink⟩ := Place.foldlM_link complete link
    obtain ⟨place₃, reached₃, isOpen⟩ := Place.foldlM_behind isLink behind
    obtain ⟨place₄, reached₄, isOpen⟩ := Place.foldlM_parentheses isOpen opening
    obtain ⟨place₅, reached₅, due⟩ := Place.foldlM_sign isOpen sign
    obtain ⟨run, reached₆⟩ := Place.foldlM_operand operand
    obtain ⟨last, reached₇, enclosable⟩ := Place.foldlM_closing (.inl ⟨run, rfl⟩) closing
    have linked := Place.foldlM_trans reached₁ reached₂
    have opened := Place.foldlM_trans (Place.foldlM_trans linked reached₃) reached₄
    have ended := Place.foldlM_trans (Place.foldlM_trans opened reached₅) ((reached₆ place₅).2 due)
    exact ⟨last, Place.foldlM_trans ended reached₇, enclosable.ends⟩

theorem groups_led {groups : List (List Char)} (all : ∀ group ∈ groups, Group group)
    {place : Place} (ends : place.ends = true) :
    ∃ last, groups.flatten.foldlM Place.step place = some last ∧ last.ends = true := by
  induction groups generalizing place with
  | nil => exact ⟨place, rfl, ends⟩
  | cons group rest ih =>
    obtain ⟨isGroup, others⟩ := List.forall_mem_cons.mp all
    obtain ⟨middle, reached, ends⟩ := isGroup.led ends
    obtain ⟨last, continued, ends⟩ := ih others ends
    exact ⟨last, Place.foldlM_trans reached continued, ends⟩

theorem Grammar.Form.led (form : Form text) :
    ∃ place, text.foldlM Place.step .head = some place ∧ place.ends = true := by
  cases form with
  | mk isHead all =>
    obtain ⟨run, reached⟩ := isHead.led
    obtain ⟨last, continued, ends⟩ := @groups_led _ all (.first run) rfl
    exact ⟨last, Place.foldlM_trans reached continued, ends⟩

end Led

/-- A text is accepted exactly if it has as many opening as closing parentheses and some
decomposition into a head and groups, from its first to its very last character. -/
theorem accepts_iff_form (text : List Char) :
    accepts text = true ↔ text.count '(' = text.count ')' ∧ Form text := by
  rw [accepts_iff]
  apply and_congr_right
  intro _
  constructor
  · rintro ⟨place, led, ends⟩
    exact (scan_of_foldlM led).shape.form ends
  · exact Form.led

end Reckoner.Infix
