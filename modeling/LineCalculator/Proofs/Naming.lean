import LineCalculator.Proofs.Display
import LineCalculator.Proofs.Locality

/-! Names on both sides of an assignment. What stands before the operator is checked character by
character; what stands behind it is read as tokens. Both take the same texts for names, so the
variables that lines can assign are those that expressions can read and step. -/

namespace LineCalculator

namespace Text

/-- The whole text is read as one name, and behind it comes the end. -/
def ReadsAsName (text : Text) : Prop :=
  ∃ cursor, Cursor.start text = .ok cursor ∧ cursor.current = .name text ∧
    cursor.advance.1 = .ok (.name text) ∧ cursor.advance.2.current = .finish

def IsTarget (name : Text) : Prop :=
  ∃ line assignment, Assignment.ofLine (trim line) = .ok assignment ∧ assignment.target = name

/-- Whenever the value of the variable can be incremented, evaluating the text reads that value,
increments it and does nothing else. -/
def Increments (source name : Text) : Prop :=
  ∀ calculator : Calculator, InRange (calculator.values.get name + 1) →
    (Calculator.evaluateExpression source calculator).1 = .ok (calculator.values.get name) ∧
      (Calculator.evaluateExpression source calculator).2.values =
        calculator.values.set name (calculator.values.get name + 1)

theorem isValid_iff_readsAsName {name : Text} : Name.isValid name = true ↔ name.ReadsAsName := by
  constructor
  · intro valid
    have read := Unread.next_of_isValid valid
    exact ⟨⟨.name name, ⟨[], []⟩⟩, by rw [Cursor.start, read], rfl, rfl, rfl⟩
  · rintro ⟨cursor, started, current, -⟩
    rcases Cursor.start_cases name with ⟨fault, rest, -, failed⟩ | ⟨first, begun, items⟩
    · rw [started] at failed
      cases failed
    · cases started.symm.trans begun
      have inside : cursor.current ≠ .finish := by simp [current]
      have member : .ok cursor.current ∈ name.items := by
        rw [← items, Cursor.items_of_inside inside]
        exact List.mem_cons_self
      exact Text.wellSpelled_of_mem_items (current ▸ member)

theorem isTarget_iff {name : Text} : name.IsTarget ↔ Name.isValid name = true := by
  constructor
  · rintro ⟨line, assignment, read, rfl⟩
    exact Assignment.isValid_target read
  · intro valid
    exact ⟨_, _, Variables.ofLine_trim_entryText valid 0, rfl⟩

section Incremented

variable {name : Text} (valid : Name.isValid name = true)

include valid

theorem items_incremented :
    items (name ++ Step.text .increment) = [.ok (.name name), .ok (.stepAfter .increment)] := by
  have read : Unread.next ⟨name ++ Step.text .increment, []⟩ =
      (.ok (.name name), ⟨[], [.increment]⟩) :=
    Unread.next_of_lexeme (.name valid (stopsAt_cons rfl _))
  rw [items, Unread.items_of_item read (by simp), Unread.items_of_item rfl (by simp),
    Unread.items_of_finish rfl]

theorem increments_incremented : Increments (name ++ Step.text .increment) name := by
  intro calculator inside
  have whole : reading (name ++ Step.text .increment) =
      .whole (.stepped .after .increment name) [] := by
    rw [reading, items_incremented valid]
    rfl
  have applied : Operator.add.apply (calculator.values.get name) 1 =
      .ok (calculator.values.get name + 1) :=
    Operator.apply_eq_ok_iff.2 ⟨by simp, inside, rfl⟩
  have evaluated := Calculator.evaluateExpression_eq_reading (name ++ Step.text .increment)
    calculator
  rw [whole, Reading.evaluate, Tree.evaluate_stepped, Step.operator, applied] at evaluated
  exact ⟨(congrArg Prod.fst evaluated).symm, (congrArg Prod.snd evaluated).symm⟩

end Incremented

theorem isValid_of_increments {source name : Text} (increments : source.Increments name) :
    Name.isValid name = true := by
  obtain ⟨value, values⟩ := increments .new (show InRange (0 + 1) by decide)
  obtain ⟨consumed, made, leaves, -⟩ :=
    Text.exists_leaves (Calculator.evaluateExpression_eq_reading source .new)
  by_cases changed : name ∈ made.map Change.name
  · obtain ⟨change, here, rfl⟩ := List.mem_map.1 changed
    exact leaves.isValid_name here
  · have kept := leaves.find?_eq changed
    rw [values, Variables.find?_set, if_pos rfl] at kept
    cases kept

/-- A text can name a variable exactly when it is read as a name from end to end. So the targets of
lines are the names that expressions can mention, and those that they can read and increment. -/
theorem names_agree (name : Text) :
    (Name.isValid name = true ↔ name.ReadsAsName) ∧
      (name.IsTarget ↔ ∃ source : Text, source.Mentions name) ∧
      (name.IsTarget ↔ ∃ source : Text, source.Increments name) := by
  refine ⟨isValid_iff_readsAsName, isTarget_iff.trans ⟨fun valid => ?_, ?_⟩,
    isTarget_iff.trans ⟨fun valid => ⟨_, increments_incremented valid⟩, ?_⟩⟩
  · refine ⟨name ++ Step.text .increment, ?_⟩
    rw [Mentions, items_incremented valid]
    exact List.mem_cons_self
  · rintro ⟨source, mentions⟩
    exact Text.wellSpelled_of_mem_items mentions
  · rintro ⟨source, increments⟩
    exact isValid_of_increments increments

end Text

end LineCalculator
