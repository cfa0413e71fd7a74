import LineCalculator.Proofs.Outcome
import LineCalculator.Proofs.Segment

/-! What a line that fails leaves behind. Nothing is undone: the steps that its expression took
before the fault stay taken. But the target is assigned nothing. -/

namespace LineCalculator

open Grammar

theorem Text.ne_malformed_of_evaluate {source : Text} {values after : Variables} {fault : Fault}
    (failed : source.reading.evaluate values = (.error fault, after)) (details : Text) :
    fault ≠ .reading (.malformed details) := by
  rintro rfl
  rcases Reading.evaluate_error_cases failed with
    spoilt | ⟨parts, token, rest, -, same⟩ | ⟨parts, flaw, faulty, same, -⟩
  · exact spoilt
  · cases same
  · cases same
    obtain ⟨tokens, rest, progress, items, -⟩ := Progress.read_eq_faulty faulty
    have member : .error (.malformed details) ∈ source.items := by simp [items]
    exact Unread.isLexical_of_mem_items member

namespace Calculator

/-- A line that fails was no assignment, and then nothing is changed, or its expression was begun.
Then the variables differ by an initial segment of the steps in the expression, so that the target
is changed only by steps of its own. If the expression has a value, the segment is all steps in the
sentence that was used up, and the fault says which values could not be put together. -/
theorem evaluate_failure_leaves {line : Text} {calculator : Calculator} {fault : Fault}
    (failed : (evaluate line calculator).1 = .error fault) :
    let after := (evaluate line calculator).2.values
    (∃ refusal, Assignment.ofLine line.trim = .error refusal ∧ fault = .reading refusal ∧
      after = calculator.values) ∨
    ∃ assignment consumed made, Assignment.ofLine line.trim = .ok assignment ∧
      (∀ details, fault ≠ .reading (.malformed details)) ∧
      assignment.expression.Leaves calculator.values after consumed made ∧
      (∀ name, name ∉ made.map Change.name → after.find? name = calculator.values.find? name) ∧
      ((evaluateExpression assignment.expression calculator).1 = .error fault ∨
        ∃ op value tree, assignment.form.operator? = some op ∧
          (evaluateExpression assignment.expression calculator).1 = .ok value ∧
          Sentence consumed tree ∧ tree.evaluate calculator.values = (.ok value, after) ∧
          made = changes consumed ∧
          fault = .arithmetic (.overflow op (after.get assignment.target) value) ∧
          ¬InRange (op.exact (after.get assignment.target) value)) := by
  intro after
  have outcome : LineOutcome line calculator.values (.error fault) after :=
    failed ▸ outcome_of_evaluate line calculator
  clear_value after
  cases outcome with
  | refused shown read => exact .inl ⟨_, read, rfl, rfl⟩
  | @failed assignment fault after shown read evaluated =>
    obtain ⟨consumed, made, leaves, -⟩ := Text.exists_leaves evaluated
    obtain ⟨last, done, -⟩ := evaluateExpression_eq_mk calculator evaluated
    exact .inr ⟨assignment, consumed, made, read,
      Text.ne_malformed_of_evaluate evaluated, leaves, fun _ => leaves.find?_eq,
      .inl (congrArg Prod.fst done)⟩
  | @overflowed assignment value after op shown read evaluated compound outside =>
    obtain ⟨consumed, made, leaves, whole⟩ := Text.exists_leaves evaluated
    obtain ⟨all, tree, sentence, valued⟩ := whole value rfl
    obtain ⟨last, done, -⟩ := evaluateExpression_eq_mk calculator evaluated
    exact .inr ⟨assignment, consumed, made, read, by simp, leaves, fun _ => leaves.find?_eq,
      .inr ⟨op, value, tree, compound, congrArg Prod.fst done, sentence, valued, all, rfl, outside⟩⟩

theorem evaluate_failure_behind_own_step :
    let line : Text := " x += x++ ".toList
    let calculator : Calculator := ⟨⟨[(['x'], maxValue - 1)], by simp⟩, .empty⟩
    (evaluate line calculator).1 =
        .error (.arithmetic (.overflow .add maxValue (maxValue - 1))) ∧
      (evaluate line calculator).2.values.get ['x'] = maxValue := by
  intro line calculator
  let assignment : Assignment := ⟨['x'], .addTo, "x++".toList⟩
  have shown : line.trim ≠ [] := by decide
  have read : Assignment.ofLine line.trim = .ok assignment := rfl
  have scanned : Text.items "x++".toList = [.ok (.name ['x']), .ok (.stepAfter .increment)] :=
    Text.items_eq _
  have evaluated : (Text.reading "x++".toList).evaluate calculator.values =
      (.ok (maxValue - 1), calculator.values.set ['x'] maxValue) := by
    rw [Text.reading, scanned]
    rfl
  have failed : (evaluate line calculator).1 =
      .error (.arithmetic (.overflow .add maxValue (maxValue - 1))) := by
    obtain ⟨last, done, kept⟩ := evaluateExpression_eq_mk
      (calculator.record (.lineStarted line.trim)) evaluated
    have given : assignedValue assignment (maxValue - 1) last =
        (.error (.arithmetic (.overflow .add maxValue (maxValue - 1))), last) := by
      rw [assignedValue, kept]
      rfl
    rw [evaluate_of_assignment shown read, carryOut, Action.apply_bind_of_ok done,
      Action.apply_bind_of_error given]
  rcases evaluate_failure_leaves failed with ⟨refusal, refused, -⟩ |
    ⟨other, consumed, made, again, -, leaves, -, late⟩
  · cases read.symm.trans refused
  · cases read.symm.trans again
    refine ⟨failed, ?_⟩
    obtain ⟨last, done, -⟩ := evaluateExpression_eq_mk calculator evaluated
    rcases late with early | ⟨op, value, tree, -, -, -, -, -, same, -⟩
    · cases (congrArg Prod.fst done).symm.trans early
    · simp only [Fault.arithmetic.injEq, ArithmeticFault.overflow.injEq] at same
      exact same.2.1.symm

end Calculator

end LineCalculator
