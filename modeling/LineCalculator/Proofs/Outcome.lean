import LineCalculator.Proofs.Evaluation

/-! What evaluating a line comes to. There are five ways: the line shows nothing, it is no
assignment, its expression has no value, its value does not fit, or it is assigned. -/

namespace LineCalculator

/-- Whether the value of an assignment is this one, where the variables are those behind its
expression. -/
def Assignment.Gives (assignment : Assignment) (values : Variables) (value new : Int) : Prop :=
  match assignment.form.operator? with
  | none => new = value
  | some op => op.apply (values.get assignment.target) value = .ok new

inductive LineOutcome (line : Text) (before : Variables) : Except Fault Unit → Variables → Prop
  | skipped (blank : line.trim = []) : LineOutcome line before (.ok ()) before
  | refused {fault : ReadingFault} (shown : line.trim ≠ [])
    (read : Assignment.ofLine line.trim = .error fault) :
    LineOutcome line before (.error (.reading fault)) before
  | failed {assignment : Assignment} {fault : Fault} {after : Variables} (shown : line.trim ≠ [])
    (read : Assignment.ofLine line.trim = .ok assignment)
    (evaluated : assignment.expression.reading.evaluate before = (.error fault, after)) :
    LineOutcome line before (.error fault) after
  | overflowed {assignment : Assignment} {value : Int} {after : Variables} {op : Operator}
    (shown : line.trim ≠ []) (read : Assignment.ofLine line.trim = .ok assignment)
    (evaluated : assignment.expression.reading.evaluate before = (.ok value, after))
    (compound : assignment.form.operator? = some op)
    (outside : ¬InRange (op.exact (after.get assignment.target) value)) :
    LineOutcome line before
      (.error (.arithmetic (.overflow op (after.get assignment.target) value))) after
  | assigned {assignment : Assignment} {value new : Int} {after : Variables}
    (shown : line.trim ≠ []) (read : Assignment.ofLine line.trim = .ok assignment)
    (evaluated : assignment.expression.reading.evaluate before = (.ok value, after))
    (gives : assignment.Gives after value new) :
    LineOutcome line before (.ok ()) (after.set assignment.target new)

namespace AssignmentForm

theorem operator?_ne_divide {form : AssignmentForm} {op : Operator}
    (compound : form.operator? = some op) : op ≠ .divide := by
  cases form <;> cases compound <;> simp

end AssignmentForm

namespace Calculator

theorem evaluate_of_blank {line : Text} (blank : line.trim = []) (calculator : Calculator) :
    evaluate line calculator = (.ok (), calculator.record .lineSkipped) := by
  rw [evaluate, blank]
  rfl

theorem evaluate_of_shown {line : Text} (shown : line.trim ≠ []) (calculator : Calculator) :
    evaluate line calculator =
      (.ofExcept ((Assignment.ofLine line.trim).mapError .reading) >>= carryOut :
        Action Calculator Fault Unit) (calculator.record (.lineStarted line.trim)) := by
  have some : line.trim.isEmpty = false := by simpa using shown
  rw [evaluate, some]
  exact Action.apply_bind_of_ok (Action.apply_modify _ _)

theorem evaluate_of_assignment {line : Text} {assignment : Assignment} (shown : line.trim ≠ [])
    (read : Assignment.ofLine line.trim = .ok assignment) (calculator : Calculator) :
    evaluate line calculator =
      carryOut assignment (calculator.record (.lineStarted line.trim)) := by
  rw [evaluate_of_shown shown, read]
  rfl

theorem evaluateExpression_eq_mk {source : Text} (calculator : Calculator)
    {result : Except Fault Int} {after : Variables}
    (evaluated : source.reading.evaluate calculator.values = (result, after)) :
    ∃ last, evaluateExpression source calculator = (result, last) ∧ last.values = after := by
  obtain ⟨same, left⟩ := Prod.mk.inj ((evaluateExpression_eq_reading _ _).symm.trans evaluated)
  exact ⟨_, Prod.ext same rfl, left⟩

theorem assignedValue_cases (assignment : Assignment) (value : Int) (calculator : Calculator) :
    (∃ new, assignedValue assignment value calculator = (.ok new, calculator) ∧
      assignment.Gives calculator.values value new) ∨
    ∃ op, assignment.form.operator? = some op ∧
      ¬InRange (op.exact (calculator.values.get assignment.target) value) ∧
      assignedValue assignment value calculator =
        (.error (.arithmetic (.overflow op (calculator.values.get assignment.target) value)),
          calculator) := by
  cases compound : assignment.form.operator? with
  | none =>
    refine .inl ⟨value, ?_, by rw [Assignment.Gives, compound]⟩
    rw [assignedValue, compound]
  | some op =>
    have applied := Operator.apply_of_ne_divide (AssignmentForm.operator?_ne_divide compound)
      (calculator.values.get assignment.target) value
    have given : assignedValue assignment value calculator =
        ((op.apply (calculator.values.get assignment.target) value).mapError .arithmetic,
          calculator) := by
      rw [assignedValue, compound]
    by_cases inside : InRange (op.exact (calculator.values.get assignment.target) value)
    · rw [if_pos inside] at applied
      rw [applied] at given
      exact .inl ⟨_, given, by rw [Assignment.Gives, compound]; exact applied⟩
    · rw [if_neg inside] at applied
      rw [applied] at given
      exact .inr ⟨op, rfl, inside, given⟩

section Assigns

variable {line : Text} {assignment : Assignment}
  (read : Assignment.ofLine line.trim = .ok assignment) {calculator : Calculator}
  {after : Variables}

include read

theorem ne_nil_of_assignment : line.trim ≠ [] := by
  intro blank
  rw [blank] at read
  cases read

theorem evaluate_of_fault {fault : Fault}
    (failed : assignment.expression.reading.evaluate calculator.values = (.error fault, after)) :
    (evaluate line calculator).1 = .error fault ∧
      (evaluate line calculator).2.values = after := by
  obtain ⟨last, stopped, rfl⟩ :=
    evaluateExpression_eq_mk (calculator.record (.lineStarted line.trim)) failed
  rw [evaluate_of_assignment (ne_nil_of_assignment read) read, carryOut,
    Action.apply_bind_of_error stopped]
  exact ⟨rfl, rfl⟩

theorem evaluate_of_gives {value new : Int}
    (evaluated : assignment.expression.reading.evaluate calculator.values = (.ok value, after))
    (gives : assignment.Gives after value new) :
    (evaluate line calculator).1 = .ok () ∧
      (evaluate line calculator).2.values = after.set assignment.target new := by
  obtain ⟨last, done, rfl⟩ :=
    evaluateExpression_eq_mk (calculator.record (.lineStarted line.trim)) evaluated
  have given : assignedValue assignment value last = (.ok new, last) := by
    rw [Assignment.Gives] at gives
    rw [assignedValue]
    cases compound : assignment.form.operator? with
    | none =>
      rw [compound] at gives
      rw [gives]
    | some op =>
      rw [compound] at gives
      have applied : op.apply (last.values.get assignment.target) value = .ok new := gives
      simp only [applied]
      rfl
  rw [evaluate_of_assignment (ne_nil_of_assignment read) read, carryOut,
    Action.apply_bind_of_ok done, Action.apply_bind_of_ok given]
  exact ⟨rfl, rfl⟩

theorem evaluate_of_refused {value : Int} {op : Operator} {fault : ArithmeticFault}
    (evaluated : assignment.expression.reading.evaluate calculator.values = (.ok value, after))
    (compound : assignment.form.operator? = some op)
    (refused : op.apply (after.get assignment.target) value = .error fault) :
    (evaluate line calculator).1 = .error (.arithmetic fault) ∧
      (evaluate line calculator).2.values = after := by
  obtain ⟨last, done, rfl⟩ :=
    evaluateExpression_eq_mk (calculator.record (.lineStarted line.trim)) evaluated
  have given : assignedValue assignment value last = (.error (.arithmetic fault), last) := by
    rw [assignedValue, compound]
    simp only [refused]
    rfl
  rw [evaluate_of_assignment (ne_nil_of_assignment read) read, carryOut,
    Action.apply_bind_of_ok done, Action.apply_bind_of_error given]
  exact ⟨rfl, rfl⟩

end Assigns

theorem outcome_of_carryOut {line : Text} {assignment : Assignment} (shown : line.trim ≠ [])
    (read : Assignment.ofLine line.trim = .ok assignment) (calculator : Calculator) :
    LineOutcome line calculator.values (carryOut assignment calculator).1
      (carryOut assignment calculator).2.values := by
  cases evaluated : assignment.expression.reading.evaluate calculator.values with
  | mk result after =>
    obtain ⟨last, done, rfl⟩ := evaluateExpression_eq_mk calculator evaluated
    rw [carryOut]
    cases result with
    | error fault =>
      rw [Action.apply_bind_of_error done]
      exact .failed shown read evaluated
    | ok value =>
      rw [Action.apply_bind_of_ok done]
      rcases assignedValue_cases assignment value last with
        ⟨new, given, gives⟩ | ⟨op, compound, outside, refused⟩
      · rw [Action.apply_bind_of_ok given]
        exact .assigned shown read evaluated gives
      · rw [Action.apply_bind_of_error refused]
        exact .overflowed shown read evaluated compound outside

theorem outcome_of_evaluate (line : Text) (calculator : Calculator) :
    LineOutcome line calculator.values (evaluate line calculator).1
      (evaluate line calculator).2.values := by
  by_cases blank : line.trim = []
  · rw [evaluate_of_blank blank]
    exact .skipped blank
  · cases read : Assignment.ofLine line.trim with
    | error fault =>
      rw [evaluate_of_shown blank, read]
      exact .refused blank read
    | ok assignment =>
      rw [evaluate_of_assignment blank read]
      exact outcome_of_carryOut blank read (calculator.record _)

end Calculator

end LineCalculator
