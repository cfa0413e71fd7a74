import LineCalculator.Proofs.Equality
import LineCalculator.Proofs.Locality
import LineCalculator.Proofs.Outcome

/-! Lines that have nothing to do with each other. A line that fails half way has changed some
variables, but only such as it may change, and how far it comes depends on the variables that it
names. So two lines can be evaluated in either order if neither names a variable that the other
one may change. -/

namespace LineCalculator

def Assignment.Names (assignment : Assignment) (name : Text) : Prop :=
  name = assignment.target ∨ assignment.expression.Mentions name

/-- Whether an assignment may change the variable of this name: its target, or one that stands at a
step in its expression. -/
def Assignment.MayChange (assignment : Assignment) (name : Text) : Prop :=
  name = assignment.target ∨ assignment.expression.Steps name

theorem Text.mentions_of_steps {source name : Text} (here : source.Steps name) :
    source.Mentions name := by
  obtain ⟨step, before | behind⟩ := here
  · exact before.subset (by simp)
  · exact behind.subset (by simp)

theorem Assignment.names_of_mayChange {assignment : Assignment} {name : Text}
    (change : assignment.MayChange name) : assignment.Names name :=
  change.imp_right Text.mentions_of_steps

namespace Variables

def SameAt (known : Text → Prop) (left right : Variables) : Prop :=
  ∀ name, known name → left.find? name = right.find? name

theorem congruence_sameAt (known : Text → Prop) : Congruence known (SameAt known) where
  get same here := by rw [Variables.get, Variables.get, same _ here]
  set same _ value other here := by rw [find?_set, find?_set, same other here]

end Variables

theorem LineOutcome.find?_eq {line : Text} {before after : Variables}
    {result : Except Fault Unit} (outcome : LineOutcome line before result after)
    {assignment : Assignment} (read : Assignment.ofLine line.trim = .ok assignment) {name : Text}
    (apart : ¬assignment.MayChange name) : after.find? name = before.find? name := by
  have kept {result : Except Fault Int} {middle : Variables}
      (evaluated : assignment.expression.reading.evaluate before = (result, middle)) :
      middle.find? name = before.find? name := by
    obtain ⟨consumed, made, leaves, -⟩ := Text.exists_leaves evaluated
    refine leaves.find?_eq fun member => ?_
    obtain ⟨change, here, rfl⟩ := List.mem_map.1 member
    exact apart (.inr (leaves.steps_of_mem here))
  cases outcome with
  | skipped blank | refused shown refused => rfl
  | failed shown again evaluated | overflowed shown again evaluated compound outside =>
    cases read.symm.trans again
    exact kept evaluated
  | assigned shown again evaluated gives =>
    cases read.symm.trans again
    rw [Variables.find?_set, if_neg fun target => apart (.inl target), kept evaluated]

namespace Calculator

section Congruence

variable {known : Text → Prop} {relation : Variables → Variables → Prop}
  (congruence : Variables.Congruence known relation)

include congruence

theorem relates_evaluateExpression {source : Text}
    (mentioned : ∀ name, source.Mentions name → known name) :
    (evaluateExpression source).Relates fun left right => relation left.values right.values := by
  intro left right related
  have same := Text.relates_reading congruence mentioned left.values right.values related
  rwa [evaluateExpression_eq_reading, evaluateExpression_eq_reading] at same

theorem relates_assignedValue {assignment : Assignment} (target : known assignment.target)
    (value : Int) :
    (assignedValue assignment value).Relates fun left right =>
      relation left.values right.values := by
  intro left right related
  rw [assignedValue, assignedValue, congruence.get related target]
  cases assignment.form.operator? <;> exact ⟨rfl, related⟩

theorem relates_evaluate {line : Text} {assignment : Assignment}
    (read : Assignment.ofLine line.trim = .ok assignment)
    (named : ∀ name, assignment.Names name → known name) :
    (evaluate line).Relates fun left right => relation left.values right.values := by
  have target : known assignment.target := named _ (.inl rfl)
  have carried : (carryOut assignment).Relates fun left right =>
      relation left.values right.values := by
    refine (relates_evaluateExpression congruence fun name here => named name (.inr here)).bind
      fun value => (relates_assignedValue congruence target value).bind fun new => ?_
    intro left right related
    exact ⟨rfl, congruence.set related target new⟩
  have shown : line.trim ≠ [] := ne_nil_of_assignment read
  intro left right related
  rw [evaluate_of_assignment shown read, evaluate_of_assignment shown read]
  exact carried _ _ related

end Congruence

/-- The results of two assignments are the same in either order, and so are the variables, if
neither may change a variable that the other one names. This holds also when they fail. -/
theorem evaluate_commutes {first second : Text} {one other : Assignment}
    (readFirst : Assignment.ofLine first.trim = .ok one)
    (readSecond : Assignment.ofLine second.trim = .ok other)
    (firstApart : ∀ name, one.MayChange name → ¬other.Names name)
    (secondApart : ∀ name, other.MayChange name → ¬one.Names name) (calculator : Calculator) :
    let firstOnly := evaluate first calculator
    let secondBehind := evaluate second firstOnly.2
    let secondOnly := evaluate second calculator
    let firstBehind := evaluate first secondOnly.2
    firstBehind.1 = firstOnly.1 ∧ secondBehind.1 = secondOnly.1 ∧
      secondBehind.2.values.agree firstBehind.2.values = true := by
  intro firstOnly secondBehind secondOnly firstBehind
  have keepsFirst (calculator : Calculator) {name : Text} (apart : ¬one.MayChange name) :
      (evaluate first calculator).2.values.find? name = calculator.values.find? name :=
    (outcome_of_evaluate first calculator).find?_eq readFirst apart
  have keepsSecond (calculator : Calculator) {name : Text} (apart : ¬other.MayChange name) :
      (evaluate second calculator).2.values.find? name = calculator.values.find? name :=
    (outcome_of_evaluate second calculator).find?_eq readSecond apart
  -- What one line leaves is, for the other one, as it was at the beginning.
  obtain ⟨sameFirst, atFirst⟩ :=
    relates_evaluate (Variables.congruence_sameAt one.Names) readFirst (fun _ here => here)
      secondOnly.2 calculator fun name here =>
        keepsSecond calculator fun change => secondApart name change here
  obtain ⟨sameSecond, atSecond⟩ :=
    relates_evaluate (Variables.congruence_sameAt other.Names) readSecond (fun _ here => here)
      firstOnly.2 calculator fun name here =>
        keepsFirst calculator fun change => firstApart name change here
  refine ⟨sameFirst, sameSecond, Variables.agree_iff.2 fun name => ?_⟩
  by_cases inFirst : one.Names name
  · have apart : ¬other.MayChange name := fun change => secondApart name change inFirst
    exact (keepsSecond firstOnly.2 apart).trans (atFirst name inFirst).symm
  · have apart : ¬one.MayChange name := fun change => inFirst (Assignment.names_of_mayChange change)
    have behind : firstBehind.2.values.find? name = secondOnly.2.values.find? name :=
      keepsFirst secondOnly.2 apart
    by_cases inSecond : other.Names name
    · exact (atSecond name inSecond).trans behind.symm
    · have also : ¬other.MayChange name :=
        fun change => inSecond (Assignment.names_of_mayChange change)
      exact (keepsSecond firstOnly.2 also).trans <| (keepsFirst calculator apart).trans <|
        (keepsSecond calculator also).symm.trans behind.symm

theorem evaluate_commutes_behind_zero :
    let first : Text := "x = i++ / z".toList
    let second : Text := "y += z + j--".toList
    let calculator : Calculator := ⟨⟨[(['z'], 0), (['i'], 4)], by simp⟩, .empty⟩
    (evaluate first (evaluate second calculator).2).1 = .error (.arithmetic .divisionByZero) ∧
      (evaluate second (evaluate first calculator).2).2.values.agree
        (evaluate first (evaluate second calculator).2).2.values = true := by
  intro first second calculator
  let one : Assignment := ⟨['x'], .replace, "i++ / z".toList⟩
  let other : Assignment := ⟨['y'], .addTo, "z + j--".toList⟩
  have readFirst : Assignment.ofLine first.trim = .ok one := rfl
  have readSecond : Assignment.ofLine second.trim = .ok other := rfl
  have scannedFirst : one.expression.items = [.ok (.name ['i']), .ok (.stepAfter .increment),
      .ok (.operator .divide), .ok (.name ['z'])] :=
    Text.items_eq _
  have scannedSecond : other.expression.items = [.ok (.name ['z']), .ok (.operator .add),
      .ok (.name ['j']), .ok (.stepAfter .decrement)] :=
    Text.items_eq _
  have firstApart (name : Text) (change : one.MayChange name) : ¬other.Names name := by
    rw [Assignment.MayChange, Text.Steps, scannedFirst] at change
    have changed : name = ['x'] ∨ name = ['i'] := by simpa [List.infix_cons_iff] using change
    rw [Assignment.Names, Text.Mentions, scannedSecond]
    rcases changed with rfl | rfl <;> simp [other]
  have secondApart (name : Text) (change : other.MayChange name) : ¬one.Names name := by
    rw [Assignment.MayChange, Text.Steps, scannedSecond] at change
    have changed : name = ['y'] ∨ name = ['j'] := by simpa [List.infix_cons_iff] using change
    rw [Assignment.Names, Text.Mentions, scannedFirst]
    rcases changed with rfl | rfl <;> simp [one]
  obtain ⟨sameFirst, -, agree⟩ :=
    evaluate_commutes readFirst readSecond firstApart secondApart calculator
  refine ⟨sameFirst.trans ?_, agree⟩
  have evaluated : one.expression.reading.evaluate calculator.values =
      (.error (.arithmetic .divisionByZero), calculator.values.set ['i'] 5) := by
    rw [Text.reading, scannedFirst]
    rfl
  exact (evaluate_of_fault readFirst evaluated).1

end Calculator

end LineCalculator
