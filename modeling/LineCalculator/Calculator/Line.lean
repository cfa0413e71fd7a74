import LineCalculator.Assignment
import LineCalculator.Expression.Chain

/-! A calculator evaluates lines. A line that shows nothing is skipped; any other line is an
assignment. Steps that an expression took before it failed stay taken, but a line that fails
assigns nothing to its target. -/

namespace LineCalculator.Calculator

/-- Evaluates the expression that a text starts with. -/
def evaluateExpression (source : Text) : Action Calculator Fault Int := fun calculator =>
  match Run.start calculator source with
  | .error fault => (.error fault, calculator)
  | .ok run =>
    let (result, last) := Run.expression run
    (result, last.toCalculator)

def assignedValue (assignment : Assignment) (value : Int) : Action Calculator Fault Int :=
  fun calculator =>
    match assignment.form.operator? with
    | none => (.ok value, calculator)
    | some op =>
      ((op.apply (calculator.values.get assignment.target) value).mapError .arithmetic,
        calculator)

def assign (name : Text) (value : Int) (calculator : Calculator) : Calculator :=
  { calculator with values := calculator.values.set name value }.record (.assigned name value)

def carryOut (assignment : Assignment) : Action Calculator Fault Unit := do
  let value ← evaluateExpression assignment.expression
  let value ← assignedValue assignment value
  modify (assign assignment.target value)

def evaluate (line : Text) : Action Calculator Fault Unit := do
  let line := line.trim
  if line.isEmpty then
    modify (record · .lineSkipped)
  else
    modify (record · (.lineStarted line))
    carryOut (← .ofExcept ((Assignment.ofLine line).mapError .reading))

end LineCalculator.Calculator
