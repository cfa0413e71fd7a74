import LineCalculator.Expression.Factor

/-! Chains of operands with operators between them. A term is a chain of factors with the
operators of a product, an expression is a chain of terms with the operators of a sum. A chain
is evaluated while it is read, from left to right. -/

namespace LineCalculator.Run

structure Operand where
  evaluate : Action Run Fault Int
  consumes : Consumes evaluate

/-- Continues a chain behind the operand with the given value: as long as the cursor is at an
operator that belongs to the chain, the next operand is evaluated and the operator applied. -/
def chain (belongs : Operator → Bool) (operand : Operand) (value : Int) (run : Run) :
    Except Fault Int × Run :=
  match _ : run.cursor.current with
  | .operator op =>
    if belongs op then
      match _ : advance run with
      | (.ok _, behind) =>
        match _ : operand.evaluate behind with
        | (.ok right, last) =>
          match op.apply value right with
          | .ok result => chain belongs operand result last
          | .error fault => (.error (.arithmetic fault), last)
        | (.error fault, last) => (.error fault, last)
      | (.error fault, last) => (.error fault, last)
    else
      (.ok value, run)
  | _ => (.ok value, run)
termination_by run.size
decreasing_by
  have smaller := @size_advance_lt run (by simp [*])
  have rest := operand.consumes behind
  simp only [*, LeavesNoMore] at smaller rest
  exact Nat.lt_of_le_of_lt rest smaller

theorem Partwise.chain {relation : Run → Option Fault → Run → Prop} (partwise : Partwise relation)
    (belongs : Operator → Bool) {operand : Operand} (ensures : operand.evaluate.Ensures relation)
    (value : Int) : Action.Ensures relation (chain belongs operand value) := by
  intro run
  have passed := partwise.advance run
  fun_induction Run.chain belongs operand value run with
  | case1 value run op current here _ behind read right last done result applied ih =>
    have evaluated := ensures behind
    rw [read] at passed
    rw [done] at evaluated
    exact partwise.trans (partwise.trans passed evaluated) (ih (partwise.advance last))
  | case2 value run op current here _ behind read right last done fault failed =>
    have evaluated := ensures behind
    rw [read] at passed
    rw [done] at evaluated
    exact partwise.trans (partwise.trans passed evaluated) (partwise.arithmetic last fault)
  | case3 value run op current here _ behind read fault last failed =>
    have evaluated := ensures behind
    rw [read] at passed
    rw [failed] at evaluated
    exact partwise.trans passed evaluated
  | case4 value run op current here fault last read =>
    rw [read] at passed
    exact passed
  | case5 value run | case6 value run => exact partwise.refl run

def factorOperand : Operand :=
  ⟨factor, Consumes.factor⟩

def term : Action Run Fault Int := do
  chain Operator.inProduct factorOperand (← factor)

theorem Partwise.term {relation : Run → Option Fault → Run → Prop} (partwise : Partwise relation) :
    term.Ensures relation :=
  .bind partwise.toSequential partwise.factor fun value => partwise.chain _ partwise.factor value

theorem Stepwise.term {relation : Run → Option Fault → Run → Prop} (stepwise : Stepwise relation) :
    term.Ensures relation :=
  stepwise.partwise.term

def termOperand : Operand :=
  ⟨term, stepwise_leavesNoMore.term⟩

/-- Evaluates the expression that starts at the cursor, and stops at the first token that
cannot continue it. -/
def expression : Action Run Fault Int := do
  chain Operator.inSum termOperand (← term)

theorem Partwise.expression {relation : Run → Option Fault → Run → Prop}
    (partwise : Partwise relation) : expression.Ensures relation :=
  .bind partwise.toSequential partwise.term fun value => partwise.chain _ partwise.term value

theorem Stepwise.expression {relation : Run → Option Fault → Run → Prop}
    (stepwise : Stepwise relation) : expression.Ensures relation :=
  stepwise.partwise.expression

end LineCalculator.Run
