import LineCalculator.Expression.Run

/-! Factors: a literal, a variable with or without a step on one side, or the opposite of a
factor. A step changes its variable only when the token behind the factor has been read.

What holds of every part of evaluating a factor holds of the factor. The first use of this is that
evaluating a factor never leaves more to read. -/

namespace LineCalculator.Run

def literal (digits : Text) : Action Run Fault Int := do
  let _ ← advance
  .ofExcept ((literalValue digits).mapError .reading)

/-- The variable behind the step at the cursor, with the value that it has after the step. -/
def stepThenRead (step : Step) : Action Run Fault Int := do
  let _ ← advance
  match (← get).cursor.current with
  | .name name =>
    let _ ← advance
    takeStep .before step name
  | _ => refuse

/-- The variable at the cursor, with the value that it has before a step that touches it. -/
def readThenStep (name : Text) : Action Run Fault Int := do
  let _ ← advance
  let run ← get
  match run.cursor.current with
  | .stepAfter step =>
    let _ ← advance
    let _ ← takeStep .after step name
    return run.values.get name
  | _ => return run.values.get name

def factor (run : Run) : Except Fault Int × Run :=
  match _ : run.cursor.current with
  | .operator .subtract =>
    match _ : advance run with
    | (.ok _, behind) =>
      match factor behind with
      | (.ok value, last) => ((negate value).mapError .arithmetic, last)
      | (.error fault, last) => (.error fault, last)
    | (.error fault, last) => (.error fault, last)
  | .number digits => literal digits run
  | .stepBefore step => stepThenRead step run
  | .name name => readThenStep name run
  | _ => refuse run
termination_by run.size
decreasing_by
  have smaller := @size_advance_lt run (by simp [*])
  simpa only [*] using smaller

/-- A relation that holds of every single thing that is done to evaluate an expression. -/
structure Stepwise (relation : Run → Option Fault → Run → Prop) : Prop
    extends Action.Sequential relation where
  advance : Run.advance.Ensures relation
  takeStep : ∀ side step name, (Run.takeStep side step name).Ensures relation
  literal : ∀ {run digits}, run.cursor.current = .number digits →
    relation run (Action.fault? (Run.literal digits run).1) (Run.literal digits run).2
  refuse : ∀ run, relation run (some (.reading (.unexpectedToken run.cursor.current.text))) run
  arithmetic : ∀ run fault, relation run (some (.arithmetic fault)) run

theorem ensures_literal {relation : Run → Option Fault → Run → Prop}
    (sequential : Action.Sequential relation) (advance : Run.advance.Ensures relation)
    {digits : Text}
    (tooLarge : ∀ run, relation run (some (.reading (.literalTooLarge digits))) run) :
    (literal digits).Ensures relation := by
  refine .bind sequential advance fun _ => .ofExcept sequential fun run fault failed => ?_
  rw [literalValue] at failed
  split at failed <;> cases failed
  exact tooLarge run

/-- A relation that holds of every part of evaluating an expression. A variable that is read, with
the step behind it, is one part, since only together do they tell which variable is changed. -/
structure Partwise (relation : Run → Option Fault → Run → Prop) : Prop
    extends Action.Sequential relation where
  advance : Run.advance.Ensures relation
  stepBefore : ∀ step name, (Run.takeStep .before step name).Ensures relation
  readThenStep : ∀ {run name}, run.cursor.current = .name name →
    relation run (Action.fault? (Run.readThenStep name run).1) (Run.readThenStep name run).2
  literal : ∀ {run digits}, run.cursor.current = .number digits →
    relation run (Action.fault? (Run.literal digits run).1) (Run.literal digits run).2
  refuse : ∀ run, relation run (some (.reading (.unexpectedToken run.cursor.current.text))) run
  arithmetic : ∀ run fault, relation run (some (.arithmetic fault)) run

namespace Partwise

variable {relation : Run → Option Fault → Run → Prop} (partwise : Partwise relation)

include partwise

theorem stepThenRead (step : Step) : (stepThenRead step).Ensures relation := by
  have sequential := partwise.toSequential
  refine .bind sequential partwise.advance fun _ => .bind sequential (.get sequential) fun run => ?_
  split
  · exact .bind sequential partwise.advance fun _ => partwise.stepBefore _ _
  · exact partwise.refuse

theorem factor : Action.Ensures relation factor := by
  intro run
  have passed := partwise.advance run
  fun_induction Run.factor run with
  | case1 run _ _ behind read value last done ih =>
    have operand := ih (partwise.advance behind)
    rw [read] at passed
    rw [done] at operand
    have whole : relation run none last := partwise.trans passed operand
    cases negate value with
    | ok opposite => exact whole
    | error fault => exact partwise.trans whole (partwise.arithmetic last fault)
  | case2 run _ _ behind read fault last failed ih =>
    have operand := ih (partwise.advance behind)
    rw [read] at passed
    rw [failed] at operand
    exact partwise.trans passed operand
  | case3 run _ fault last read =>
    rw [read] at passed
    exact passed
  | case4 run digits here => exact partwise.literal here
  | case5 run step => exact partwise.stepThenRead step run
  | case6 run name here => exact partwise.readThenStep here
  | case7 run => exact partwise.refuse run

end Partwise

namespace Stepwise

variable {relation : Run → Option Fault → Run → Prop} (stepwise : Stepwise relation)

include stepwise

theorem readThenStep (name : Text) : (readThenStep name).Ensures relation := by
  have sequential := stepwise.toSequential
  refine .bind sequential stepwise.advance fun _ => .bind sequential (.get sequential) fun run => ?_
  split
  · exact .bind sequential stepwise.advance fun _ =>
      .bind sequential (stepwise.takeStep _ _ _) fun _ => .pure sequential _
  · exact .pure sequential _

theorem partwise : Partwise relation where
  toSequential := stepwise.toSequential
  advance := stepwise.advance
  stepBefore := stepwise.takeStep .before
  readThenStep {run name} _ := stepwise.readThenStep name run
  literal := stepwise.literal
  refuse := stepwise.refuse
  arithmetic := stepwise.arithmetic

theorem factor : Action.Ensures relation factor :=
  stepwise.partwise.factor

end Stepwise

theorem sequential_leavesNoMore :
    Action.Sequential fun (before : Run) (_ : Option Fault) after => LeavesNoMore before after where
  refl run := Nat.le_refl run.size
  trans := LeavesNoMore.trans

theorem ensures_advance_leavesNoMore :
    advance.Ensures fun before _ after => LeavesNoMore before after := fun run => by
  simpa [LeavesNoMore, size] using run.cursor.size_advance_le

theorem stepwise_leavesNoMore : Stepwise fun before _ after => LeavesNoMore before after where
  toSequential := sequential_leavesNoMore
  advance := ensures_advance_leavesNoMore
  takeStep side step name run := by simp [LeavesNoMore, size]
  literal {run _} _ :=
    ensures_literal sequential_leavesNoMore ensures_advance_leavesNoMore
      (fun run => Nat.le_refl run.size) run
  refuse run := Nat.le_refl run.size
  arithmetic run _ := Nat.le_refl run.size

theorem Consumes.factor : Consumes factor :=
  stepwise_leavesNoMore.factor

end LineCalculator.Run
