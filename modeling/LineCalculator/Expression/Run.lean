import LineCalculator.Action
import LineCalculator.Arithmetic
import LineCalculator.Calculator.Basic
import LineCalculator.Token.Cursor

/-! The state in which an expression is evaluated while its tokens are read, and the actions that
read a token or change a variable. One token is known ahead of what has been evaluated. -/

namespace LineCalculator

/-- A calculator at work on a text: the cursor is at the first token not yet used. -/
structure Run extends Calculator where
  cursor : Cursor
  deriving DecidableEq, Repr

namespace Run

def start (calculator : Calculator) (source : Text) : Except Fault Run :=
  match Cursor.start source with
  | .ok cursor => .ok ⟨calculator.recordToken cursor.current, cursor⟩
  | .error fault => .error (.reading fault)

def advance : Action Run Fault Token := fun run =>
  match run.cursor.advance with
  | (.ok token, cursor) => (.ok token, ⟨run.toCalculator.recordToken cursor.current, cursor⟩)
  | (.error fault, cursor) => (.error (.reading fault), { run with cursor := cursor })

def refuse {α : Type} : Action Run Fault α := fun run =>
  (.error (.reading (.unexpectedToken run.cursor.current.text)), run)

def takeStep (side : Side) (step : Step) (name : Text) : Action Run Fault Int := fun run =>
  match step.operator.apply (run.values.get name) 1 with
  | .ok value =>
    let changed : Calculator := { run with values := run.values.set name value }
    (.ok value, ⟨changed.record (.stepped side step name value), run.cursor⟩)
  | .error fault => (.error (.arithmetic fault), run)

@[simp] theorem cursor_advance (run : Run) : (advance run).2.cursor = run.cursor.advance.2 := by
  rw [advance]
  split <;> simp_all

@[simp] theorem values_advance (run : Run) :
    (advance run).2.values = run.values := by
  rw [advance]
  split <;> simp

@[simp] theorem refuse_snd {α : Type} (run : Run) : (refuse (α := α) run).2 = run := rfl

@[simp] theorem cursor_takeStep (side : Side) (step : Step) (name : Text) (run : Run) :
    (takeStep side step name run).2.cursor = run.cursor := by
  rw [takeStep]
  split <;> rfl

def size (run : Run) : Nat :=
  run.cursor.size

theorem size_advance_lt {run : Run} (inside : run.cursor.current ≠ .finish) :
    (advance run).2.size < run.size := by
  simpa [size] using Cursor.size_advance_lt inside

def LeavesNoMore (before after : Run) : Prop :=
  after.size ≤ before.size

theorem LeavesNoMore.trans {first second third : Run} (earlier : LeavesNoMore first second)
    (later : LeavesNoMore second third) : LeavesNoMore first third :=
  Nat.le_trans later earlier

abbrev Consumes {α : Type} (action : Action Run Fault α) : Prop :=
  action.Respects LeavesNoMore

end Run

end LineCalculator
