import LineCalculator.Journal
import LineCalculator.Variables

/-! A calculator holds the variables and the journal of what it did. -/

namespace LineCalculator

structure Calculator where
  values : Variables := .empty
  journal : Journal := .empty
  deriving DecidableEq, Repr

namespace Calculator

def new : Calculator := {}

instance : Inhabited Calculator := ⟨new⟩

def record (calculator : Calculator) (event : Event) : Calculator :=
  { calculator with journal := calculator.journal.record event }

def recordToken (calculator : Calculator) (token : Token) : Calculator :=
  match Event.ofToken? token with
  | some event => calculator.record event
  | none => calculator

@[simp] theorem values_recordToken (calculator : Calculator) (token : Token) :
    (calculator.recordToken token).values = calculator.values := by
  rw [recordToken]
  split <;> rfl

end Calculator

end LineCalculator
