import LineCalculator.Calculator.Line
import LineCalculator.Session.Output

/-! A session is a calculator that reports to an output. -/

namespace LineCalculator

structure Session where
  calculator : Calculator := .new
  output : Output := {}
  deriving DecidableEq

namespace Session

def say (t : Text) : Action Session StreamFault Unit := fun ⟨calculator, output⟩ =>
  let (result, output) := Output.write t.toUtf8 output
  (result, ⟨calculator, output⟩)

def attempt (line : Text) : Action Session StreamFault (Option Fault) :=
  fun ⟨calculator, output⟩ =>
    match Calculator.evaluate line calculator with
    | (.ok (), calculator) => (.ok none, ⟨calculator, output⟩)
    | (.error fault, calculator) => (.ok (some fault), ⟨calculator, output⟩)

def showVariables : Action Session StreamFault Unit := do
  say ((← get).calculator.values.text ++ ['\n'])

end Session

end LineCalculator
