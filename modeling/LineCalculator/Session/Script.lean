import LineCalculator.Session.Basic
import LineCalculator.Text.Lines

/-! Sessions on a script: every line is evaluated, each line that fails is reported, and
the variables are shown at the end. -/

namespace LineCalculator.Session

def lineReport (line : Text) (fault : Fault) : Text :=
  "Error in line '".toList ++ line ++ "': ".toList ++ fault.message ++ ['\n']

def runLine (line : Text) : Action Session StreamFault Unit := do
  unless line.allBlank do
    if let some fault ← attempt line then
      say (lineReport line fault)

def runScript (script : Text) : Action Session StreamFault Unit := do
  script.lines.forM runLine
  showVariables

end LineCalculator.Session
