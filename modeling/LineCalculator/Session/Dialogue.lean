import LineCalculator.Session.Basic
import LineCalculator.Text.Lines

/-! Sessions as a dialogue: a prompt before each line of the input, and an answer to each line that
shows something. The session ends at the end of the input, at a line that asks for it, or at
a line that is not UTF-8. -/

namespace LineCalculator.Session

def greeting : Text :=
  "Calculator Interactive Mode\nType expressions or 'exit' to quit.\n".toList

def prompt : Text :=
  "> ".toList

def farewell : Text :=
  "Exiting...\n".toList

def asksToLeave (line : Text) : Bool :=
  line.trim.map Char.toLower == "exit".toList

def answerReport (fault : Fault) : Text :=
  "Error: ".toList ++ fault.message ++ ['\n']

def answer (line : Text) : Action Session StreamFault Unit := do
  unless line.allBlank do
    match ← attempt line with
    | none => showVariables
    | some fault => say (answerReport fault)

def leave : Action Session StreamFault Bool := do
  say farewell
  return false

/-- Takes the next line of the input with its end, or the end of the input, and returns whether
the session goes on. -/
def turn : Option (List UInt8) → Action Session StreamFault Bool
  | none => leave
  | some bytes =>
    match Text.ofUtf8? bytes with
    | none => throw .notUtf8
    | some line =>
      if asksToLeave line then
        leave
      else do
        answer line
        say prompt
        return true

def converse : List (List UInt8) → Action Session StreamFault Unit
  | [] => do
    let _ ← turn none
  | line :: later => do
    if ← turn (some line) then
      converse later

def welcome : Action Session StreamFault Unit := do
  say greeting
  say prompt

def lineFeed : UInt8 := 10

def runDialogue (input : List UInt8) : Action Session StreamFault Unit := do
  welcome
  converse (cutBehind (· == lineFeed) input)

end LineCalculator.Session
