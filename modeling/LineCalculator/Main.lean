import LineCalculator.CommandLine.Reply

/-! The program. A script is read as a whole and answered at once; an interactive session is
answered line by line, as the lines come in. -/

namespace LineCalculator.Program

def fileFault : IO.Error → FileFault
  | .noFileOrDirectory .. => .missing
  | .permissionDenied .. => .denied
  | .inappropriateType .. => .isDirectory
  | reason => .other (toString reason).toList

def readScript (file : Text) : IO (Except FileFault (List UInt8)) := do
  try
    return .ok (← IO.FS.readBinFile (String.ofList file)).toList
  catch reason =>
    return .error (fileFault reason)

partial def readLine (input : IO.FS.Stream) (sofar : List UInt8) : IO (Option (List UInt8)) := do
  match (← input.read 1).toList with
  | [] => return if sofar.isEmpty then none else some sofar.reverse
  | byte :: _ =>
    if byte == Session.lineFeed then
      return some (byte :: sofar).reverse
    else
      readLine input (byte :: sofar)

def showReply (reply : Reply) : IO UInt32 := do
  let output ← IO.getStdout
  output.write reply.output.toByteArray
  output.flush
  (← IO.getStderr).putStr (String.ofList reply.reports)
  return reply.code.toUInt32

def showSession (level : Level) (result : Except StreamFault Unit) (session : Session) :
    IO (UInt32 × Session) := do
  let code ← showReply (Reply.ofSession level (result, session))
  return (code, { session with calculator.journal := .empty, output.bytes := #[] })

partial def talk (level : Level) (input : IO.FS.Stream) (session : Session) : IO UInt32 := do
  match Session.turn (← readLine input []) session with
  | (.ok true, after) => talk level input (← showSession level (.ok ()) after).2
  | (.ok false, after) => return (← showSession level (.ok ()) after).1
  | (.error fault, after) => return (← showSession level (.error fault) after).1

def converseWith (level : Level) (input : IO.FS.Stream) : IO UInt32 := do
  let (result, session) := Session.welcome {}
  talk level input (← showSession level result session).2

def run (arguments : List Text) : IO UInt32 := do
  match Request.ofArguments arguments with
  | .run none verbosity => converseWith (Request.levelOf verbosity) (← IO.getStdin)
  | .run (some file) verbosity =>
    let contents ← readScript file
    showReply (Request.reply (fun _ => contents) [] (.run (some file) verbosity))
  | request => showReply (request.reply (fun _ => .error .missing) [])

end LineCalculator.Program

def main (arguments : List String) : IO UInt32 :=
  LineCalculator.Program.run (arguments.map String.toList)
