import LineCalculator.CommandLine.Request
import LineCalculator.Session.Script
import LineCalculator.Session.Dialogue
import LineCalculator.Text.ControlSequence

/-! What the program replies to a request: an exit code, the bytes of its output, and the text of
its reports, which holds the journal and then the reason of a failure. To arguments that are not
understood the code is the whole reply. -/

namespace LineCalculator

inductive FileFault where
  | missing
  | denied
  | isDirectory
  | notUtf8
  | other (description : Text)
  deriving DecidableEq, Repr

def FileFault.message : FileFault → Text
  | missing => "No such file or directory (os error 2)".toList
  | denied => "Permission denied (os error 13)".toList
  | isDirectory => "Is a directory (os error 21)".toList
  | notUtf8 => StreamFault.notUtf8.message
  | other description => description

structure Reply where
  code : UInt8
  output : List UInt8 := []
  reports : Text := []
  deriving DecidableEq

namespace Reply

def versionText : Text :=
  "varcalc 0.1.0\n".toList

def helpText : Text :=
  ("varcalc evaluates integer assignments line by line, keeping a store of named variables\n\n" ++
    "Usage: varcalc [OPTIONS] [FILE]\n\n" ++
    "Arguments:\n" ++
    "  [FILE]  Script to evaluate in batch mode. Starts an interactive session when omitted\n\n" ++
    "Options:\n" ++
    "  -v, --verbose...  Logs evaluation steps to stderr. Repeat for more detail\n" ++
    "  -h, --help        Print help\n" ++
    "  -V, --version     Print version\n").toList

def eventLine (event : Event) : Text :=
  '[' :: event.level.text ++ List.replicate (5 - event.level.text.length) ' ' ++ ' ' ::
    event.topic ++ "] ".toList ++ event.message ++ ['\n']

/-- The journal for a terminal: a line for each event, without the control sequences that a line
of the input may have brought in. -/
def journalText (journal : Journal) (level : Level) : Text :=
  (journal.upTo level).flatMap fun event => (eventLine event).withoutControls

def ofSession (level : Level) : Except StreamFault Unit × Session → Reply
  | (.ok (), session) =>
    { code := 0, output := session.output.bytes.toList,
      reports := journalText session.calculator.journal level }
  | (.error fault, session) =>
    { code := 1, output := session.output.bytes.toList,
      reports := journalText session.calculator.journal level ++ fault.message ++ ['\n'] }

def unreadable (fault : FileFault) : Reply :=
  { code := 1, reports := "Failed to read file: ".toList ++ fault.message ++ ['\n'] }

end Reply

def Request.reply (contents : Text → Except FileFault (List UInt8)) (input : List UInt8) :
    Request → Reply
  | showVersion => { code := 0, output := Reply.versionText.toUtf8 }
  | showHelp => { code := 0, output := Reply.helpText.toUtf8 }
  | misuse => { code := 2 }
  | run none verbosity => .ofSession (levelOf verbosity) (Session.runDialogue input {})
  | run (some file) verbosity =>
    match contents file with
    | .error fault => .unreadable fault
    | .ok bytes =>
      match Text.ofUtf8? bytes with
      | none => .unreadable .notUtf8
      | some script => .ofSession (levelOf verbosity) (Session.runScript script {})

end LineCalculator
