import LineCalculator.Journal

/-! What the arguments of the program ask for. They are taken from left to right, and the first
one that settles the matter does so, whatever comes behind it. -/

namespace LineCalculator

inductive Request where
  /-- Run the script in a file, or an interactive session, and show the journal up to the level
  that this verbosity stands for. -/
  | run (file : Option Text) (verbosity : Nat)
  | showVersion
  | showHelp
  | misuse
  deriving DecidableEq, Repr

namespace Request

def readFlags (verbosity : Nat) : Text → Except Request Nat
  | [] => .ok verbosity
  | 'v' :: later => readFlags (verbosity + 1) later
  | 'V' :: _ => .error .showVersion
  | 'h' :: _ => .error .showHelp
  | _ => .error .misuse

def readWord (verbosity : Nat) (word : Text) : Except Request Nat :=
  if word = "verbose".toList then .ok (verbosity + 1)
  else if word = "version".toList then .error .showVersion
  else if word = "help".toList then .error .showHelp
  else .error .misuse

/-- Takes the name of a file. There can be one, and it cannot be empty. -/
def readFile (file : Option Text) (argument : Text) : Except Request (Option Text) :=
  if file = none ∧ argument ≠ [] then .ok (some argument) else .error .misuse

def ofFiles (file : Option Text) (verbosity : Nat) : List Text → Request
  | [] => .run file verbosity
  | argument :: later =>
    match readFile file argument with
    | .ok file => ofFiles file verbosity later
    | .error request => request

/-- The request of the arguments behind some that gave this file and this verbosity. -/
def ofRest (file : Option Text) (verbosity : Nat) : List Text → Request
  | [] => .run file verbosity
  | ['-', '-'] :: later => ofFiles file verbosity later
  | ('-' :: '-' :: word) :: later =>
    match readWord verbosity word with
    | .ok verbosity => ofRest file verbosity later
    | .error request => request
  | ('-' :: letter :: letters) :: later =>
    match readFlags verbosity (letter :: letters) with
    | .ok verbosity => ofRest file verbosity later
    | .error request => request
  | argument :: later =>
    match readFile file argument with
    | .ok file => ofRest file verbosity later
    | .error request => request

def ofArguments (arguments : List Text) : Request :=
  ofRest none 0 arguments

def levelOf : (verbosity : Nat) → Level
  | 0 => .warn
  | 1 => .info
  | 2 => .debug
  | _ => .trace

end Request

end LineCalculator
