import LineCalculator.Text.Decimal
import LineCalculator.Token.Basic

/-! The journal of a calculator: what it did, in order. Each kind of event has a level, from
reports of assignments down to every token that is read, and a topic that says which part of
the work it belongs to. -/

namespace LineCalculator

inductive Level where
  | error
  | warn
  | info
  | debug
  | trace
  deriving DecidableEq, Repr

namespace Level

def rank : Level → Nat
  | error => 0
  | warn => 1
  | info => 2
  | debug => 3
  | trace => 4

def text : Level → Text
  | error => "ERROR".toList
  | warn => "WARN".toList
  | info => "INFO".toList
  | debug => "DEBUG".toList
  | trace => "TRACE".toList

end Level

inductive Side where
  | before
  | after
  deriving DecidableEq, Repr

def Side.text : Side → Text
  | before => "prefix".toList
  | after => "postfix".toList

inductive Event where
  | tokenRead (token : Token)
  | lineSkipped
  | lineStarted (line : Text)
  | stepped (side : Side) (step : Step) (name : Text) (value : Int)
  | assigned (name : Text) (value : Int)
  deriving DecidableEq, Repr

namespace Event

def level : Event → Level
  | tokenRead _ => .trace
  | lineSkipped | lineStarted _ | stepped .. => .debug
  | assigned .. => .info

def topic : Event → Text
  | tokenRead _ => "varcalc::interpreter::lexer".toList
  | stepped .. => "varcalc::interpreter::evaluator::unary".toList
  | lineSkipped | lineStarted _ | assigned .. => "varcalc::interpreter::statement".toList

def tokenText (token : Token) : Text :=
  "Token \x7b kind: ".toList ++ token.kind ++ ", text: \"".toList ++ token.text ++
    "\" \x7d".toList

def message : Event → Text
  | tokenRead token => "scanned ".toList ++ tokenText token
  | lineSkipped => "skipping empty line".toList
  | lineStarted line => "evaluating line: ".toList ++ line
  | stepped side step name value =>
    side.text ++ [' '] ++ step.text ++ " stored ".toList ++ name ++ " = ".toList ++
      Decimal.ofInt value
  | assigned name value =>
    "assigned ".toList ++ name ++ " = ".toList ++ Decimal.ofInt value

/-- The event of reading a token. The end of the input is no event, and neither is a step
behind a name, which is read together with the name. -/
def ofToken? : Token → Option Event
  | .finish | .stepAfter _ => none
  | token => some (.tokenRead token)

end Event

structure Journal where
  newestFirst : List Event := []
  deriving DecidableEq, Repr

namespace Journal

def empty : Journal := {}

def record (journal : Journal) (event : Event) : Journal :=
  ⟨event :: journal.newestFirst⟩

def events (journal : Journal) : List Event :=
  journal.newestFirst.reverse

def upTo (journal : Journal) (level : Level) : List Event :=
  journal.events.filter fun event => event.level.rank ≤ level.rank

@[simp] theorem events_record (journal : Journal) (event : Event) :
    (journal.record event).events = journal.events ++ [event] :=
  List.reverse_cons

end Journal

end LineCalculator
