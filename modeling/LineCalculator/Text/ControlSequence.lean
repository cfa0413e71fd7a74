import LineCalculator.Text.Blank

/-! Control characters and control sequences, as terminals read them, and texts without them.

A sequence begins with the escape character. A tab or a line break in the middle of one is
shown, and so is what follows it; the next control character takes the sequence up again. -/

namespace LineCalculator

inductive ControlSequence where
  /-- No sequence is being read. -/
  | ended
  /-- Behind the escape character. -/
  | begun
  | intermediate
  /-- In the parameters of a sequence that ends with a letter. -/
  | parameters
  /-- In a command to the operating system, which ends with the bell. -/
  | command
  | deviceBegun
  | deviceParameters
  | deviceIntermediate
  /-- In a string of any characters. -/
  | payload
  deriving DecidableEq, Repr

namespace ControlSequence

def isIntermediate (c : Char) : Bool :=
  ' ' ≤ c && c ≤ '/'

def isParameter (c : Char) : Bool :=
  '0' ≤ c && c ≤ '?'

def isFinal (c : Char) : Bool :=
  '@' ≤ c && c ≤ '~'

/-- The end of a string may also come as a single byte, and then it counts within the UTF-8 form
of a character too. -/
def endsPayload (c : Char) : Bool :=
  (String.utf8EncodeChar c).contains 0x9C

def continued : ControlSequence → Char → ControlSequence
  | ended, _ => ended
  | begun, '[' => parameters
  | begun, ']' => command
  | begun, 'P' => deviceBegun
  | begun, 'X' | begun, '^' | begun, '_' => payload
  | begun, c =>
    if isIntermediate c then intermediate
    else if isParameter c || isFinal c then ended
    else begun
  | intermediate, c => if isParameter c || isFinal c then ended else intermediate
  | parameters, c => if isFinal c then ended else parameters
  | command, c => if c = '\x07' then ended else command
  | deviceBegun, c =>
    if isIntermediate c then deviceIntermediate
    else if isParameter c then deviceParameters
    else if isFinal c then payload
    else deviceBegun
  | deviceParameters, c =>
    if isIntermediate c then deviceIntermediate
    else if '<' ≤ c && c ≤ '~' then payload
    else deviceParameters
  | deviceIntermediate, c => if isParameter c || isFinal c then payload else deviceIntermediate
  | payload, c => if endsPayload c then ended else payload

/-- Goes on by a character. The escape character begins a sequence anew, and two characters
cancel any sequence. -/
def next (sequence : ControlSequence) (c : Char) : ControlSequence :=
  if c = '\x1b' then begun
  else if c = '\x18' ∨ c = '\x1a' then ended
  else sequence.continued c

def showsBreaks : ControlSequence → Bool
  | begun | intermediate | parameters => true
  | _ => false

end ControlSequence

namespace Text

def isBreak (c : Char) : Bool :=
  c == '\t' || c == '\n' || c == '\x0c' || c == '\r'

def isShown (c : Char) : Bool :=
  (' ' ≤ c && c ≠ '\x7f') || isBreak c

/-- What is shown of the rest of a text, when a sequence is being read or, unless `reading`, has
been interrupted. A character outside ASCII ends a sequence that was interrupted. -/
def shownFrom (sequence : ControlSequence) (reading : Bool) : Text → Text
  | [] => []
  | c :: rest =>
    if isShown c ∧ (reading = false ∨ sequence = .ended ∨ isBreak c ∧ sequence.showsBreaks) then
      c :: shownFrom (if c ≤ '\x7f' then sequence else .ended) false rest
    else
      shownFrom (sequence.next c) true rest

def withoutControls (t : Text) : Text :=
  shownFrom .ended false t

end Text

end LineCalculator
