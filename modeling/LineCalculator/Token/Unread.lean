import LineCalculator.Fault
import LineCalculator.Name
import LineCalculator.Token.Basic

/-! Reading tokens off a text, one at a time. The longest token wins, gaps between tokens are
skipped, and reading goes on behind a fault. The steps that touch the end of a name are found
together with the name and wait until they are asked for.

The main statement is that every token and every fault leaves less to read. -/

namespace LineCalculator

def isGap (c : Char) : Bool :=
  c == ' ' || c == '\t' || c == '\r' || c == '\n' || c == '\x0c'

/-- What has not been read yet: steps that were found behind the last name, and then a text. -/
structure Unread where
  text : Text
  waiting : List Step := []
  deriving DecidableEq, Repr

namespace Unread

def size (unread : Unread) : Nat :=
  unread.text.length + unread.waiting.length

/-- Takes the steps off the end of a name: an increment if there is one, and behind it a
decrement if there is one. -/
def behindName : Text → Unread
  | '+' :: '+' :: '-' :: '-' :: rest => ⟨rest, [.increment, .decrement]⟩
  | '+' :: '+' :: rest => ⟨rest, [.increment]⟩
  | '-' :: '-' :: rest => ⟨rest, [.decrement]⟩
  | rest => ⟨rest, []⟩

/-- Reads a word. A word that ends in an underscore is no name, and then the steps behind it
are not taken off. -/
def readWord (first : Char) (rest : Text) : Except ReadingFault Token × Unread :=
  let word := first :: rest.takeWhile Name.isPart
  let behind := rest.dropWhile Name.isPart
  if word.getLast? = some '_' then
    (.error (.invalidName word), ⟨behind, []⟩)
  else
    (.ok (.name word), behindName behind)

def readSign (step : Step) (rest : Text) : Except ReadingFault Token × Unread :=
  match rest with
  | [] => (.ok (.operator step.operator), ⟨[], []⟩)
  | c :: behind =>
    if c = step.operator.symbol then
      (.ok (.stepBefore step), ⟨behind, []⟩)
    else
      (.ok (.operator step.operator), ⟨rest, []⟩)

def readFrom (first : Char) (rest : Text) : Except ReadingFault Token × Unread :=
  if first = '+' then
    readSign .increment rest
  else if first = '-' then
    readSign .decrement rest
  else if first.isDigit then
    (.ok (.number (first :: rest.takeWhile Char.isDigit)), ⟨rest.dropWhile Char.isDigit, []⟩)
  else if Name.isStart first then
    readWord first rest
  else
    match Token.ofSymbol? first with
    | some token => (.ok token, ⟨rest, []⟩)
    | none => (.error (.unexpectedCharacter first), ⟨rest, []⟩)

def next (unread : Unread) : Except ReadingFault Token × Unread :=
  match unread.waiting with
  | step :: later => (.ok (.stepAfter step), { unread with waiting := later })
  | [] =>
    match unread.text.dropWhile isGap with
    | [] => (.ok .finish, ⟨[], []⟩)
    | first :: rest => readFrom first rest

theorem length_dropWhile_le (p : Char → Bool) (t : Text) : (t.dropWhile p).length ≤ t.length :=
  (List.dropWhile_sublist p).length_le

theorem size_behindName_le (t : Text) : (behindName t).size ≤ t.length := by
  rw [behindName.eq_def]
  split <;> simp [size]

theorem size_readWord_le (first : Char) (rest : Text) :
    (readWord first rest).2.size ≤ rest.length := by
  have bound := length_dropWhile_le Name.isPart rest
  simp only [readWord]
  split
  · simpa [size] using bound
  · exact Nat.le_trans (size_behindName_le _) bound

theorem size_readSign_le (step : Step) (rest : Text) :
    (readSign step rest).2.size ≤ rest.length := by
  rw [readSign.eq_def]
  split
  · simp [size]
  · split <;> simp [size]

theorem size_readFrom_le (first : Char) (rest : Text) :
    (readFrom first rest).2.size ≤ rest.length := by
  rw [readFrom]
  split
  · exact size_readSign_le ..
  · split
    · exact size_readSign_le ..
    · split
      · simpa [size] using length_dropWhile_le Char.isDigit rest
      · split
        · exact size_readWord_le first rest
        · split <;> simp [size]

theorem size_next (unread : Unread) :
    unread.next.2.size ≤ unread.size ∧
      (unread.next.1 ≠ .ok .finish → unread.next.2.size < unread.size) := by
  obtain ⟨text, waiting⟩ := unread
  cases waiting with
  | cons step later => simp [next, size]
  | nil =>
    have skipped := length_dropWhile_le isGap text
    simp only [next]
    split
    · simp [size]
    · next first rest found =>
      have bound := size_readFrom_le first rest
      rw [found] at skipped
      simp only [size, List.length_cons, List.length_nil] at skipped bound ⊢
      omega

end Unread

end LineCalculator
