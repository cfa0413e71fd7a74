import LineCalculator.Fault
import LineCalculator.Name
import LineCalculator.Text.Pieces

/-! Assignments: a target, an assignment operator and the text of an expression. A line is taken
apart before any of it is read as tokens. -/

namespace LineCalculator

inductive AssignmentForm where
  | replace
  | addTo
  | subtractFrom
  deriving DecidableEq, Repr

namespace AssignmentForm

def symbol : AssignmentForm → Text
  | replace => ['=']
  | addTo => ['+', '=']
  | subtractFrom => ['-', '=']

def operator? : AssignmentForm → Option Operator
  | replace => none
  | addTo => some .add
  | subtractFrom => some .subtract

/-- The longer operators are looked for first, since each of them ends in the short one. -/
def searchOrder : List AssignmentForm :=
  [addTo, subtractFrom, replace]

/-- The form of an assignment on this line: the first in the search order whose operator stands
anywhere on it. -/
def ofLine? (line : Text) : Option AssignmentForm :=
  searchOrder.find? fun form => Text.hasPart form.symbol line

theorem symbol_ne_nil (form : AssignmentForm) : form.symbol ≠ [] := by
  cases form <;> simp [symbol]

end AssignmentForm

structure Assignment where
  target : Text
  form : AssignmentForm
  expression : Text
  deriving DecidableEq, Repr

namespace Assignment

def withoutEmptyEnd (pieces : List Text) : List Text :=
  (pieces.reverse.dropWhile List.isEmpty).reverse

/-- Takes a line apart. Operators repeated at the end of the line count for nothing, and apart
from them there must be one piece on each side. -/
def ofLine (line : Text) : Except ReadingFault Assignment :=
  match AssignmentForm.ofLine? line with
  | none => .error (.noAssignment line)
  | some form =>
    match withoutEmptyEnd (Text.pieces form.symbol line) with
    | [left, right] =>
      if Name.isValid (Text.trim left) then
        .ok ⟨Text.trim left, form, Text.trim right⟩
      else
        .error (.invalidName (Text.trim left))
    | _ => .error (.notOneAssignment line)

theorem isValid_target {line : Text} {assignment : Assignment}
    (read : ofLine line = .ok assignment) : Name.isValid assignment.target = true := by
  rw [ofLine] at read
  split at read
  · cases read
  · split at read
    · split at read
      · next valid => cases read; exact valid
      · cases read
    · cases read

end Assignment

end LineCalculator
