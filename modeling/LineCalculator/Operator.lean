import LineCalculator.Text.Blank

/-! The four arithmetic operators, and the steps `++` and `--` that change a variable by one. -/

namespace LineCalculator

inductive Operator where
  | add
  | subtract
  | multiply
  | divide
  deriving DecidableEq, Repr

namespace Operator

def symbol : Operator → Char
  | add => '+'
  | subtract => '-'
  | multiply => '*'
  | divide => '/'

/-- Operators of a product bind their operands before operators of a sum do. -/
def inProduct : Operator → Bool
  | multiply | divide => true
  | add | subtract => false

def inSum (op : Operator) : Bool :=
  !op.inProduct

end Operator

inductive Step where
  | increment
  | decrement
  deriving DecidableEq, Repr

namespace Step

def operator : Step → Operator
  | increment => .add
  | decrement => .subtract

def text (step : Step) : Text :=
  [step.operator.symbol, step.operator.symbol]

end Step

end LineCalculator
