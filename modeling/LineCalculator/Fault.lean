import LineCalculator.Operator
import LineCalculator.Text.Decimal

/-! What can go wrong with a line, and how it is said. A fault of reading lies in the text of
the line; a fault of arithmetic lies in the values that it computes with. -/

namespace LineCalculator

inductive ReadingFault where
  /-- The line has not the shape of an assignment. -/
  | malformed (details : Text)
  | invalidName (name : Text)
  | unexpectedCharacter (character : Char)
  /-- The token that cannot stand here, with the empty text for the end of the input. -/
  | unexpectedToken (token : Text)
  | literalTooLarge (digits : Text)
  deriving DecidableEq, Repr

inductive ArithmeticFault where
  | divisionByZero
  | overflow (op : Operator) (left right : Int)
  | negationOverflow (value : Int)
  deriving DecidableEq, Repr

inductive Fault where
  | reading (fault : ReadingFault)
  | arithmetic (fault : ArithmeticFault)
  deriving DecidableEq, Repr

namespace ReadingFault

def noAssignment (line : Text) : ReadingFault :=
  .malformed ("Line must contain '=', '+=', or '-=' operator: ".toList ++ line)

/-- The line is not one target and one expression around its assignment operator. -/
def notOneAssignment (line : Text) : ReadingFault :=
  .malformed ("Invalid assignment expression: ".toList ++ line)

def message : ReadingFault → Text
  | malformed details => details
  | invalidName name =>
    if name.getLast? = some '_' then
      "Invalid variable name: cannot end with underscore (".toList ++ name ++ [')']
    else
      "Invalid variable name: ".toList ++ name
  | unexpectedCharacter character => "Unexpected character: ".toList ++ [character]
  | unexpectedToken [] => "Unexpected token in expression: end of input".toList
  | unexpectedToken token => "Unexpected token in expression: ".toList ++ token
  | literalTooLarge digits => "Literal is too large: ".toList ++ digits

end ReadingFault

def ArithmeticFault.message : ArithmeticFault → Text
  | divisionByZero => "Division by zero".toList
  | overflow op left right =>
    "Integer overflow while trying to compute ".toList ++ Decimal.ofInt left ++
      [' ', op.symbol, ' '] ++ Decimal.ofInt right
  | negationOverflow value =>
    "Integer overflow while trying to negate ".toList ++ Decimal.ofInt value

def Fault.message : Fault → Text
  | reading fault => fault.message
  | arithmetic fault => fault.message

end LineCalculator
