import LineCalculator.Operator

/-! The tokens of an expression. A step may stand before a name or touch its end, and those are
two different tokens with one text. -/

namespace LineCalculator

inductive Token where
  | operator (op : Operator)
  | equals
  | stepBefore (step : Step)
  | stepAfter (step : Step)
  | number (digits : Text)
  | name (text : Text)
  /-- The end of the input. -/
  | finish
  deriving DecidableEq, Repr

namespace Token

def text : Token → Text
  | operator op => [op.symbol]
  | equals => ['=']
  | stepBefore step => step.text
  | stepAfter step => step.text
  | number digits => digits
  | name text => text
  | finish => []

def kind : Token → Text
  | operator .add => "Plus".toList
  | operator .subtract => "Minus".toList
  | operator .multiply => "Mul".toList
  | operator .divide => "Div".toList
  | equals => "Assign".toList
  | stepBefore .increment => "PreInc".toList
  | stepBefore .decrement => "PreDec".toList
  | stepAfter .increment => "PostInc".toList
  | stepAfter .decrement => "PostDec".toList
  | number _ => "Number".toList
  | name _ => "Identifier".toList
  | finish => "End".toList

/-- The token that a character always makes by itself, whatever follows it. -/
def ofSymbol? : Char → Option Token
  | '*' => some (.operator .multiply)
  | '/' => some (.operator .divide)
  | '=' => some .equals
  | _ => none

theorem ofSymbol?_cases {c : Char} {token : Token} (known : ofSymbol? c = some token) :
    (c = '*' ∧ token = .operator .multiply) ∨ (c = '/' ∧ token = .operator .divide) ∨
      (c = '=' ∧ token = .equals) := by
  rw [ofSymbol?.eq_def] at known
  split at known <;> cases known <;> simp

end Token

end LineCalculator
