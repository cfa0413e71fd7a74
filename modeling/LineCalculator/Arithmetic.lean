import LineCalculator.Fault

/-! Checked arithmetic on the integers from -2^63 to 2^63 - 1. Every operation computes the
exact result and refuses it when it lies outside that range; division drops the fraction. -/

namespace LineCalculator

def minValue : Int := -9223372036854775808

def maxValue : Int := 9223372036854775807

/-- The integers that a variable can hold. -/
def InRange (value : Int) : Prop :=
  minValue ≤ value ∧ value ≤ maxValue

instance (value : Int) : Decidable (InRange value) :=
  inferInstanceAs (Decidable (_ ∧ _))

namespace Operator

def exact : Operator → Int → Int → Int
  | add, left, right => left + right
  | subtract, left, right => left - right
  | multiply, left, right => left * right
  | divide, left, right => left.tdiv right

def apply (op : Operator) (left right : Int) : Except ArithmeticFault Int :=
  if op = divide ∧ right = 0 then
    .error .divisionByZero
  else if InRange (op.exact left right) then
    .ok (op.exact left right)
  else
    .error (.overflow op left right)

theorem apply_eq_ok_iff {op : Operator} {left right value : Int} :
    op.apply left right = .ok value ↔
      ¬(op = divide ∧ right = 0) ∧ InRange value ∧ op.exact left right = value := by
  rw [apply]
  split
  · simp [*]
  · split <;> simp_all
    · rintro rfl; assumption
    · rintro inside rfl; contradiction

theorem apply_of_ne_divide {op : Operator} (other : op ≠ divide) (left right : Int) :
    op.apply left right =
      if InRange (op.exact left right) then .ok (op.exact left right)
      else .error (.overflow op left right) :=
  if_neg fun zero => other zero.1

theorem inRange_of_apply {op : Operator} {left right value : Int}
    (done : op.apply left right = .ok value) : InRange value :=
  (apply_eq_ok_iff.1 done).2.1

end Operator

def negate (value : Int) : Except ArithmeticFault Int :=
  if InRange (-value) then .ok (-value) else .error (.negationOverflow value)

def literalValue (digits : Text) : Except ReadingFault Int :=
  if (Decimal.value digits : Int) ≤ maxValue then
    .ok (Decimal.value digits)
  else
    .error (.literalTooLarge digits)

end LineCalculator
