import LineCalculator.Proofs.Evaluation

/-! Variables that hold only values in range. Evaluation keeps them so: its value is in range,
and where it fails in an operation, both operands are in range and the result is not. -/

namespace LineCalculator

namespace Variables

def Bounded (values : Variables) : Prop :=
  ∀ name value, values.find? name = some value → InRange value

theorem bounded_empty : empty.Bounded := by
  intro name value found
  cases found

theorem Bounded.get {values : Variables} (bounded : values.Bounded) (name : Text) :
    InRange (values.get name) := by
  rw [Variables.get]
  cases found : values.find? name with
  | none => simp only [Option.getD_none, InRange, minValue, maxValue]; omega
  | some value => exact bounded name value found

theorem Bounded.set {values : Variables} (bounded : values.Bounded) (name : Text) {value : Int}
    (inside : InRange value) : (values.set name value).Bounded := by
  intro other held found
  rw [find?_set] at found
  split at found
  · cases found
    exact inside
  · exact bounded other held found

end Variables

namespace Fault

/-- What a fault says about values is so: operands are in range and the result is not. -/
def Justified : Fault → Prop
  | reading _ => True
  | arithmetic .divisionByZero => True
  | arithmetic (.overflow op left right) =>
    InRange left ∧ InRange right ∧ ¬InRange (op.exact left right)
  | arithmetic (.negationOverflow value) => value = minValue

end Fault

def StaysInRange {α : Type} (fact : α → Prop) (action : Action Variables Fault α) : Prop :=
  ∀ values, values.Bounded → (action values).2.Bounded ∧
    match (action values).1 with
    | .ok a => fact a
    | .error fault => fault.Justified

namespace StaysInRange

variable {α β : Type}

theorem ofExcept {fact : α → Prop} {result : Except Fault α}
    (good : match result with | .ok a => fact a | .error fault => fault.Justified) :
    StaysInRange fact (.ofExcept result) :=
  fun _ bounded => ⟨bounded, good⟩

theorem bind {fact : α → Prop} {other : β → Prop} {first : Action Variables Fault α}
    {next : α → Action Variables Fault β} (start : StaysInRange fact first)
    (rest : ∀ a, fact a → StaysInRange other (next a)) :
    StaysInRange other (first >>= next) := by
  intro values bounded
  obtain ⟨kept, good⟩ := start values bounded
  rw [Action.apply_bind]
  split
  · next a after done =>
    rw [done] at kept good
    exact rest a good after kept
  · next fault after failed =>
    rw [failed] at kept good
    exact ⟨kept, good⟩

theorem apply (op : Operator) {left right : Int} (leftInside : InRange left)
    (rightInside : InRange right) :
    StaysInRange InRange (.ofExcept ((op.apply left right).mapError .arithmetic)) := by
  refine ofExcept ?_
  rw [Operator.apply]
  by_cases zero : op = .divide ∧ right = 0
  · rw [if_pos zero]
    exact trivial
  · rw [if_neg zero]
    by_cases inside : InRange (op.exact left right)
    · rw [if_pos inside]
      exact inside
    · rw [if_neg inside]
      exact ⟨leftInside, rightInside, inside⟩

theorem negate {value : Int} (inside : InRange value) :
    StaysInRange InRange (.ofExcept ((negate value).mapError .arithmetic)) := by
  refine ofExcept ?_
  rw [LineCalculator.negate]
  by_cases fits : InRange (-value)
  · rw [if_pos fits]
    exact fits
  · rw [if_neg fits]
    have least : value = minValue := by
      simp only [InRange, minValue, maxValue] at inside fits ⊢
      omega
    exact least

theorem literal (digits : Text) :
    StaysInRange InRange (.ofExcept ((literalValue digits).mapError .reading)) := by
  refine ofExcept ?_
  rw [literalValue]
  by_cases fits : (Decimal.value digits : Int) ≤ maxValue
  · rw [if_pos fits]
    have above : minValue ≤ (Decimal.value digits : Int) := by
      simp only [minValue]
      omega
    exact ⟨above, fits⟩
  · rw [if_neg fits]
    exact trivial

theorem stepped (side : Side) (step : Step) (name : Text) :
    StaysInRange InRange (Tree.stepped side step name).evaluate := by
  intro values bounded
  have one : InRange 1 := by decide
  have good := apply step.operator (bounded.get name) one values bounded
  rw [Tree.evaluate_stepped]
  cases applied : step.operator.apply (values.get name) 1 with
  | ok new =>
    have inside : InRange new := Operator.inRange_of_apply applied
    refine ⟨bounded.set name inside, ?_⟩
    cases side with
    | before => exact inside
    | after => exact bounded.get name
  | error fault =>
    rw [applied] at good
    exact good

theorem evaluate (tree : Tree) : StaysInRange InRange tree.evaluate := by
  induction tree with
  | literal digits => exact literal digits
  | read name => exact fun values bounded => ⟨bounded, bounded.get name⟩
  | stepped side step name => exact stepped side step name
  | opposite operand ih => exact ih.bind fun value inside => negate inside
  | binary op left right leftIh rightIh =>
    exact leftIh.bind fun left leftInside =>
      rightIh.bind fun right rightInside => apply op leftInside rightInside

theorem evaluateAll (trees : List Tree) :
    StaysInRange (fun _ => True) (Tree.evaluateAll trees) := by
  induction trees with
  | nil => exact ofExcept trivial
  | cons first later ih => exact (evaluate first).bind fun _ _ => ih

theorem reading (reading : Reading) : StaysInRange InRange reading.evaluate := by
  cases reading with
  | whole tree rest => exact evaluate tree
  | refused parts token rest => exact (evaluateAll parts).bind fun _ _ => ofExcept trivial
  | faulty parts fault => exact (evaluateAll parts).bind fun _ _ => ofExcept trivial

end StaysInRange

namespace Calculator

variable {source : Text} {calculator : Calculator}

theorem inRange_of_evaluateExpression (bounded : calculator.values.Bounded) {value : Int}
    (done : (evaluateExpression source calculator).1 = .ok value) : InRange value := by
  have good := (StaysInRange.reading source.reading _ bounded).2
  rw [evaluateExpression_eq_reading, done] at good
  exact good

theorem justified_of_evaluateExpression (bounded : calculator.values.Bounded) {fault : Fault}
    (failed : (evaluateExpression source calculator).1 = .error fault) : fault.Justified := by
  have good := (StaysInRange.reading source.reading _ bounded).2
  rw [evaluateExpression_eq_reading, failed] at good
  exact good

end Calculator

end LineCalculator
