import LineCalculator.Proofs.Bounded

/-! Evaluation in the unbounded integers. It keeps a ledger of its computations, where division
drops the fraction and has no result for a zero divisor.

The main statement compares it with the checked evaluation: the two agree as long as every
computation has its result in range, and the first one that has not is the fault. -/

namespace LineCalculator

/-- A computation with its operands. A step has the old value of its variable. -/
inductive Computation where
  | literal (digits : Text)
  | binary (op : Operator) (left right : Int)
  | opposite (value : Int)
  | stepped (step : Step) (name : Text) (value : Int)
  deriving DecidableEq, Repr

namespace Computation

def result : Computation → Int
  | literal digits => Decimal.value digits
  | binary op left right => op.exact left right
  | opposite value => -value
  | stepped step _ value => step.operator.exact value 1

def fault : Computation → Fault
  | literal digits => .reading (.literalTooLarge digits)
  | binary op left right => .arithmetic (.overflow op left right)
  | opposite value => .arithmetic (.negationOverflow value)
  | stepped step _ value => .arithmetic (.overflow step.operator value 1)

def commit (computation : Computation) (values : Variables) : Variables :=
  match computation with
  | stepped _ name _ => values.set name computation.result
  | _ => values

def commitAll (computations : List Computation) (values : Variables) : Variables :=
  computations.foldl (fun values computation => computation.commit values) values

/-- Whether a step is taken from the value that its variable has. -/
def StartsFrom (values : Variables) : Computation → Prop
  | stepped _ name value => values.get name = value
  | _ => True

end Computation

structure Ledger where
  values : Variables
  computations : List Computation := []
  deriving DecidableEq, Repr

namespace Ledger

open LineCalculator.Computation

def compute (computation : Computation) : Action Ledger Fault Int := fun ledger =>
  (.ok computation.result,
    ⟨computation.commit ledger.values, ledger.computations ++ [computation]⟩)

end Ledger

open Ledger

def Tree.exact : Tree → Action Ledger Fault Int
  | literal digits => compute (.literal digits)
  | read name => do return (← get).values.get name
  | stepped side step name => do
    let old := (← get).values.get name
    let new ← compute (.stepped step name old)
    return match side with
      | .before => new
      | .after => old
  | opposite operand => do compute (.opposite (← operand.exact))
  | binary op left right => do
    let left ← left.exact
    let right ← right.exact
    if op = .divide ∧ right = 0 then
      throw (.arithmetic .divisionByZero)
    else
      compute (.binary op left right)

def Tree.exactAll : List Tree → Action Ledger Fault Unit
  | [] => pure ()
  | tree :: later => do
    let _ ← tree.exact
    exactAll later

def Reading.exact : Reading → Action Ledger Fault Int
  | whole tree _ => tree.exact
  | refused parts token _ => do
    Tree.exactAll parts
    throw (.reading (.unexpectedToken token.text))
  | faulty parts fault => do
    Tree.exactAll parts
    throw (.reading fault)

namespace Computation

def check (computation : Computation) : Action Variables Fault Int := fun values =>
  if InRange computation.result then
    (.ok computation.result, computation.commit values)
  else
    (.error computation.fault, values)

def checkAll : List Computation → Action Variables Fault Unit
  | [] => pure ()
  | computation :: later => do
    let _ ← computation.check
    checkAll later

def ConsistentFrom : Variables → List Computation → Prop
  | _, [] => True
  | values, computation :: later =>
    computation.StartsFrom values ∧ ConsistentFrom (computation.commit values) later

theorem commitAll_append (earlier later : List Computation) (values : Variables) :
    commitAll (earlier ++ later) values = commitAll later (commitAll earlier values) :=
  List.foldl_append

theorem consistentFrom_append {earlier later : List Computation} {values : Variables} :
    ConsistentFrom values (earlier ++ later) ↔
      ConsistentFrom values earlier ∧ ConsistentFrom (commitAll earlier values) later := by
  induction earlier generalizing values with
  | nil => exact (true_and _).symm ▸ Iff.rfl
  | cons first earlier ih =>
    simp only [List.cons_append, ConsistentFrom, ih, and_assoc]
    rfl

theorem check_of_inRange {computation : Computation} (inside : InRange computation.result)
    (values : Variables) :
    computation.check values = (.ok computation.result, computation.commit values) :=
  if_pos inside

theorem check_of_not_inRange {computation : Computation} (outside : ¬InRange computation.result)
    (values : Variables) : computation.check values = (.error computation.fault, values) :=
  if_neg outside

theorem checkAll_append (earlier later : List Computation) :
    checkAll (earlier ++ later) = checkAll earlier >>= fun _ => checkAll later := by
  induction earlier with
  | nil => rfl
  | cons first earlier ih =>
    rw [List.cons_append, checkAll, checkAll, ih, bind_assoc]

theorem checkAll_of_inRange {computations : List Computation}
    (inside : ∀ computation ∈ computations, InRange computation.result) (values : Variables) :
    checkAll computations values = (.ok (), commitAll computations values) := by
  induction computations generalizing values with
  | nil => rfl
  | cons first later ih =>
    rw [checkAll, Action.apply_bind_of_ok (check_of_inRange (inside first (by simp)) values)]
    exact ih (fun computation member => inside computation (by simp [member])) _

theorem checkAll_of_first {earlier later : List Computation} {first : Computation}
    (inside : ∀ computation ∈ earlier, InRange computation.result)
    (outside : ¬InRange first.result) (values : Variables) :
    checkAll (earlier ++ first :: later) values =
      (.error first.fault, commitAll earlier values) := by
  rw [checkAll_append, Action.apply_bind_of_ok (checkAll_of_inRange inside values), checkAll,
    Action.apply_bind_of_error (check_of_not_inRange outside _)]

theorem inRange_or_first (computations : List Computation) :
    (∀ computation ∈ computations, InRange computation.result) ∨
      ∃ earlier first later, computations = earlier ++ first :: later ∧
        (∀ computation ∈ earlier, InRange computation.result) ∧ ¬InRange first.result := by
  induction computations with
  | nil => exact .inl (by simp)
  | cons computation computations ih =>
    by_cases fits : InRange computation.result
    · rcases ih with inside | ⟨earlier, first, later, rfl, inside, outside⟩
      · exact .inl (by simpa using ⟨fits, inside⟩)
      · exact .inr ⟨computation :: earlier, first, later, rfl, by simpa using ⟨fits, inside⟩,
          outside⟩
    · exact .inr ⟨[], computation, computations, rfl, by simp, fits⟩

theorem eq_commitAll_of_checkAll {computations : List Computation} {values after : Variables}
    (done : checkAll computations values = (.ok (), after)) :
    after = commitAll computations values := by
  rcases inRange_or_first computations with inside | ⟨earlier, first, later, rfl, inside, outside⟩
  · rw [checkAll_of_inRange inside] at done
    exact (congrArg Prod.snd done).symm
  · rw [checkAll_of_first inside outside] at done
    cases done

end Computation

open LineCalculator.Computation

/-- An action is the check of an exact one if it has its outcome, unless one of the computations
is out of range. -/
def Checks {α : Type} (exact : Action Ledger Fault α) (checked : Action Variables Fault α) :
    Prop :=
  ∀ ledger, ∃ outcome computations,
    exact ledger = (outcome,
      ⟨commitAll computations ledger.values, ledger.computations ++ computations⟩) ∧
    ConsistentFrom ledger.values computations ∧
    checked ledger.values =
      (checkAll computations >>= fun _ => .ofExcept outcome : Action Variables Fault α)
        ledger.values

namespace Checks

variable {α β : Type}

theorem ofExcept (result : Except Fault α) : Checks (.ofExcept result) (.ofExcept result) := by
  intro ledger
  exact ⟨result, [], by simp [commitAll], trivial, rfl⟩

theorem bind {exact : Action Ledger Fault α} {checked : Action Variables Fault α}
    {exactNext : α → Action Ledger Fault β} {checkedNext : α → Action Variables Fault β}
    (first : Checks exact checked) (next : ∀ a, Checks (exactNext a) (checkedNext a)) :
    Checks (exact >>= exactNext) (checked >>= checkedNext) := by
  intro ledger
  obtain ⟨outcome, earlier, reached, consistent, same⟩ := first ledger
  rw [Action.apply_bind_congr same, bind_assoc]
  cases outcome with
  | error fault =>
    exact ⟨.error fault, earlier, Action.apply_bind_of_error reached, consistent, rfl⟩
  | ok a =>
    obtain ⟨final, later, ended, also, sameNext⟩ := next a
      ⟨commitAll earlier ledger.values, ledger.computations ++ earlier⟩
    refine ⟨final, earlier ++ later, ?_, ?_, ?_⟩
    · rw [Action.apply_bind_of_ok reached, ended, commitAll_append, List.append_assoc]
    · exact consistentFrom_append.2 ⟨consistent, also⟩
    · rw [checkAll_append, bind_assoc, Action.apply_bind, Action.apply_bind]
      cases done : checkAll earlier ledger.values with
      | mk result after =>
        cases result with
        | error fault => rfl
        | ok nothing =>
          cases eq_commitAll_of_checkAll done
          exact sameNext

theorem compute (computation : Computation) (here : ∀ values, computation.StartsFrom values) :
    Checks (Ledger.compute computation) computation.check := by
  intro ledger
  refine ⟨.ok computation.result, [computation], rfl, ⟨here _, trivial⟩, ?_⟩
  rw [checkAll, checkAll, bind_assoc, Action.apply_bind]
  by_cases inside : InRange computation.result
  · rw [check_of_inRange inside]
    rfl
  · rw [check_of_not_inRange inside]

theorem literal (digits : Text) :
    Checks (Tree.literal digits).exact (Tree.literal digits).evaluate := by
  have same : (Tree.literal digits).evaluate = check (.literal digits) := by
    funext values
    have inside : InRange (Computation.literal digits).result ↔
        (Decimal.value digits : Int) ≤ maxValue := by
      simp only [InRange, result, minValue]
      omega
    by_cases fits : (Decimal.value digits : Int) ≤ maxValue
    · rw [check_of_inRange (inside.2 fits), Tree.evaluate, literalValue, if_pos fits]
      rfl
    · rw [check_of_not_inRange (mt inside.1 fits), Tree.evaluate, literalValue, if_neg fits]
      rfl
  rw [same]
  exact compute _ fun _ => trivial

theorem opposite (value : Int) : Checks (Ledger.compute (.opposite value))
    (.ofExcept ((negate value).mapError .arithmetic)) := by
  have same : (.ofExcept ((negate value).mapError .arithmetic) : Action Variables Fault Int) =
      check (.opposite value) := by
    funext values
    by_cases inside : InRange (-value)
    · rw [negate, if_pos inside]
      exact (if_pos inside).symm
    · rw [negate, if_neg inside]
      exact (if_neg inside).symm
  rw [same]
  exact compute _ fun _ => trivial

theorem binary (op : Operator) (left right : Int) :
    Checks (if op = .divide ∧ right = 0 then throw (.arithmetic .divisionByZero)
        else Ledger.compute (.binary op left right))
      (.ofExcept ((op.apply left right).mapError .arithmetic)) := by
  by_cases zero : op = .divide ∧ right = 0
  · rw [if_pos zero, Operator.apply, if_pos zero]
    exact ofExcept _
  · have same : (.ofExcept ((op.apply left right).mapError .arithmetic) :
        Action Variables Fault Int) = check (.binary op left right) := by
      funext values
      rw [Operator.apply, if_neg zero]
      by_cases inside : InRange (op.exact left right)
      · rw [if_pos inside]
        exact (if_pos inside).symm
      · rw [if_neg inside]
        exact (if_neg inside).symm
    rw [if_neg zero, same]
    exact compute _ fun _ => trivial

theorem stepped (side : Side) (step : Step) (name : Text) :
    Checks (Tree.stepped side step name).exact (Tree.stepped side step name).evaluate := by
  intro ledger
  refine ⟨_, [.stepped step name (ledger.values.get name)], rfl, ⟨rfl, trivial⟩, ?_⟩
  rw [Tree.evaluate_stepped, Operator.apply, if_neg (by simp), checkAll, checkAll, bind_assoc,
    Action.apply_bind]
  let computation : Computation := .stepped step name (ledger.values.get name)
  by_cases inside : InRange (step.operator.exact (ledger.values.get name) 1)
  · have checked : computation.check ledger.values =
        (.ok computation.result, computation.commit ledger.values) := if_pos inside
    rw [if_pos inside, checked]
    rfl
  · have checked : computation.check ledger.values = (.error computation.fault, ledger.values) :=
      if_neg inside
    rw [if_neg inside, checked]
    rfl

theorem tree (tree : Tree) : Checks tree.exact tree.evaluate := by
  induction tree with
  | literal digits => exact literal digits
  | read name => exact fun ledger => ⟨_, [], by simp [commitAll]; rfl, trivial, rfl⟩
  | stepped side step name => exact stepped side step name
  | opposite operand ih => exact ih.bind opposite
  | binary op left right leftIh rightIh =>
    exact leftIh.bind fun left => rightIh.bind fun right => binary op left right

theorem trees (trees : List Tree) : Checks (Tree.exactAll trees) (Tree.evaluateAll trees) := by
  induction trees with
  | nil => exact ofExcept (.ok ())
  | cons first later ih => exact (tree first).bind fun _ => ih

theorem reading (reading : Reading) : Checks reading.exact reading.evaluate := by
  cases reading with
  | whole whole rest => exact tree whole
  | refused parts token rest => exact (trees parts).bind fun _ => ofExcept (.error _)
  | faulty parts fault => exact (trees parts).bind fun _ => ofExcept (.error _)

end Checks

def Reading.flaw? : Reading → Option ReadingFault
  | whole _ _ => none
  | refused _ token _ => some (.unexpectedToken token.text)
  | faulty _ fault => some fault

theorem Ledger.failsOnly_compute {expected : Fault → Prop} (computation : Computation) :
    Action.FailsOnly expected (compute computation) := by
  intro ledger fault after failed
  cases failed

theorem Tree.failsOnly_exact (tree : Tree) :
    tree.exact.FailsOnly (· = .arithmetic .divisionByZero) := by
  induction tree with
  | literal digits => exact failsOnly_compute _
  | read name => intro _ _ _ failed; cases failed
  | stepped side step name => intro _ _ _ failed; cases failed
  | opposite operand ih => exact ih.bind fun value => failsOnly_compute _
  | binary op left right leftIh rightIh =>
    refine leftIh.bind fun first => rightIh.bind fun second => ?_
    split
    · exact .ofExcept fun fault failed => (Except.error.inj failed).symm
    · exact failsOnly_compute _

theorem Tree.failsOnly_exactAll (trees : List Tree) :
    (exactAll trees).FailsOnly (· = .arithmetic .divisionByZero) := by
  induction trees with
  | nil => exact .pure ()
  | cons first later ih => exact first.failsOnly_exact.bind fun _ => ih

theorem Reading.failsOnly_exact (reading : Reading) :
    reading.exact.FailsOnly fun fault => fault = .arithmetic .divisionByZero ∨
      ∃ flaw, reading.flaw? = some flaw ∧ fault = .reading flaw := by
  have behind (trees : List Tree) (flaw : ReadingFault) (here : reading.flaw? = some flaw) :
      (Tree.exactAll trees >>= fun _ => throw (.reading flaw) : Action Ledger Fault Int).FailsOnly
        fun fault => fault = .arithmetic .divisionByZero ∨
          ∃ flaw, reading.flaw? = some flaw ∧ fault = .reading flaw := by
    refine .bind (fun _ _ _ failed => .inl (Tree.failsOnly_exactAll trees _ _ _ failed)) fun _ => ?_
    exact .ofExcept fun fault failed => .inr ⟨flaw, here, (Except.error.inj failed).symm⟩
  cases reading with
  | whole tree rest => exact fun _ _ _ failed => .inl (tree.failsOnly_exact _ _ _ failed)
  | refused parts token rest => exact behind parts _ rfl
  | faulty parts fault => exact behind parts _ rfl

namespace Calculator

/-- The checked evaluation has the value of the exact one exactly when every computation of that
is in range. With all of them in range it also has its fault and its variables. Otherwise it
fails at the first one that is out of range, with the changes that were made before. -/
theorem evaluateExpression_exact (source : Text) {calculator : Calculator}
    (bounded : calculator.values.Bounded) :
    let exact := source.reading.exact ⟨calculator.values, []⟩
    let checked := evaluateExpression source calculator
    (∀ value, checked.1 = .ok value ↔
      exact.1 = .ok value ∧ ∀ computation ∈ exact.2.computations, InRange computation.result) ∧
    ((∀ computation ∈ exact.2.computations, InRange computation.result) →
      checked.1 = exact.1 ∧ checked.2.values = exact.2.values) ∧
    (∀ earlier first later, exact.2.computations = earlier ++ first :: later →
      (∀ computation ∈ earlier, InRange computation.result) → ¬InRange first.result →
      checked.1 = .error first.fault ∧ first.fault.Justified ∧
        checked.2.values = commitAll earlier calculator.values ∧
        first.StartsFrom checked.2.values) ∧
    ∀ fault, exact.1 = .error fault → fault = .arithmetic .divisionByZero ∨
      ∃ flaw, source.reading.flaw? = some flaw ∧ fault = .reading flaw := by
  intro exact checked
  obtain ⟨outcome, computations, reached, consistent, same⟩ :=
    Checks.reading source.reading ⟨calculator.values, []⟩
  rw [evaluateExpression_eq_reading] at same
  have exactly : exact = (outcome, ⟨commitAll computations calculator.values, computations⟩) :=
    reached
  have inside (all : ∀ computation ∈ computations, InRange computation.result) :
      checked.1 = outcome ∧ checked.2.values = commitAll computations calculator.values := by
    rw [← Prod.mk.injEq, same, Action.apply_bind_of_ok (checkAll_of_inRange all _)]
    rfl
  -- The first computation that is out of range decides, whatever comes behind it.
  have outside {earlier later : List Computation} {first : Computation}
      (cut : computations = earlier ++ first :: later)
      (before : ∀ computation ∈ earlier, InRange computation.result)
      (beyond : ¬InRange first.result) : checked.1 = .error first.fault ∧
        checked.2.values = commitAll earlier calculator.values := by
    rw [← Prod.mk.injEq, same, cut, Action.apply_bind_of_error (checkAll_of_first before beyond _)]
  rw [exactly]
  refine ⟨fun value => ⟨fun done => ?_, fun ⟨done, all⟩ => (inside all).1.trans done⟩,
    fun all => inside all, ?_, ?_⟩
  · rcases inRange_or_first computations with all | ⟨earlier, first, later, cut, before, beyond⟩
    · exact ⟨(inside all).1.symm.trans done, all⟩
    · cases done.symm.trans (outside cut before beyond).1
  · intro earlier first later cut before beyond
    obtain ⟨failed, kept⟩ := outside cut before beyond
    have starts : ConsistentFrom calculator.values (earlier ++ first :: later) := cut ▸ consistent
    refine ⟨failed, justified_of_evaluateExpression bounded failed, kept, ?_⟩
    rw [kept]
    exact (consistentFrom_append.1 starts).2.1
  · intro fault failed
    exact source.reading.failsOnly_exact _ _ _ (reached.trans (Prod.ext failed rfl))

theorem evaluateExpression_step_from_maxValue :
    let calculator : Calculator := ⟨⟨[(['x'], maxValue)], by simp⟩, .empty⟩
    let checked := evaluateExpression "x++ * 0".toList calculator
    calculator.values.Bounded ∧
      checked.1 = .error (.arithmetic (.overflow .add maxValue 1)) ∧
      checked.2.values = calculator.values := by
  intro calculator checked
  have bounded : calculator.values.Bounded :=
    (Variables.bounded_empty.set ['x'] (by decide : InRange maxValue) :)
  have scanned : Text.items "x++ * 0".toList =
      [.ok (.name ['x']), .ok (.stepAfter .increment), .ok (.operator .multiply),
        .ok (.number ['0'])] :=
    Text.items_eq _
  have reading : Text.reading "x++ * 0".toList =
      .whole (.binary .multiply (.stepped .after .increment ['x']) (.literal ['0'])) [] := by
    rw [Text.reading, scanned]
    rfl
  have first := (evaluateExpression_exact "x++ * 0".toList bounded).2.2.1 []
    (.stepped .increment ['x'] maxValue) [.literal ['0'], .binary .multiply maxValue 0]
    (by rw [reading]; rfl) (by simp) (by decide)
  exact ⟨bounded, first.1, first.2.2.1⟩

end Calculator

end LineCalculator
