import LineCalculator.Expression.Run
import LineCalculator.Proofs.Change

/-! The syntax trees of expressions and their values. A tree is evaluated from left to right: a
step changes its variable when it is evaluated, and the first fault ends the evaluation.

The main statement is that an evaluation makes the changes of the tree in order: all of them if it
succeeds, and otherwise those of an initial segment. -/

namespace LineCalculator

def Fault.InValues : Fault → Prop
  | arithmetic _ => True
  | reading (.literalTooLarge _) => True
  | reading _ => False

inductive Tree where
  | literal (digits : Text)
  | read (name : Text)
  | stepped (side : Side) (step : Step) (name : Text)
  | opposite (operand : Tree)
  | binary (op : Operator) (left right : Tree)
  deriving DecidableEq, Repr

namespace Tree

/-- Evaluates a tree. A step before a name has the new value of the variable, a step behind it
the old one. -/
def evaluate : Tree → Action Variables Fault Int
  | literal digits => .ofExcept ((literalValue digits).mapError .reading)
  | read name => do return (← get).get name
  | stepped side step name => do
    let old := (← get).get name
    let new ← .ofExcept ((step.operator.apply old 1).mapError .arithmetic)
    modify (·.set name new)
    return match side with
      | .before => new
      | .after => old
  | opposite operand => do
    .ofExcept ((negate (← operand.evaluate)).mapError .arithmetic)
  | binary op left right => do
    let left ← left.evaluate
    let right ← right.evaluate
    .ofExcept ((op.apply left right).mapError .arithmetic)

def changes : Tree → List Change
  | literal _ | read _ => []
  | stepped _ step name => [⟨step, name⟩]
  | opposite operand => operand.changes
  | binary _ left right => left.changes ++ right.changes

def evaluateAll : List Tree → Action Variables Fault Unit
  | [] => pure ()
  | tree :: later => do
    let _ ← tree.evaluate
    evaluateAll later

end Tree

/-- An action that makes changes in order: all of them if it has a value, and otherwise those of an
initial segment. -/
def Makes {α : Type} (changes : List Change) (action : Action Variables Fault α) : Prop :=
  ∀ values, match action values with
    | (.ok _, after) => after = values.changeAll changes
    | (.error _, after) => ∃ made, made <+: changes ∧ after = values.changeAll made

namespace Makes

variable {α β : Type}

theorem ofExcept (result : Except Fault α) : Makes [] (.ofExcept result) := by
  intro values
  cases result with
  | ok a => rfl
  | error fault => exact ⟨[], List.nil_prefix, rfl⟩

theorem bind {earlier later : List Change} {first : Action Variables Fault α}
    {next : α → Action Variables Fault β} (start : Makes earlier first)
    (rest : ∀ a, Makes later (next a)) : Makes (earlier ++ later) (first >>= next) := by
  intro values
  have made := start values
  rw [Action.apply_bind]
  cases done : first values with
  | mk result middle =>
    rw [done] at made
    cases result with
    | error fault =>
      obtain ⟨made, segment, changed⟩ := made
      exact ⟨made, segment.trans (List.prefix_append earlier later), changed⟩
    | ok a =>
      subst made
      have further := rest a (values.changeAll earlier)
      dsimp only
      split
      · next b after same =>
        rw [same] at further
        rw [Variables.changeAll_append]
        exact further
      · next fault after same =>
        rw [same] at further
        obtain ⟨made, segment, changed⟩ := further
        refine ⟨earlier ++ made, (List.prefix_append_right_inj earlier).2 segment, ?_⟩
        rw [Variables.changeAll_append]
        exact changed

theorem eq_of_ok {changes : List Change} {action : Action Variables Fault α}
    (makes : Makes changes action) {values after : Variables} {a : α}
    (done : action values = (.ok a, after)) : after = values.changeAll changes := by
  have made := makes values
  rwa [done] at made

theorem exists_prefix {changes : List Change} {action : Action Variables Fault α}
    (makes : Makes changes action) (values : Variables) :
    ∃ made, made <+: changes ∧ (action values).2 = values.changeAll made := by
  have made := makes values
  split at made
  · next a after done => exact ⟨changes, List.prefix_rfl, by rw [done, made]⟩
  · next fault after failed => rwa [failed]

end Makes

namespace Tree

theorem evaluate_stepped (side : Side) (step : Step) (name : Text) (values : Variables) :
    (stepped side step name).evaluate values =
      match step.operator.apply (values.get name) 1 with
      | .ok new => (.ok (match side with | .before => new | .after => values.get name),
          values.set name new)
      | .error fault => (.error (.arithmetic fault), values) := by
  change (Action.ofExcept ((step.operator.apply (values.get name) 1).mapError .arithmetic) >>=
    fun new => (modify (·.set name new) : Action Variables Fault PUnit) >>= fun _ =>
      pure (match side with | .before => new | .after => values.get name)) values = _
  cases step.operator.apply (values.get name) 1 <;> rfl

theorem makes_evaluate (tree : Tree) : Makes tree.changes tree.evaluate := by
  induction tree with
  | literal digits => exact .ofExcept _
  | read name => exact fun values => rfl
  | stepped side step name =>
    intro values
    rw [evaluate_stepped]
    cases applied : step.operator.apply (values.get name) 1 with
    | ok new =>
      change values.set name new = values.set name _
      rw [(Operator.apply_eq_ok_iff.1 applied).2.2]
    | error fault => exact ⟨[], List.nil_prefix, rfl⟩
  | opposite operand ih =>
    rw [changes, ← List.append_nil operand.changes]
    exact ih.bind fun value => .ofExcept _
  | binary op left right leftIh rightIh =>
    rw [changes, ← List.append_nil right.changes]
    exact leftIh.bind fun first => rightIh.bind fun second => .ofExcept _

theorem makes_evaluateAll (trees : List Tree) :
    Makes (trees.flatMap changes) (evaluateAll trees) := by
  induction trees with
  | nil => exact .ofExcept (.ok ())
  | cons tree later ih => exact tree.makes_evaluate.bind fun _ => ih

theorem eq_changeAll_of_evaluate {tree : Tree} {values after : Variables} {value : Int}
    (done : tree.evaluate values = (.ok value, after)) :
    after = values.changeAll tree.changes :=
  tree.makes_evaluate.eq_of_ok done

theorem eq_changeAll_of_evaluateAll {trees : List Tree} {values after : Variables}
    (done : evaluateAll trees values = (.ok (), after)) :
    after = values.changeAll (trees.flatMap changes) :=
  (makes_evaluateAll trees).eq_of_ok done

theorem failsOnly_evaluate (tree : Tree) : tree.evaluate.FailsOnly Fault.InValues := by
  have arithmetic (result : Except ArithmeticFault Int) :
      (.ofExcept (result.mapError .arithmetic) : Action Variables Fault Int).FailsOnly
        Fault.InValues := by
    refine .ofExcept fun fault failed => ?_
    cases result <;> cases failed
    exact trivial
  induction tree with
  | literal digits =>
    refine .ofExcept fun fault failed => ?_
    rw [literalValue] at failed
    split at failed <;> cases failed
    exact trivial
  | read name => intro _ _ _ failed; cases failed
  | stepped side step name =>
    intro values fault after failed
    rw [evaluate_stepped] at failed
    split at failed <;> cases failed
    exact trivial
  | opposite operand ih => exact ih.bind fun value => arithmetic _
  | binary op left right leftIh rightIh =>
    exact leftIh.bind fun first => rightIh.bind fun second => arithmetic _

theorem failsOnly_evaluateAll (trees : List Tree) :
    (evaluateAll trees).FailsOnly Fault.InValues := by
  induction trees with
  | nil => exact .pure ()
  | cons first later ih => exact first.failsOnly_evaluate.bind fun _ => ih

end Tree

end LineCalculator
