import LineCalculator.Calculator.Line
import LineCalculator.Proofs.Recognition
import LineCalculator.Proofs.Simulation

/-! The value of an expression is the value of its syntax tree: the tree of the longest sentence
with which the tokens of a text begin, if no operator comes behind it. -/

namespace LineCalculator

open Grammar

def Text.reading (source : Text) : Reading :=
  Progress.read {} source.items

theorem Text.reading_of_sentence {source : Text} {tokens : List Token} {tree : Tree}
    (scanned : source.items = tokens.map .ok) (sentence : Sentence tokens tree) :
    source.reading = .whole tree [] := by
  obtain ⟨progress, fit, ended⟩ := sentence_iff.1 sentence
  have read := Progress.read_append fit []
  rw [List.append_nil, ← scanned] at read
  rw [reading, read, Progress.read, Progress.ended, ended]

theorem Reading.Result.evaluate_eq {reading : Reading} {start : Variables} {last : Run}
    {result : Except Fault Int} (ended : Result reading start (result, last)) :
    reading.evaluate start = (result, last.values) := by
  cases ended with
  | value evaluated left => exact evaluated
  | refused evaluated left => exact Action.apply_bind_of_ok evaluated
  | faulty evaluated => exact Action.apply_bind_of_ok evaluated
  | failed evaluated =>
    cases reading with
    | whole tree rest =>
      rw [trees, Tree.evaluateAll, Action.apply_bind] at evaluated
      split at evaluated
      · cases evaluated
      · next fault after failed =>
        cases evaluated
        exact failed
    | refused parts token rest => exact Action.apply_bind_of_error evaluated
    | faulty parts fault => exact Action.apply_bind_of_error evaluated

theorem Calculator.evaluateExpression_eq_reading (source : Text) (calculator : Calculator) :
    source.reading.evaluate calculator.values =
      ((evaluateExpression source calculator).1,
        (evaluateExpression source calculator).2.values) := by
  rw [evaluateExpression]
  rcases Run.start_cases calculator source with
    ⟨fault, rest, items, failed⟩ | ⟨run, started, kept, items⟩
  · rw [failed, Text.reading, items]
    rfl
  · rw [started, Text.reading, ← items, ← kept]
    exact (Run.result_expression run).evaluate_eq

namespace Calculator

theorem evaluate_factor {source : Text} {tokens : List Token} {tree : Tree}
    (scanned : source.items = tokens.map .ok) (whole : Factor tokens tree)
    (calculator : Calculator) :
    tree.evaluate calculator.values = ((evaluateExpression source calculator).1,
      (evaluateExpression source calculator).2.values) := by
  have sentence : Sentence tokens tree := .operand (.operand whole)
  rw [← evaluateExpression_eq_reading, Text.reading_of_sentence scanned sentence]
  rfl

/-- Evaluating a text has the value or the fault, and leaves the variables, of the one syntax tree
of the longest sentence that its tokens begin with, when no operator comes behind that. -/
theorem evaluateExpression_eq_tree {source : Text} {sentence suffix : List Token} {tree : Tree}
    (scanned : source.items = (sentence ++ suffix).map .ok) (derived : Sentence sentence tree)
    (longest : ∀ longer other, longer <+: sentence ++ suffix → Sentence longer other →
      longer.length ≤ sentence.length)
    (ends : ∀ op, suffix.head? ≠ some (.operator op)) (calculator : Calculator) :
    tree.evaluate calculator.values = ((evaluateExpression source calculator).1,
        (evaluateExpression source calculator).2.values) ∧
      ∀ other, Sentence sentence other → other = tree := by
  refine ⟨?_, fun other again => derived.unique again⟩
  obtain ⟨progress, fit, ended⟩ := sentence_iff.1 derived
  obtain ⟨factor, finished, -⟩ := Option.map_eq_some_iff.1 ended
  -- A token that fits is an operator, or it makes a longer sentence.
  have misfit (token : Token) (later : List Token) (here : suffix = token :: later) :
      progress.next token = none := by
    cases fits : progress.next token with
    | none => rfl
    | some following =>
      rcases Progress.next_of_finished finished fits with ⟨op, rfl⟩ | ⟨other, more⟩
      · exact absurd (by rw [here]; rfl) (ends op)
      · have reached : Progress.behind {} (sentence ++ [token]) = some following := by
          rw [Progress.behind_append, fit, Option.bind_some, Progress.behind, fits]
          rfl
        have bound := longest (sentence ++ [token]) other
          ⟨later, by rw [here, List.append_assoc]; rfl⟩ (sentence_iff.2 ⟨following, reached, more⟩)
        simp only [List.length_append, List.length_singleton] at bound
        omega
  have reading : source.reading = .whole tree (suffix.map .ok) := by
    rw [Text.reading, scanned, List.map_append, Progress.read_append fit]
    cases suffix with
    | nil => rw [List.map_nil, Progress.read, Progress.ended, ended]
    | cons token later =>
      rw [List.map_cons, Progress.read, misfit token later rfl]
      change progress.ended _ _ = _
      rw [Progress.ended, ended]
  rw [← evaluateExpression_eq_reading, reading]
  rfl

theorem evaluateExpression_signs_and_steps :
    (evaluateExpression "- ++i * 2 + i++ = 7".toList ⟨⟨[(['i'], 4)], by simp⟩, .empty⟩).1 =
        .ok (-5) ∧
      (evaluateExpression "- ++i * 2 + i++ = 7".toList
        ⟨⟨[(['i'], 4)], by simp⟩, .empty⟩).2.values.entries = [(['i'], 6)] := by
  have scanned : Text.items "- ++i * 2 + i++ = 7".toList =
      ([.operator .subtract, .stepBefore .increment, .name ['i'], .operator .multiply,
        .number ['2'], .operator .add, .name ['i'], .stepAfter .increment] ++
        [.equals, .number ['7']] : List Token).map .ok :=
    Text.items_eq _
  have derived : Sentence
      [.operator .subtract, .stepBefore .increment, .name ['i'], .operator .multiply,
        .number ['2'], .operator .add, .name ['i'], .stepAfter .increment]
      (.binary .add
        (.binary .multiply (.opposite (.stepped .before .increment ['i'])) (.literal ['2']))
        (.stepped .after .increment ['i'])) :=
    sentence_iff.2 ⟨_, rfl, rfl⟩
  have same := (evaluateExpression_eq_tree scanned derived
    (fun _ _ begins again => again.length_le_of_misfit rfl begins) (by simp)
    ⟨⟨[(['i'], 4)], by simp⟩, .empty⟩).1
  exact ⟨(congrArg Prod.fst same).symm, congrArg Variables.entries (congrArg Prod.snd same).symm⟩

end Calculator

end LineCalculator
