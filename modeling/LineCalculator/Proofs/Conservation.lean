import LineCalculator.Proofs.Evaluation

/-! No step is lost and none is taken twice. An expression that has a value has used up the tokens
of a sentence, and the variables behind it differ by the steps within those tokens. -/

namespace LineCalculator

open Grammar

/-- The variables differ by the steps within some tokens. Names that had no value and got one come
behind the others, in the order of their first steps. -/
structure Balanced (before after : Variables) (tokens : List Token) : Prop where
  amounts : ∀ name, after.get name - before.get name =
    ((changes tokens).count ⟨.increment, name⟩ : Int) - (changes tokens).count ⟨.decrement, name⟩
  names : after.names = before.names ++
    (((changes tokens).map Change.name).filter (· ∉ before.names)).eraseDups

theorem balanced_changeAll (values : Variables) (tokens : List Token) :
    Balanced values (values.changeAll (changes tokens)) tokens where
  amounts := values.get_changeAll (changes tokens)
  names := values.names_changeAll (changes tokens)

theorem Run.changeAll_of_expression {run last : Run} {value : Int}
    (done : expression run = (.ok value, last)) :
    ∃ consumed tree, run.cursor.items = consumed.map .ok ++ last.cursor.items ∧
      Sentence consumed tree ∧ last.values = run.values.changeAll (changes consumed) := by
  have ended := result_expression run
  rw [done] at ended
  cases reading : Progress.read {} run.cursor.items with
  | refused parts token rest => rw [reading] at ended; cases ended
  | faulty parts fault => rw [reading] at ended; cases ended
  | whole tree rest =>
    rw [reading] at ended
    cases ended with
    | value evaluated left =>
      obtain ⟨consumed, progress, items, fit, found⟩ := Progress.read_eq_whole reading
      have sentence : Sentence consumed tree := sentence_iff.2 ⟨progress, fit, found⟩
      refine ⟨consumed, tree, left ▸ items, sentence, ?_⟩
      rw [sentence.changes_eq]
      exact Tree.eq_changeAll_of_evaluate evaluated

namespace Calculator

/-- An expression that has a value changes each variable by the increments of its name less the
decrements of it, both counted in the tokens that were used up, and gives no other names values.
This holds from any token on and for whole texts. -/
theorem evaluateExpression_balanced :
    (∀ run last value, Run.expression run = (.ok value, last) →
      ∃ consumed tree, run.cursor.items = consumed.map .ok ++ last.cursor.items ∧
        Sentence consumed tree ∧ Balanced run.values last.values consumed) ∧
    ∀ source calculator value, (evaluateExpression source calculator).1 = .ok value →
      ∃ run last consumed tree, Run.start calculator source = .ok run ∧
        Run.expression run = (.ok value, last) ∧
        source.items = consumed.map .ok ++ last.cursor.items ∧ Sentence consumed tree ∧
        Balanced calculator.values (evaluateExpression source calculator).2.values consumed := by
  have whole (run last : Run) (value : Int) (done : Run.expression run = (.ok value, last)) :
      ∃ consumed tree, run.cursor.items = consumed.map .ok ++ last.cursor.items ∧
        Sentence consumed tree ∧ Balanced run.values last.values consumed := by
    obtain ⟨consumed, tree, items, sentence, changed⟩ := Run.changeAll_of_expression done
    exact ⟨consumed, tree, items, sentence, changed ▸ balanced_changeAll run.values consumed⟩
  refine ⟨whole, fun source calculator value done => ?_⟩
  rw [evaluateExpression] at done ⊢
  rcases Run.start_cases calculator source with
    ⟨fault, rest, items, failed⟩ | ⟨run, started, kept, items⟩
  · rw [failed] at done
    cases done
  · rw [started] at done ⊢
    cases ended : Run.expression run with
    | mk result last =>
      simp only [ended] at done ⊢
      cases done
      obtain ⟨consumed, tree, taken, sentence, balanced⟩ := whole run last value ended
      exact ⟨run, last, consumed, tree, rfl, ended, items ▸ taken, sentence, kept ▸ balanced⟩

theorem evaluateExpression_step_left_over :
    let source : Text := "n + i++--".toList
    (evaluateExpression source new).1 = .ok 0 ∧
      ∃ run last consumed tree, Run.start new source = .ok run ∧
        Run.expression run = (.ok 0, last) ∧
        source.items = consumed.map .ok ++ last.cursor.items ∧ Sentence consumed tree ∧
        Balanced new.values (evaluateExpression source new).2.values consumed := by
  intro source
  have scanned : Text.items "n + i++--".toList =
      [.ok (.name ['n']), .ok (.operator .add), .ok (.name ['i']), .ok (.stepAfter .increment),
        .ok (.stepAfter .decrement)] :=
    Text.items_eq _
  have done : (evaluateExpression source new).1 = .ok 0 := by
    have same := evaluateExpression_eq_reading "n + i++--".toList new
    rw [Text.reading, scanned] at same
    exact (congrArg Prod.fst same).symm
  exact ⟨done, evaluateExpression_balanced.2 source new 0 done⟩

end Calculator

end LineCalculator
