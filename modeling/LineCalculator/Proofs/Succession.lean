import LineCalculator.Proofs.Lookahead
import LineCalculator.Proofs.Printing

/-! Evaluating one expression behind another. Each evaluation goes on where the one before it
stopped, also behind a fault, and so the evaluations cut the tokens of a text into pieces.

The main statement is about any number of evaluations: the pieces and the tokens still to come are
the tokens of the text, and behind a value the next evaluation does what it would do on a text of
its own. -/

namespace LineCalculator

open Grammar

def Grammar.StartsFactor (token : Token) : Prop :=
  ∃ later tree, Factor (token :: later) tree

theorem Progress.next_of_not_startsFactor {token : Token} (never : ¬StartsFactor token) :
    Progress.next {} token = none := by
  cases token with
  | operator op =>
    cases op with
    | subtract => exact absurd ⟨[.number ['0']], _, .opposite (.literal ['0'])⟩ never
    | add | multiply | divide => rfl
  | number digits => exact absurd ⟨[], _, .literal digits⟩ never
  | name name => exact absurd ⟨[], _, .read name⟩ never
  | stepBefore step => exact absurd ⟨[.name ['a']], _, .stepBefore step ['a']⟩ never
  | equals | stepAfter _ | finish => rfl

theorem Cursor.Moves.delivered {count : Nat} {cursor last : Cursor} (path : Moves count cursor last)
    {tokens : List Token} (items : cursor.items = tokens.map .ok) :
    (cursor.moves count).1 = (tokens.take count).map .ok ∧
      last.items = (tokens.drop count).map .ok := by
  induction path generalizing tokens with
  | stay cursor => exact ⟨rfl, items⟩
  | @next count cursor last inside later ih =>
    cases tokens with
    | nil =>
      rw [items_of_inside inside] at items
      cases items
    | cons token tokens =>
      rcases advance_cases items with ⟨fault, behind, split, -⟩ | ⟨taken, left⟩
      · cases tokens <;> cases split
      · obtain ⟨results, rest⟩ := ih left
        refine ⟨?_, rest⟩
        rw [moves, taken, results]
        rfl

namespace Run

def behindCalls (run : Run) : Nat → Run
  | 0 => run
  | calls + 1 => (expression (run.behindCalls calls)).2

/-- The moves from one run to another return these tokens. -/
def Uses (before : Run) (used : List Token) (after : Run) : Prop :=
  ∃ count, before.cursor.Moves count after.cursor ∧
    (before.cursor.moves count).1 = used.map .ok

/-- Evaluating goes on as it does on a text, with the same result, the same variables behind it and
the same tokens used up. -/
def GoesOnAs (run : Run) (source : Text) : Prop :=
  ∀ calculator : Calculator, calculator.values = run.values →
    (expression run).1 = (Calculator.evaluateExpression source calculator).1 ∧
      (expression run).2.values = (Calculator.evaluateExpression source calculator).2.values ∧
      ∃ fresh used, start calculator source = .ok fresh ∧ run.Uses used (expression run).2 ∧
        fresh.Uses used (expression fresh).2

theorem expression_of_misfit {run : Run} (misfit : Progress.next {} run.cursor.current = none) :
    expression run = refuse run := by
  have refused : factor run = refuse run := factor_of_misfit rfl misfit
  exact Action.apply_bind_of_error (Action.apply_bind_of_error refused)

theorem behindCalls_of_misfit {run : Run} {calls : Nat}
    (misfit : Progress.next {} (run.behindCalls calls).cursor.current = none) (more : Nat) :
    run.behindCalls (calls + more) = run.behindCalls calls := by
  induction more with
  | zero => rfl
  | succ more ih =>
    change (expression (run.behindCalls (calls + more))).2 = _
    rw [ih, expression_of_misfit misfit, refuse_snd]

section Tokens

variable {run : Run} {tokens : List Token} (items : run.cursor.items = tokens.map .ok)

include items

theorem exists_uses :
    ∃ used rest, tokens = used ++ rest ∧ run.Uses used (expression run).2 ∧
      (expression run).2.cursor.items = rest.map .ok := by
  obtain ⟨count, moved, -⟩ := Looks.expression run
  obtain ⟨results, left⟩ := moved.delivered items
  exact ⟨tokens.take count, tokens.drop count, (List.take_append_drop count tokens).symm,
    ⟨count, moved, results⟩, left⟩

theorem exists_pieces :
    ∃ used rest : Nat → List Token, ∀ calls,
      (run.behindCalls calls).Uses (used calls) (run.behindCalls (calls + 1)) ∧
        tokens = (List.range calls).flatMap used ++ rest calls ∧
        (run.behindCalls calls).cursor.items = (rest calls).map .ok := by
  have each (calls : Nat) : ∃ rest : List Token,
      (run.behindCalls calls).cursor.items = rest.map .ok := by
    induction calls with
    | zero => exact ⟨tokens, items⟩
    | succ calls ih =>
      obtain ⟨rest, here⟩ := ih
      obtain ⟨used, left, -, -, behind⟩ := exists_uses here
      exact ⟨left, behind⟩
  -- The tokens that are left are chosen first, and what an evaluation uses up is the difference.
  obtain ⟨rest, left⟩ := Classical.axiomOfChoice each
  have same {one other : List Token} (equal : one.map .ok = (other.map .ok : List Item)) :
      one = other :=
    (List.map_inj_right fun _ _ => Except.ok.inj).1 equal
  have step (calls : Nat) : ∃ used,
      (run.behindCalls calls).Uses used (run.behindCalls (calls + 1)) ∧
        rest calls = used ++ rest (calls + 1) := by
    obtain ⟨used, behind, split, uses, items⟩ := exists_uses (left calls)
    exact ⟨used, uses, by rw [split, same (items.symm.trans (left (calls + 1)))]⟩
  obtain ⟨used, cut⟩ := Classical.axiomOfChoice step
  refine ⟨used, rest, fun calls => ⟨(cut calls).1, ?_, left calls⟩⟩
  induction calls with
  | zero => exact same (items.symm.trans (left 0))
  | succ calls ih =>
    rw [ih, (cut calls).2, List.range_succ]
    simp

theorem goesOnAs {source : Text} (scanned : source.items = tokens.map .ok) :
    run.GoesOnAs source := by
  intro calculator values
  obtain ⟨fresh, started, kept, here⟩ := exists_start scanned calculator
  obtain ⟨count, moved, same⟩ := Looks.expression run
  have alike : Alike (count + 0) run fresh := by
    refine ⟨(kept.trans values).symm, ?_⟩
    rw [Cursor.Alike, Cursor.stream, items, Cursor.stream, here]
  obtain ⟨path, result, final, -⟩ := same fresh 0 alike
  rw [Calculator.evaluateExpression, started]
  exact ⟨result, final, fresh, tokens.take count, rfl,
    ⟨count, moved, (moved.delivered items).1⟩, ⟨count, path, (path.delivered here).1⟩⟩

theorem ne_operator_of_value {value : Int} (done : (expression run).1 = .ok value)
    (op : Operator) : (expression run).2.cursor.current ≠ .operator op := by
  obtain ⟨earlier, rest, progress, stops, -⟩ := Progress.exists_stops {} tokens
  obtain ⟨left, outcome⟩ := expression_of_stops items stops fun fault failed => by
    cases done.symm.trans failed
  cases finished : progress.tree? with
  | none =>
    rw [finished] at outcome
    cases done.symm.trans outcome
  | some tree =>
    intro current
    refine (stops.beginWith finished).ends op ?_
    rw [Cursor.current_of_items_map left] at current
    cases rest with
    | nil => cases current
    | cons token rest => exact congrArg some current

theorem current_of_refused {text : Text}
    (failed : (expression run).1 = .error (.reading (.unexpectedToken text))) :
    text = (expression run).2.cursor.current.text ∧
      ∃ earlier later, FirstMisfit tokens earlier (expression run).2.cursor.current later := by
  obtain ⟨earlier, rest, progress, stops, -⟩ := Progress.exists_stops {} tokens
  obtain ⟨left, outcome⟩ := expression_of_stops items stops fun fault found => by
    cases failed.symm.trans found
    exact id
  have current := Cursor.current_of_items_map left
  cases finished : progress.tree? with
  | some tree =>
    rw [finished] at outcome
    obtain ⟨value, done⟩ := outcome
    cases failed.symm.trans done
  | none =>
    rw [finished] at outcome
    cases failed.symm.trans outcome
    rw [current]
    exact ⟨rfl, earlier, _, stops.firstMisfit⟩

end Tokens

end Run

namespace Calculator

/-- Evaluating again and again from a text without faults cuts its tokens into pieces. Behind a
value stands no operator, and the next evaluation does what it does on any text with the tokens
still to come; there is one, unless the next token is a step that touches, and that is refused.
What is refused stays current, and where no factor can begin nothing changes any more. -/
theorem expression_cuts_tokens {source : Text} {tokens : List Token}
    (scanned : source.items = tokens.map .ok) (calculator : Calculator) :
    ∃ run, ∃ used rest : Nat → List Token, Run.start calculator source = .ok run ∧ ∀ calls,
      let before := run.behindCalls calls
      let after := run.behindCalls (calls + 1)
      let result := (Run.expression before).1
      before.Uses (used calls) after ∧
        tokens = (List.range calls).flatMap used ++ rest calls ∧
        before.cursor.items = (rest calls).map .ok ∧
        (∀ value, result = .ok value →
          (∀ op, after.cursor.current ≠ .operator op) ∧
          (∀ step, (rest (calls + 1)).head? = some (.stepAfter step) →
            Run.expression after = (.error (.reading (.unexpectedToken step.text)), after)) ∧
          ((∀ step, (rest (calls + 1)).head? ≠ some (.stepAfter step)) →
            (∃ other : Text, other.items = (rest (calls + 1)).map .ok) ∧
            ∀ other : Text, other.items = (rest (calls + 1)).map .ok → after.GoesOnAs other)) ∧
        (∀ text, result = .error (.reading (.unexpectedToken text)) →
          text = after.cursor.current.text ∧
          ∃ earlier later, FirstMisfit (rest calls) earlier after.cursor.current later) ∧
        (¬StartsFactor before.cursor.current → ∀ more,
          Run.expression (run.behindCalls (calls + more)) =
            (.error (.reading (.unexpectedToken before.cursor.current.text)), before)) := by
  obtain ⟨run, started, -, items⟩ := Run.exists_start scanned calculator
  obtain ⟨used, rest, cut⟩ := Run.exists_pieces items
  refine ⟨run, used, rest, started, fun calls => ?_⟩
  obtain ⟨uses, split, here⟩ := cut calls
  obtain ⟨-, whole, left⟩ := cut (calls + 1)
  refine ⟨uses, split, here, fun value done => ⟨?_, fun step touches => ?_, fun detached => ?_⟩,
    fun text => Run.current_of_refused here, fun never more => ?_⟩
  · exact Run.ne_operator_of_value here done
  · have current : (run.behindCalls (calls + 1)).cursor.current = .stepAfter step := by
      rw [Cursor.current_of_items_map left, List.headD_eq_head?_getD, touches]
      rfl
    rw [Run.expression_of_misfit (by rw [current]; rfl), Run.refuse, current]
    rfl
  · have formed := Text.wellFormed_of_items scanned
    rw [whole] at formed
    exact ⟨⟨_, (formed.of_append detached).items_readBack⟩, fun other => Run.goesOnAs left⟩
  · have misfit := Progress.next_of_not_startsFactor never
    rw [Run.behindCalls_of_misfit misfit, Run.expression_of_misfit misfit]
    rfl

theorem expression_cuts_tokens_at_second_step :
    let source : Text := "i++-- + 1".toList
    ∃ run, Run.start new source = .ok run ∧ (Run.expression run).1 = .ok 0 ∧
      ∀ more, Run.expression (run.behindCalls (1 + more)) =
        (.error (.reading (.unexpectedToken ['-', '-'])), run.behindCalls 1) := by
  intro source
  let tokens : List Token := [.name ['i'], .stepAfter .increment, .stepAfter .decrement,
    .operator .add, .number ['1']]
  have scanned : Text.items "i++-- + 1".toList = tokens.map .ok := Text.items_eq _
  obtain ⟨run, used, rest, started, cut⟩ := expression_cuts_tokens scanned new
  obtain ⟨-, whole, left, -⟩ := cut 0
  have items : run.cursor.items = tokens.map .ok := by
    rw [whole]
    exact left
  have reading := evaluateExpression_eq_reading "i++-- + 1".toList new
  rw [Text.reading, scanned, evaluateExpression, started] at reading
  have done : (Run.expression run).1 = .ok 0 := (congrArg Prod.fst reading).symm
  have stops : Progress.Stops {} tokens (tokens.take 2) (tokens.drop 2) _ := ⟨rfl, rfl, rfl⟩
  have unspoilt (fault : Fault) (failed : (Run.expression run).1 = .error fault) :
      ¬fault.InValues := by
    cases done.symm.trans failed
  obtain ⟨left, -⟩ := Run.expression_of_stops items stops unspoilt
  have current : (run.behindCalls 1).cursor.current = .stepAfter .decrement :=
    Cursor.current_of_items_map left
  have never : ¬StartsFactor (.stepAfter .decrement) := by
    rintro ⟨later, tree, factor⟩
    cases factor
  obtain ⟨-, -, -, -, -, further⟩ := cut 1
  rw [current] at further
  exact ⟨run, started, done, further never⟩

end Calculator

end LineCalculator
