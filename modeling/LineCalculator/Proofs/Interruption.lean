import LineCalculator.Proofs.Evaluation

/-! Faults of the text. A step, like every factor, is evaluated when the token behind it has been
read. A fault in place of that token therefore hides the factor: neither its change is made nor
its own fault found. -/

namespace LineCalculator

open Grammar

/-- The part of a fault that lies in single tokens, not in their order or their values. -/
def Fault.IsLexical : Fault → Prop
  | reading fault => fault.IsLexical
  | arithmetic _ => False

theorem Fault.InValues.not_isLexical {fault : Fault} (values : fault.InValues) :
    ¬fault.IsLexical := by
  cases fault with
  | arithmetic fault => exact id
  | reading fault =>
    cases fault with
    | literalTooLarge digits => exact id
    | _ => exact False.elim values

theorem Reading.eq_faulty_of_evaluate {reading : Reading} {values after : Variables}
    {fault : ReadingFault} (lexical : fault.IsLexical)
    (failed : reading.evaluate values = (.error (.reading fault), after)) :
    ∃ parts, reading = .faulty parts fault ∧ Tree.evaluateAll parts values = (.ok (), after) := by
  rcases Reading.evaluate_error_cases failed with
    spoilt | ⟨parts, token, rest, -, same⟩ | ⟨parts, flaw, faulty, same, done⟩
  · exact absurd lexical spoilt.not_isLexical
  · cases same
    exact lexical.elim
  · cases same
    exact ⟨parts, faulty, done⟩

theorem Progress.Reached.sentence_of_error {tokens : List Token} {progress : Progress}
    (reached : progress.Reached tokens) {values after : Variables} {fault : Fault}
    (failed : progress.evaluate values = (.error fault, after)) :
    ∃ sentence op later tree, tokens = sentence ++ .operator op :: later ∧
      Sentence sentence tree ∧ tree.evaluate values = (.error fault, after) := by
  obtain ⟨sumTokens, productTokens, placeTokens, rfl, sum, product, place⟩ := reached
  obtain ⟨pendingSum, pendingProduct, signs, here⟩ := progress
  cases product with
  | nothing =>
    cases sum with
    | nothing => cases failed
    | @operand sentence tree op whole belongs =>
      refine ⟨sentence, op, List.replicate signs (.operator .subtract) ++ placeTokens, tree,
        by simp, whole, ?_⟩
      rcases Action.apply_bind_eq_error_iff.1 failed with early | ⟨left, middle, done, later⟩
      · rcases Action.apply_bind_eq_error_iff.1 early with here | ⟨value, middle, done, later⟩
        · exact here
        · cases later
      · cases later
  | @operand term tree op whole belongs =>
    refine ⟨sumTokens ++ term, op, List.replicate signs (.operator .subtract) ++ placeTokens,
      joined pendingSum tree, by simp, sum.joined whole, ?_⟩
    rw [evaluate_joined]
    rcases Action.apply_bind_eq_error_iff.1 failed with early | ⟨left, middle, done, later⟩
    · exact Action.apply_bind_of_error early
    · rw [Action.apply_bind_of_ok done]
      rcases Action.apply_bind_eq_error_iff.1 later with here | ⟨right, last, also, final⟩
      · rcases Action.apply_bind_eq_error_iff.1 here with inner | ⟨value, last, also, final⟩
        · exact Action.apply_bind_of_error inner
        · cases final
      · cases final

namespace Calculator

/-- When an evaluation fails with a fault of the text, the tokens before the fault can begin a
sentence, and exactly the changes that lie before the last of them have been made. Conversely
such a fault behind tokens that can begin a sentence is reported, unless the sentence before an
operator among them has a fault of its own. -/
theorem evaluateExpression_lexical_fault (source : Text) (calculator : Calculator) :
    let result := evaluateExpression source calculator
    (∀ fault : ReadingFault, fault.IsLexical → result.1 = .error (.reading fault) →
      ∃ tokens rest, source.items = tokens.map .ok ++ .error fault :: rest ∧ Viable tokens ∧
        result.2.values = calculator.values.changeAll (changes tokens.dropLast)) ∧
    ∀ tokens fault rest, source.items = tokens.map .ok ++ .error fault :: rest → Viable tokens →
      result.1 = .error (.reading fault) ∨
        ∃ sentence op later tree other, tokens = sentence ++ .operator op :: later ∧
          Sentence sentence tree ∧
          tree.evaluate calculator.values = (.error other, result.2.values) ∧
          result.1 = .error other := by
  intro result
  have evaluated : source.reading.evaluate calculator.values = (result.1, result.2.values) :=
    evaluateExpression_eq_reading source calculator
  constructor
  · intro fault lexical failed
    rw [failed] at evaluated
    obtain ⟨parts, reading, done⟩ := Reading.eq_faulty_of_evaluate lexical evaluated
    obtain ⟨tokens, rest, progress, items, fit, rfl⟩ := Progress.read_eq_faulty reading
    refine ⟨tokens, rest, items, viable_of_behind fit, ?_⟩
    -- The last token may complete a factor, but its change waits for the token behind it.
    rw [(Progress.reached_of_behind fit).changes_dropLast]
    exact Tree.eq_changeAll_of_evaluateAll done
  · intro tokens fault rest items viable
    obtain ⟨progress, fit⟩ := viable_iff.1 viable
    have reading : source.reading = .faulty progress.parts fault := by
      rw [Text.reading, items, Progress.read_append fit]
      rfl
    rw [reading, Reading.evaluate, Progress.evaluateAll_parts, bind_assoc] at evaluated
    -- At the fault only the operands in front of operators have been evaluated.
    cases waiting : progress.evaluate calculator.values with
    | mk outcome after =>
      cases outcome with
      | ok values =>
        rw [Action.apply_bind_of_ok waiting] at evaluated
        exact .inl (congrArg Prod.fst evaluated).symm
      | error other =>
        have same := (Action.apply_bind_of_error waiting).symm.trans evaluated
        obtain ⟨sentence, op, later, tree, rfl, derived, failed⟩ :=
          (Progress.reached_of_behind fit).sentence_of_error waiting
        have failure : result.1 = .error other := (congrArg Prod.fst same).symm
        refine .inr ⟨sentence, op, later, tree, other, rfl, derived, ?_, failure⟩
        rw [failed, same, failure]

theorem evaluateExpression_fault_behind_zero :
    let result := evaluateExpression "i++ / 0@".toList ⟨⟨[(['i'], 4)], by simp⟩, .empty⟩
    result.1 = .error (.reading (.unexpectedCharacter '@')) ∧
      result.2.values.entries = [(['i'], 5)] := by
  intro result
  have scanned : Text.items "i++ / 0@".toList =
      ([.name ['i'], .stepAfter .increment, .operator .divide, .number ['0']] : List Token).map
        .ok ++ [.error (.unexpectedCharacter '@')] :=
    Text.items_eq _
  have viable : Viable [.name ['i'], .stepAfter .increment, .operator .divide, .number ['0']] :=
    viable_iff.2 ⟨_, rfl⟩
  have before {sentence later : List Token} {op : Operator} (cut :
      [.name ['i'], .stepAfter .increment, .operator .divide, .number ['0']] =
        sentence ++ .operator op :: later) :
      sentence = [.name ['i'], .stepAfter .increment] := by
    rcases sentence with _ | ⟨first, _ | ⟨second, _ | ⟨third, rest⟩⟩⟩
    · cases cut
    · cases cut
    · cases cut
      rfl
    · cases rest with
      | nil => cases cut
      | cons fourth rest =>
        have lengths := congrArg List.length cut
        simp only [List.length_cons, List.length_append, List.length_nil] at lengths
        omega
  obtain ⟨interrupted, reported⟩ := evaluateExpression_lexical_fault "i++ / 0@".toList
    ⟨⟨[(['i'], 4)], by simp⟩, .empty⟩
  have failed : result.1 = .error (.reading (.unexpectedCharacter '@')) := by
    rcases reported _ _ _ scanned viable with here | ⟨sentence, op, later, tree, other, cut,
      derived, fault, -⟩
    · exact here
    · rw [before cut] at derived
      cases derived.unique (.operand (.operand (.stepAfter ['i'] .increment)))
      cases fault
  refine ⟨failed, ?_⟩
  obtain ⟨tokens, rest, items, -, kept⟩ := interrupted (.unexpectedCharacter '@') trivial failed
  obtain ⟨rfl, -, -⟩ := items_eq_iff_of_error.1 (scanned.symm.trans items)
  exact congrArg Variables.entries kept

end Calculator

end LineCalculator
