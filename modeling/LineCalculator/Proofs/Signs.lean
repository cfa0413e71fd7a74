import LineCalculator.Proofs.Bounded
import LineCalculator.Proofs.Spacing
import Mathlib.Algebra.Group.Nat.Even

/-! Signs in front of a factor. Signs that do not touch are read one by one, and each of them takes
the opposite of what is behind it. Two opposites are the value again, so the number of signs counts
only for whether it is even, and the only value without an opposite fails at the first of them.

The main statement is that signs change the value of a factor in this way and nothing else: what the
factor does to the variables is done once, also when the opposite fails. -/

namespace LineCalculator

open Grammar

/-- A text with a number of signs in front of another. Gaps may stand anywhere before that, and no
sign touches a minus sign behind it. -/
inductive Text.Signed (source : Text) : Nat → Text → Prop
  | plain : Signed source 0 source
  | gap {signs : Nat} {rest : Text} {c : Char} (gap : isGap c = true)
    (later : Signed source signs rest) : Signed source signs (c :: rest)
  | sign {signs : Nat} {rest : Text} (apart : rest.head? ≠ some '-')
    (later : Signed source signs rest) : Signed source (signs + 1) ('-' :: rest)

theorem Text.Signed.items_eq {source text : Text} {signs : Nat}
    (signed : source.Signed signs text) :
    text.items = List.replicate signs (.ok (.operator .subtract)) ++ source.items := by
  induction signed with
  | plain => rfl
  | gap gap later ih => rw [items_gap_cons gap, ih]
  | sign apart later ih => rw [items_sign_cons apart, ih, List.replicate_succ, List.cons_append]

theorem Grammar.Factor.length_changes_le {tokens : List Token} {tree : Tree}
    (factor : Factor tokens tree) : (changes tokens).length ≤ 1 := by
  rw [factor.changes_eq]
  induction factor with
  | literal | read => exact Nat.zero_le 1
  | stepBefore | stepAfter => exact Nat.le_refl 1
  | opposite inner ih => exact ih

namespace Progress

theorem signedValue_eq {value : Int} (inside : InRange value) (signs : Nat) :
    signedValue signs value =
      if 0 < signs ∧ value = minValue then .error (.arithmetic (.negationOverflow minValue))
      else .ok (if Even signs then value else -value) := by
  induction signs generalizing value with
  | zero => rfl
  | succ signs ih =>
    rw [signedValue]
    by_cases least : value = minValue
    · rw [least]
      rfl
    · have fits : InRange (-value) ∧ -value ≠ minValue := by
        simp only [InRange, minValue, maxValue] at inside least ⊢
        omega
      have opposite : negate value = .ok (-value) := if_pos fits.1
      have unlimited : ¬(0 < signs + 1 ∧ value = minValue) := fun limit => least limit.2
      have unlimitedBehind : ¬(0 < signs ∧ -value = minValue) := fun limit => fits.2 limit.2
      rw [opposite, if_neg unlimited]
      change signedValue signs (-value) = _
      rw [ih fits.1, if_neg unlimitedBehind, Int.neg_neg]
      by_cases even : Even signs <;> simp [even, Nat.even_add_one]

end Progress

namespace Calculator

/-- A factor with signs in front of it has the value of the factor if their number is even, and the
opposite if it is odd; only if there are signs at all and the value is the least one, there is no
opposite, and that is the fault. The variables are those that the factor alone leaves, with its step
done once, whether there is an opposite or not. A fault of the factor is the fault of the whole. The
factor may itself begin with a sign or with a decrement. -/
theorem evaluateExpression_negated {source text : Text} {signs : Nat}
    (signed : source.Signed signs text) {tokens : List Token}
    (scanned : source.items = tokens.map .ok) {tree : Tree} (whole : Factor tokens tree)
    {calculator : Calculator} (bounded : calculator.values.Bounded) :
    let alone := evaluateExpression source calculator
    let result := evaluateExpression text calculator
    text.items = List.replicate signs (.ok (.operator .subtract)) ++ source.items ∧
      result.2.values = alone.2.values ∧
      (∀ fault, alone.1 = .error fault → result.1 = .error fault) ∧
      ∀ value, alone.1 = .ok value →
        (result.1 =
          if 0 < signs ∧ value = minValue then .error (.arithmetic (.negationOverflow minValue))
          else .ok (if Even signs then value else -value)) ∧
        result.2.values = calculator.values.changeAll (changes tokens) ∧
        (changes tokens).length ≤ 1 := by
  intro alone result
  have read : text.items = (List.replicate signs (Token.operator .subtract) ++ tokens).map .ok := by
    rw [signed.items_eq, scanned, List.map_append, List.map_replicate]
  have evaluated : tree.evaluate calculator.values = (alone.1, alone.2.values) :=
    evaluate_factor scanned whole calculator
  have together : (Progress.signed signs tree).evaluate calculator.values =
      (result.1, result.2.values) :=
    evaluate_factor read (whole.signed signs) calculator
  -- The factor is evaluated first, with all its changes, and the signs see only its value.
  rw [Progress.evaluate_signed] at together
  refine ⟨signed.items_eq, ?_⟩
  cases outcome : alone.1 with
  | error fault =>
    rw [outcome] at evaluated
    rw [Action.apply_bind_of_error evaluated] at together
    obtain ⟨failed, kept⟩ := Prod.mk.inj together
    refine ⟨kept.symm, fun other same => ?_, fun value done => by cases done⟩
    rw [← failed, same]
  | ok value =>
    rw [outcome] at evaluated
    rw [Action.apply_bind_of_ok evaluated, Action.apply_ofExcept] at together
    obtain ⟨opposite, kept⟩ := Prod.mk.inj together
    have inside : InRange value := inRange_of_evaluateExpression bounded outcome
    have made := Tree.eq_changeAll_of_evaluate evaluated
    refine ⟨kept.symm, fun fault failed => (by cases failed), fun other same => ?_⟩
    cases same
    refine ⟨?_, ?_, whole.length_changes_le⟩
    · rw [← opposite, Progress.signedValue_eq inside]
    · rw [← kept, made, whole.changes_eq]

theorem evaluateExpression_negated_at_least_value :
    let calculator : Calculator := ⟨Variables.empty.set ['x'] (minValue + 1), .empty⟩
    let result := evaluateExpression "- -\t- --x".toList calculator
    result.1 = .error (.arithmetic (.negationOverflow minValue)) ∧
      result.2.values.entries = [(['x'], minValue)] := by
  intro calculator result
  have signed : Text.Signed "--x".toList 3 "- -\t- --x".toList :=
    .sign (by decide) (.gap rfl (.sign (by decide) (.gap rfl (.sign (by decide)
      (.gap rfl .plain)))))
  have scanned : Text.items "--x".toList =
      ([.stepBefore .decrement, .name ['x']] : List Token).map .ok :=
    Text.items_eq _
  have bounded : calculator.values.Bounded :=
    Variables.bounded_empty.set ['x'] (by decide)
  have alone : (evaluateExpression "--x".toList calculator).1 = .ok minValue :=
    (congrArg Prod.fst (evaluate_factor scanned (.stepBefore .decrement ['x']) calculator)).symm
  obtain ⟨-, -, -, done⟩ :=
    evaluateExpression_negated signed scanned (.stepBefore .decrement ['x']) bounded
  obtain ⟨opposite, values, -⟩ := done minValue alone
  exact ⟨opposite, congrArg Variables.entries values⟩

end Calculator

end LineCalculator
