import LineCalculator.Proofs.Commutation
import LineCalculator.Proofs.Written

/-! Compound assignments without compound operators. A new variable holds the value of the
expression, and a second line combines it with the target. The target is read when the expression
has taken its steps, in both ways. -/

namespace LineCalculator

namespace Variables

def without (values : Variables) (name : Text) : Variables where
  entries := values.entries.filter (·.1 ≠ name)
  nodup := values.nodup.sublist ((List.filter_sublist).map _)

theorem without_of_notMem {values : Variables} {name : Text} (absent : name ∉ values.names) :
    values.without name = values := by
  refine Variables.ext (List.filter_eq_self.2 fun entry here => ?_)
  rw [decide_eq_true_eq]
  rintro rfl
  exact absent (List.mem_map_of_mem here)

@[simp] theorem without_set_self (values : Variables) (name : Text) (value : Int) :
    (values.set name value).without name = values.without name := by
  refine Variables.ext ?_
  change (assign name value values.entries).filter _ = values.entries.filter _
  induction values.entries with
  | nil => simp [assign]
  | cons entry later ih =>
    by_cases same : name = entry.1
    · simp [assign, same]
    · rw [assign, if_neg same, List.filter_cons, List.filter_cons, ih]

theorem without_set_of_ne {name other : Text} (apart : other ≠ name) (values : Variables)
    (value : Int) :
    (values.set other value).without name = (values.without name).set other value := by
  refine Variables.ext ?_
  change (assign other value values.entries).filter _ = assign other value (values.entries.filter _)
  induction values.entries with
  | nil => simp [assign, apart]
  | cons entry later ih =>
    by_cases same : other = entry.1
    · simp [assign, ← same, apart]
    · rw [assign, if_neg same, List.filter_cons, List.filter_cons, ih]
      by_cases dropped : entry.1 = name
      · rw [if_neg (by simpa using dropped), if_neg (by simpa using dropped)]
      · rw [if_pos (by simpa using dropped), if_pos (by simpa using dropped), assign, if_neg same]

end Variables

theorem Text.notMem_names_of_evaluate {source : Text} {before after : Variables}
    {result : Except Fault Int} (evaluated : source.reading.evaluate before = (result, after))
    {name : Text} (unmentioned : ¬source.Mentions name) (absent : name ∉ before.names) :
    name ∉ after.names := by
  obtain ⟨consumed, made, leaves, -⟩ := Text.exists_leaves evaluated
  rw [leaves.names_eq, List.mem_append, not_or]
  refine ⟨absent, fun here => ?_⟩
  obtain ⟨change, member, rfl⟩ := List.mem_map.1 (List.mem_filter.1 (List.mem_eraseDups.1 here)).1
  exact unmentioned (Text.mentions_of_steps (leaves.steps_of_mem member))

namespace Text

def combined (left : Text) (op : Operator) (right : Text) : Text :=
  left ++ ([' ', op.symbol, ' '] ++ right)

section Combined

variable {left right : Text} (leftValid : Name.isValid left = true)
  (rightValid : Name.isValid right = true)

include leftValid rightValid

theorem trim_combined (op : Operator) : (combined left op right).trim = combined left op right := by
  have shown : right.trim ≠ [] := by
    rw [trim_name rightValid]
    rintro rfl
    cases rightValid
  rw [combined, trim_name_append leftValid shown, trimEnd_name rightValid]

theorem equals_notMem_combined (op : Operator) : '=' ∉ combined left op right := by
  have named (name : Text) (valid : Name.isValid name = true) : '=' ∉ name :=
    Name.notMem_of_isPart valid (by decide)
  have symbol : '=' ≠ op.symbol := by cases op <;> decide
  simp [combined, named left leftValid, named right rightValid, symbol]

theorem ofLine_trim_combined (op : Operator) :
    Assignment.ofLine (Assignment.text ⟨left, .replace, combined left op right⟩).trim =
      .ok ⟨left, .replace, combined left op right⟩ := by
  let assignment : Assignment := ⟨left, .replace, combined left op right⟩
  have trimmed : assignment.expression.trim = assignment.expression :=
    trim_combined leftValid rightValid op
  have shown : assignment.expression.trim ≠ [] := by
    rw [trimmed]
    simp [assignment, combined]
  have named : Name.isValid assignment.target = true := leftValid
  have read := Assignment.ofLine_trim_text named shown
    (equals_notMem_combined leftValid rightValid op)
  rwa [trimmed] at read

theorem items_combined (op : Operator) : (combined left op right).items =
    [.ok (.name left), .ok (.operator op), .ok (.name right)] := by
  have formed : WellFormed [.name left, .operator op, .name right] := by
    refine ⟨by simp, by simp [Token.WellSpelled, leftValid, rightValid], ?_⟩
    intro earlier step later split
    have member : .stepAfter step ∈ [Token.name left, .operator op, .name right] := by
      rw [split]
      simp
    simp at member
  have written : ' ' :: combined left op right =
      printed [.name left, .operator op, .name right] := by
    simp [combined, printed, Token.printed, Token.text]
  rw [← items_gap_cons (by rfl : isGap ' ' = true) (combined left op right), written,
    formed.items_readBack]
  rfl

theorem evaluate_combined (op : Operator) (values : Variables) :
    (combined left op right).reading.evaluate values =
      ((op.apply (values.get left) (values.get right)).mapError .arithmetic, values) := by
  have whole : (combined left op right).reading =
      .whole (.binary op (.read left) (.read right)) [] := by
    rw [reading, items_combined leftValid rightValid]
    cases op <;> rfl
  rw [whole]
  rfl

end Combined

end Text

namespace Calculator

section Fresh

variable {target fresh expression : Text} {form : AssignmentForm} {op : Operator}
  (compound : form.operator? = some op) (valid : Name.isValid target = true)
  (freshValid : Name.isValid fresh = true) (other : fresh ≠ target) (free : '=' ∉ expression)
  (shown : expression.trim ≠ []) (unmentioned : ¬expression.Mentions fresh)
  (calculator : Calculator) (absent : fresh ∉ calculator.values.names)

include compound valid freshValid other free shown unmentioned absent

theorem compound_cases :
    let direct := evaluate (Assignment.text ⟨target, form, expression⟩) calculator
    let first := evaluate (Assignment.text ⟨fresh, .replace, expression⟩) calculator
    let second :=
      evaluate (Assignment.text ⟨target, .replace, .combined target op fresh⟩) first.2
    (∃ fault, direct.1 = .error fault ∧ first.1 = .error fault ∧
        direct.2.values = first.2.values.without fresh) ∨
      (first.1 = .ok () ∧ direct.1 = second.1 ∧
        direct.2.values = second.2.values.without fresh) := by
  intro direct first second
  have readDirect : Assignment.ofLine (Assignment.text ⟨target, form, expression⟩).trim =
      .ok ⟨target, form, expression.trim⟩ := Assignment.ofLine_trim_text valid shown free
  have readFirst : Assignment.ofLine (Assignment.text ⟨fresh, .replace, expression⟩).trim =
      .ok ⟨fresh, .replace, expression.trim⟩ := Assignment.ofLine_trim_text freshValid shown free
  have readSecond := Text.ofLine_trim_combined valid freshValid op
  cases evaluated : expression.trim.reading.evaluate calculator.values with
  | mk result after =>
    -- The expression does not mention the new variable, so that it is absent until it is set.
    have gone : fresh ∉ after.names := Text.notMem_names_of_evaluate evaluated
      (fun here => unmentioned (Text.mem_items_of_trim here)) absent
    have kept : after.without fresh = after := Variables.without_of_notMem gone
    cases result with
    | error fault =>
      obtain ⟨failed, left⟩ := evaluate_of_fault readDirect evaluated
      obtain ⟨stopped, behind⟩ := evaluate_of_fault readFirst evaluated
      exact .inl ⟨fault, failed, stopped, by rw [left, behind, kept]⟩
    | ok value =>
      obtain ⟨held, behind⟩ := evaluate_of_gives readFirst evaluated rfl
      have holds : first.2.values.get fresh = value := by
        rw [behind, Variables.get_set, if_pos rfl]
      have keeps : first.2.values.get target = after.get target := by
        rw [behind, Variables.get_set, if_neg (Ne.symm other)]
      have combines := Text.evaluate_combined valid freshValid op first.2.values
      rw [keeps, holds] at combines
      refine .inr ⟨held, ?_⟩
      cases applied : op.apply (after.get target) value with
      | ok new =>
        have gives : Assignment.Gives ⟨target, form, expression.trim⟩ after value new := by
          rw [Assignment.Gives, compound]
          exact applied
        obtain ⟨done, left⟩ := evaluate_of_gives readDirect evaluated gives
        rw [applied] at combines
        obtain ⟨again, last⟩ := evaluate_of_gives readSecond combines rfl
        refine ⟨done.trans again.symm, ?_⟩
        rw [left, last, behind, Variables.without_set_of_ne (Ne.symm other),
          Variables.without_set_self, kept]
      | error fault =>
        obtain ⟨failed, left⟩ := evaluate_of_refused readDirect evaluated compound applied
        rw [applied] at combines
        obtain ⟨again, last⟩ := evaluate_of_fault readSecond combines
        refine ⟨failed.trans again.symm, ?_⟩
        rw [left, last, behind, Variables.without_set_self, kept]

end Fresh

/-- A compound assignment is the assignment of its expression to a new variable, and then that of
the target combined with this variable to the target. It succeeds exactly when both lines do, and
otherwise it fails with the fault of the first line that fails. The variables behind it are always
those that the lines leave, in the same order, but for the new one. -/
theorem evaluate_compound {target fresh expression : Text} {form : AssignmentForm} {op : Operator}
    (compound : form.operator? = some op) (valid : Name.isValid target = true)
    (freshValid : Name.isValid fresh = true) (other : fresh ≠ target) (free : '=' ∉ expression)
    (shown : expression.trim ≠ []) (unmentioned : ¬expression.Mentions fresh)
    (calculator : Calculator) (absent : fresh ∉ calculator.values.names) :
    let direct := evaluate (Assignment.text ⟨target, form, expression⟩) calculator
    let first := evaluate (Assignment.text ⟨fresh, .replace, expression⟩) calculator
    let second :=
      evaluate (Assignment.text ⟨target, .replace, .combined target op fresh⟩) first.2
    (direct.1 = .ok () ↔ first.1 = .ok () ∧ second.1 = .ok ()) ∧
      (direct.1 = .ok () → direct.2.values = second.2.values.without fresh) ∧
      ∀ fault, direct.1 = .error fault →
        (first.1 = .error fault ∧ direct.2.values = first.2.values.without fresh) ∨
          (first.1 = .ok () ∧ second.1 = .error fault ∧
            direct.2.values = second.2.values.without fresh) := by
  intro direct first second
  have ways := compound_cases compound valid freshValid other free shown unmentioned calculator
    absent
  rcases ways with ⟨fault, failed, stopped, left⟩ | ⟨held, same, left⟩
  · refine ⟨⟨fun done => ?_, fun both => ?_⟩, fun done => ?_, fun found here => ?_⟩
    · cases done.symm.trans failed
    · cases both.1.symm.trans stopped
    · cases done.symm.trans failed
    · cases here.symm.trans failed
      exact .inl ⟨stopped, left⟩
  · exact ⟨⟨fun done => ⟨held, same.symm.trans done⟩, fun both => same.trans both.2⟩, fun _ => left,
      fun fault failed => .inr ⟨held, same.symm.trans failed, left⟩⟩

theorem evaluate_compound_of_own_step :
    let calculator : Calculator := ⟨⟨[(['i'], 3), (['k'], 0)], by decide⟩, .empty⟩
    let direct := evaluate "i += \u00a0i++ ".toList calculator
    let first := evaluate "t = \u00a0i++ ".toList calculator
    let second := evaluate "i = i + t".toList first.2
    direct.1 = .ok () ∧ direct.2.values.entries = [(['i'], 7), (['k'], 0)] ∧ first.1 = .ok () ∧
      second.1 = .ok () ∧ direct.2.values = second.2.values.without ['t'] := by
  intro calculator direct first second
  have unmentioned : ¬Text.Mentions "\u00a0i++ ".toList ['t'] := by
    rw [Text.Mentions, Text.items_eq]
    decide
  obtain ⟨success, left, -⟩ := evaluate_compound
    (show AssignmentForm.addTo.operator? = some .add from rfl)
    (show Name.isValid ['i'] = true from rfl) (show Name.isValid ['t'] = true from rfl)
    (by decide) (by decide) (by decide) unmentioned calculator (by decide)
  have read : Assignment.ofLine (Text.trim "i += \u00a0i++ ".toList) =
      .ok ⟨['i'], .addTo, "i++".toList⟩ := rfl
  have evaluated : (Text.reading "i++".toList).evaluate calculator.values =
      (.ok 3, calculator.values.set ['i'] 4) := by
    rw [Text.reading, Text.items_eq]
    rfl
  have gives : Assignment.Gives ⟨['i'], .addTo, "i++".toList⟩ (calculator.values.set ['i'] 4) 3 7 :=
    rfl
  obtain ⟨done, set⟩ := evaluate_of_gives read evaluated gives
  have both := success.1 done
  exact ⟨done, congrArg Variables.entries set, both.1, both.2, left done⟩

end Calculator

end LineCalculator
