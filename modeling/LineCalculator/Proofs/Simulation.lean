import LineCalculator.Proofs.Reading

/-! Evaluating while reading comes to the same as reading first and evaluating then. -/

namespace LineCalculator

inductive Reading.Result : Reading → Variables → Except Fault Int × Run → Prop
  | value {tree : Tree} {rest : List Item} {start : Variables} {value : Int} {last : Run}
    (evaluated : tree.evaluate start = (.ok value, last.values))
    (left : last.cursor.items = rest) : Result (.whole tree rest) start (.ok value, last)
  | refused {parts : List Tree} {token : Token} {rest : List Item} {start : Variables}
    {last : Run} (evaluated : Tree.evaluateAll parts start = (.ok (), last.values))
    (left : last.cursor.items = rest) :
    Result (.refused parts token rest) start
      (.error (.reading (.unexpectedToken token.text)), last)
  | faulty {parts : List Tree} {fault : ReadingFault} {start : Variables} {last : Run}
    (evaluated : Tree.evaluateAll parts start = (.ok (), last.values)) :
    Result (.faulty parts fault) start (.error (.reading fault), last)
  | failed {reading : Reading} {start : Variables} {fault : Fault} {last : Run}
    (evaluated : Tree.evaluateAll reading.trees start = (.error fault, last.values)) :
    Result reading start (.error fault, last)

namespace Run

theorem chain_of_belongs {belongs : Operator → Bool} {operand : Operand} {value : Int} {run : Run}
    {op : Operator} (current : run.cursor.current = .operator op) (here : belongs op = true) :
    chain belongs operand value run =
      (advance >>= fun _ => operand.evaluate >>= fun right =>
        .ofExcept ((op.apply value right).mapError .arithmetic) >>= fun result =>
          chain belongs operand result : Action Run Fault Int) run := by
  rw [chain]
  split
  · next known found =>
    cases found.symm.trans current
    rw [if_pos here]
    split
    · next token behind moved =>
      rw [Action.apply_bind_of_ok moved]
      split
      · next right last evaluated =>
        rw [Action.apply_bind_of_ok evaluated]
        cases op.apply value right <;> rfl
      · next fault last failed => exact (Action.apply_bind_of_error failed).symm
    · next fault last failed => exact (Action.apply_bind_of_error failed).symm
  · next other => exact absurd current (other op)

theorem chain_of_ends {belongs : Operator → Bool} {operand : Operand} {value : Int} {run : Run}
    (ends : ∀ op, run.cursor.current = .operator op → belongs op = false) :
    chain belongs operand value run = (.ok value, run) := by
  rw [chain]
  split
  · next op found => simp [ends op found]
  · rfl

theorem belongs_or_ends (belongs : Operator → Bool) (run : Run) :
    (∃ op, run.cursor.current = .operator op ∧ belongs op = true) ∨
      ∀ op, run.cursor.current = .operator op → belongs op = false := by
  by_cases goes : ∃ op, run.cursor.current = .operator op ∧ belongs op = true
  · exact .inl goes
  · exact .inr fun op current => Bool.eq_false_iff.2 fun here => goes ⟨op, current, here⟩

theorem factor_of_sign {run : Run} (current : run.cursor.current = .operator .subtract) :
    factor run = (advance >>= fun _ => factor >>= fun value =>
      .ofExcept ((negate value).mapError .arithmetic) : Action Run Fault Int) run := by
  rw [factor]
  split <;> try simp_all
  split
  · next token behind moved =>
    rw [Action.apply_bind_of_ok moved]
    split
    · next value last evaluated => rw [Action.apply_bind_of_ok evaluated]; rfl
    · next fault last failed => exact (Action.apply_bind_of_error failed).symm
  · next fault last failed => exact (Action.apply_bind_of_error failed).symm

theorem factor_of_number {run : Run} {digits : Text}
    (current : run.cursor.current = .number digits) : factor run = literal digits run := by
  rw [factor]
  split <;> simp_all

theorem factor_of_stepBefore {run : Run} {step : Step}
    (current : run.cursor.current = .stepBefore step) : factor run = stepThenRead step run := by
  rw [factor]
  split <;> simp_all

theorem factor_of_name {run : Run} {name : Text}
    (current : run.cursor.current = .name name) : factor run = readThenStep name run := by
  rw [factor]
  split <;> simp_all

/-- The rest of an expression behind a factor with this value, when other values wait. -/
def afterFactor (waiting : Option (Int × Operator) × Option (Int × Operator)) (signs : Nat)
    (value : Int) : Action Run Fault Int := do
  let value ← .ofExcept (Progress.termValue waiting.2 signs value)
  let value ← chain Operator.inProduct factorOperand value
  let value ← .ofExcept (Progress.joinedValue waiting.1 value)
  chain Operator.inSum termOperand value

def fromFactor (waiting : Option (Int × Operator) × Option (Int × Operator)) (signs : Nat) :
    Action Run Fault Int := do
  afterFactor waiting signs (← factor)

theorem expression_eq_fromFactor : expression = fromFactor (none, none) 0 := by
  rw [expression, term, bind_assoc]
  rfl

theorem afterFactor_of_ends {waiting : Option (Int × Operator) × Option (Int × Operator)}
    {signs : Nat} {value : Int} {run : Run}
    (ends : ∀ op, run.cursor.current ≠ .operator op) :
    afterFactor waiting signs value run =
      (Progress.termValue waiting.2 signs value >>= Progress.joinedValue waiting.1, run) := by
  have product (value : Int) : chain Operator.inProduct factorOperand value run = (.ok value, run) :=
    chain_of_ends fun op found => absurd found (ends op)
  have sum (value : Int) : chain Operator.inSum termOperand value run = (.ok value, run) :=
    chain_of_ends fun op found => absurd found (ends op)
  rw [afterFactor]
  cases Progress.termValue waiting.2 signs value with
  | error fault => rfl
  | ok value =>
    rw [Action.ofExcept_ok, pure_bind, Action.apply_bind_of_ok (product value)]
    change _ = (Progress.joinedValue waiting.1 value, run)
    cases Progress.joinedValue waiting.1 value with
    | error fault => rfl
    | ok value => rw [Action.ofExcept_ok, pure_bind, sum value]

theorem afterFactor_of_operator {waiting : Option (Int × Operator) × Option (Int × Operator)}
    {signs : Nat} {value : Int} {run : Run} {op : Operator}
    (current : run.cursor.current = .operator op) :
    afterFactor waiting signs value run =
      (.ofExcept (Progress.behindValue waiting.1 waiting.2 signs op value) >>= fun waiting =>
        advance >>= fun _ => fromFactor waiting 0 : Action Run Fault Int) run := by
  rw [afterFactor, Progress.behindValue]
  cases Progress.termValue waiting.2 signs value with
  | error fault => rfl
  | ok value =>
    change _ = (Action.ofExcept (if op.inProduct then _ else _) >>= _ : Action Run Fault Int) run
    rw [Action.ofExcept_ok, pure_bind]
    by_cases here : op.inProduct = true
    · rw [Action.apply_bind_congr (chain_of_belongs current here), if_pos here]
      simp only [bind_assoc]
      rfl
    · have ends : chain Operator.inProduct factorOperand value run = (.ok value, run) :=
        chain_of_ends fun known found => by
          cases found.symm.trans current
          simpa using here
      have belongs : op.inSum = true := by simpa [Operator.inSum] using here
      rw [Action.apply_bind_of_ok ends, if_neg here]
      cases Progress.joinedValue waiting.1 value with
      | error fault => rfl
      | ok value =>
        rw [Action.ofExcept_ok, pure_bind, chain_of_belongs current belongs]
        change _ = (advance >>= fun _ => fromFactor (some (value, op), none) 0 :
          Action Run Fault Int) run
        simp only [termOperand, term, bind_assoc]
        rfl

theorem fromFactor_of_sign {waiting : Option (Int × Operator) × Option (Int × Operator)}
    {signs : Nat} {run : Run} (current : run.cursor.current = .operator .subtract) :
    fromFactor waiting signs run =
      (advance >>= fun _ => fromFactor waiting (signs + 1) : Action Run Fault Int) run := by
  have later (value : Int) : afterFactor waiting (signs + 1) value =
      .ofExcept ((negate value).mapError .arithmetic) >>= afterFactor waiting signs := by
    have term : Progress.termValue waiting.2 (signs + 1) value =
        (negate value).mapError .arithmetic >>= Progress.termValue waiting.2 signs :=
      bind_assoc ..
    simp only [afterFactor, term, Action.ofExcept_bind, bind_assoc]
    rfl
  rw [fromFactor, Action.apply_bind_congr (factor_of_sign current)]
  simp only [fromFactor, later, bind_assoc]

theorem takeStep_before (step : Step) (name : Text) (run : Run) :
    ∃ result last, takeStep .before step name run = (result, last) ∧ last.cursor = run.cursor ∧
      (Tree.stepped .before step name).evaluate run.values = (result, last.values) := by
  rw [Tree.evaluate_stepped, takeStep]
  cases step.operator.apply (run.values.get name) 1 with
  | ok new => exact ⟨_, _, rfl, rfl, rfl⟩
  | error fault => exact ⟨_, _, rfl, rfl, rfl⟩

theorem takeStep_after (step : Step) (name : Text) (run : Run) :
    ∃ result last, (takeStep .after step name >>= fun _ => pure (run.values.get name) :
      Action Run Fault Int) run = (result, last) ∧ last.cursor = run.cursor ∧
      (Tree.stepped .after step name).evaluate run.values = (result, last.values) := by
  rw [Tree.evaluate_stepped, Action.apply_bind, takeStep]
  cases step.operator.apply (run.values.get name) 1 with
  | ok new => exact ⟨_, _, rfl, rfl, rfl⟩
  | error fault => exact ⟨_, _, rfl, rfl, rfl⟩

end Run

namespace Progress

theorem evaluate_congr {progress other : Progress} (sum : other.sum = progress.sum)
    (product : other.product = progress.product) : other.evaluate = progress.evaluate := by
  rw [evaluate, evaluate, sum, product]

theorem read_of_misfit {progress : Progress} {cursor : Cursor}
    (misfit : progress.next cursor.current = none) :
    progress.read cursor.items = progress.ended cursor.current cursor.items := by
  rw [Cursor.items]
  split
  · next last => rw [read, last]
  · rw [read, misfit]

theorem evaluateAll_read_of_error {progress : Progress} {start after : Variables} {fault : Fault}
    (failed : progress.evaluate start = (.error fault, after)) (items : List Item) :
    Tree.evaluateAll (progress.read items).trees start = (.error fault, after) := by
  have parts {progress : Progress} (failed : progress.evaluate start = (.error fault, after)) :
      Tree.evaluateAll progress.parts start = (.error fault, after) := by
    rw [evaluateAll_parts, Action.apply_bind_of_error failed]
  have ended {progress : Progress} (failed : progress.evaluate start = (.error fault, after))
      (token : Token) (rest : List Item) :
      Tree.evaluateAll (progress.ended token rest).trees start = (.error fault, after) := by
    rw [Progress.ended, tree?]
    cases progress.place.tree? with
    | none => exact parts failed
    | some factor =>
      refine Action.apply_bind_of_error ?_
      rw [evaluate_expression, Action.apply_bind_of_error failed]
  induction items generalizing progress with
  | nil => exact ended failed _ _
  | cons item rest ih =>
    cases item with
    | error found => exact parts failed
    | ok token =>
      rw [read]
      split
      · next following fits =>
        refine ih ?_
        rcases next_cases fits with ⟨sum, product⟩ | ⟨factor, op, rfl, finished, rfl⟩
        · rw [evaluate_congr sum product, failed]
        · rw [evaluate_behindFactor, Action.apply_bind_of_error failed]
      · exact ended failed _ _

end Progress

namespace Run

open Reading

theorem result_of_advance {progress following : Progress} {token : Token} {rest : List Item}
    {run : Run} {start : Variables}
    {waiting : Option (Int × Operator) × Option (Int × Operator)} {next : Action Run Fault Int}
    (here : run.cursor.items = .ok token :: rest) (fits : progress.next token = some following)
    (evaluated : following.evaluate start = (.ok waiting, run.values))
    (ahead : ∀ behind : Run, behind.cursor.items = rest → behind.values = run.values →
      Result (following.read rest) start (next behind)) :
    Result (progress.read (.ok token :: rest)) start ((advance >>= fun _ => next) run) := by
  rw [Progress.read, fits]
  rcases advance_cases here with ⟨fault, later, last, rfl, failed, kept⟩ | ⟨behind, moved, kept, left⟩
  · rw [Action.apply_bind_of_error failed]
    exact .faulty (kept ▸ Progress.evaluateAll_parts_of_ok evaluated)
  · rw [Action.apply_bind_of_ok moved]
    exact ahead behind left kept

/-- Going on at a factor does what the reading of the items from there says. -/
def Simulated (items : List Item) : Prop :=
  ∀ (progress : Progress) (start : Variables) (run : Run)
    (waiting : Option (Int × Operator) × Option (Int × Operator)),
    progress.place = .operand → run.cursor.items = items →
    progress.evaluate start = (.ok waiting, run.values) →
    Result (progress.read items) start (fromFactor waiting progress.signs run)

section Finished

variable {progress : Progress} {factor : Tree} (finished : progress.place.tree? = some factor)
  {run : Run} {start middle : Variables}
  {waiting : Option (Int × Operator) × Option (Int × Operator)}
  (evaluated : progress.evaluate start = (.ok waiting, middle)) {result : Except Fault Int}
  (factored : factor.evaluate middle = (result, run.values))

include finished evaluated factored

theorem result_of_operator {op : Operator} {rest : List Item} (continued : Simulated rest)
    (here : run.cursor.items = .ok (.operator op) :: rest) :
    Result (progress.read (.ok (.operator op) :: rest)) start
      ((.ofExcept result >>= afterFactor waiting progress.signs : Action Run Fault Int) run) := by
  have values : (progress.behindFactor factor op).evaluate start =
      (result >>= Progress.behindValue waiting.1 waiting.2 progress.signs op, run.values) := by
    rw [Progress.evaluate_behindFactor, Action.apply_bind_of_ok evaluated, Action.apply_bind,
      factored]
    cases result <;> rfl
  have steps : (.ofExcept result >>= afterFactor waiting progress.signs : Action Run Fault Int)
      run = (.ofExcept (result >>= Progress.behindValue waiting.1 waiting.2 progress.signs op) >>=
        fun waiting => advance >>= fun _ => fromFactor waiting 0 : Action Run Fault Int) run := by
    cases result with
    | error fault => rfl
    | ok value => exact afterFactor_of_operator (Cursor.current_of_items_cons here)
  rw [steps]
  cases joined : result >>= Progress.behindValue waiting.1 waiting.2 progress.signs op with
  | error fault =>
    rw [joined] at values
    refine .failed ?_
    rw [Progress.read, Progress.next_operator finished]
    exact Progress.evaluateAll_read_of_error values _
  | ok waiting =>
    rw [joined] at values
    refine result_of_advance here (Progress.next_operator finished op) values ?_
    intro behind left kept
    rw [← kept] at values
    simpa using continued _ start behind waiting (by simp) left values

theorem result_of_end (ends : ∀ op, run.cursor.current ≠ .operator op)
    (misfit : progress.next run.cursor.current = none) :
    Result (progress.read run.cursor.items) start
      ((.ofExcept result >>= afterFactor waiting progress.signs : Action Run Fault Int) run) := by
  have value : (progress.expression factor).evaluate start = (result >>= fun value =>
      Progress.termValue waiting.2 progress.signs value >>= Progress.joinedValue waiting.1,
      run.values) := by
    rw [Progress.evaluate_expression, Action.apply_bind_of_ok evaluated, Action.apply_bind,
      factored]
    cases result <;> rfl
  have steps : (.ofExcept result >>= afterFactor waiting progress.signs : Action Run Fault Int)
      run = (result >>= fun value =>
        Progress.termValue waiting.2 progress.signs value >>= Progress.joinedValue waiting.1,
        run) := by
    cases result with
    | error fault => rfl
    | ok value => exact afterFactor_of_ends ends
  have tree : progress.tree? = some (progress.expression factor) := by
    rw [Progress.tree?, finished, Option.map_some]
  rw [steps, Progress.read_of_misfit misfit, Progress.ended, tree]
  generalize (result >>= fun value =>
    Progress.termValue waiting.2 progress.signs value >>= Progress.joinedValue waiting.1) = outcome
    at value
  cases outcome with
  | ok final => exact .value value rfl
  | error fault => exact .failed (Action.apply_bind_of_error value)

end Finished

theorem result_of_finished {items : List Item}
    (shorter : ∀ rest : List Item, rest.length < items.length → Simulated rest)
    (progress : Progress) {factor : Tree} (finished : progress.place.tree? = some factor)
    {run : Run} (here : run.cursor.items = items)
    (untouched : ∀ following, progress.next run.cursor.current = some following →
      ∃ op, run.cursor.current = .operator op)
    {start middle : Variables} {waiting : Option (Int × Operator) × Option (Int × Operator)}
    (evaluated : progress.evaluate start = (.ok waiting, middle)) {result : Except Fault Int}
    (factored : factor.evaluate middle = (result, run.values)) :
    Result (progress.read items) start
      ((.ofExcept result >>= afterFactor waiting progress.signs : Action Run Fault Int) run) := by
  subst here
  by_cases operator : ∃ op, run.cursor.current = .operator op
  · obtain ⟨op, current⟩ := operator
    have items : run.cursor.items = .ok (.operator op) :: run.cursor.unread.items := by
      rw [Cursor.items_of_inside (by simp [current]), current]
    rw [items] at shorter ⊢
    exact result_of_operator finished evaluated factored (shorter _ (by simp)) items
  · have misfit : progress.next run.cursor.current = none := by
      cases fits : progress.next run.cursor.current with
      | none => rfl
      | some following => exact absurd (untouched following fits) operator
    exact result_of_end finished evaluated factored (fun op current => operator ⟨op, current⟩) misfit

theorem factor_of_misfit {run : Run} {progress : Progress} (fresh : progress.place = .operand)
    (misfit : progress.next run.cursor.current = none) : factor run = refuse run := by
  obtain ⟨sum, product, signs, place⟩ := progress
  cases fresh
  rw [factor]
  split <;> simp_all [Progress.next]

section Factors

variable {rest : List Item}
  (shorter : ∀ later : List Item, later.length < rest.length + 1 → Simulated later)
  {progress : Progress} (fresh : progress.place = .operand) {run : Run} {start : Variables}
  {waiting : Option (Int × Operator) × Option (Int × Operator)}
  (evaluated : progress.evaluate start = (.ok waiting, run.values))

include shorter fresh evaluated

theorem result_sign (here : run.cursor.items = .ok (.operator .subtract) :: rest) :
    Result (progress.read (.ok (.operator .subtract) :: rest)) start
      (fromFactor waiting progress.signs run) := by
  obtain ⟨sum, product, signs, place⟩ := progress
  cases fresh
  rw [fromFactor_of_sign (Cursor.current_of_items_cons here)]
  refine result_of_advance here rfl evaluated ?_
  intro behind left kept
  exact shorter rest (by simp) ⟨sum, product, signs + 1, .operand⟩ start behind waiting rfl left
    (kept ▸ evaluated)

theorem result_literal {digits : Text} (here : run.cursor.items = .ok (.number digits) :: rest) :
    Result (progress.read (.ok (.number digits) :: rest)) start
      (fromFactor waiting progress.signs run) := by
  obtain ⟨sum, product, signs, place⟩ := progress
  cases fresh
  rw [fromFactor, Action.apply_bind_congr (factor_of_number (Cursor.current_of_items_cons here)),
    literal, bind_assoc]
  refine result_of_advance here rfl evaluated ?_
  intro behind left kept
  refine result_of_finished (fun later less => shorter later (by omega))
    ⟨sum, product, signs, .complete (.literal digits)⟩ rfl left
    (fun _ => Progress.next_of_complete rfl) evaluated ?_
  rw [kept]
  rfl

theorem result_stepBefore {step : Step} (here : run.cursor.items = .ok (.stepBefore step) :: rest) :
    Result (progress.read (.ok (.stepBefore step) :: rest)) start
      (fromFactor waiting progress.signs run) := by
  obtain ⟨sum, product, signs, place⟩ := progress
  cases fresh
  rw [fromFactor, Action.apply_bind_congr (factor_of_stepBefore (Cursor.current_of_items_cons here)),
    stepThenRead, bind_assoc]
  refine result_of_advance here rfl evaluated ?_
  intro behind left kept
  rw [← kept] at evaluated
  rw [Action.apply_bind_congr (Action.apply_bind_of_ok (Action.apply_get behind))]
  by_cases named : ∃ name, behind.cursor.current = .name name
  · obtain ⟨name, current⟩ := named
    have items := left.symm.trans (Cursor.items_of_inside (by simp [current]))
    subst items
    rw [current] at left ⊢
    simp only [bind_assoc]
    refine result_of_advance left rfl evaluated ?_
    intro final later same
    obtain ⟨result, last, taken, cursor, value⟩ := takeStep_before step name final
    rw [Action.apply_bind_eq_ofExcept_bind taken]
    exact result_of_finished (fun later less => shorter later (by simp; omega))
      ⟨sum, product, signs, .complete (.stepped .before step name)⟩ rfl (cursor ▸ later)
      (fun _ => Progress.next_of_complete rfl) (same ▸ evaluated) value
  · have misfit : Progress.next ⟨sum, product, signs, .behindStep step⟩ behind.cursor.current =
        none := by
      cases current : behind.cursor.current with
      | name name => exact absurd ⟨name, current⟩ named
      | _ => rfl
    rw [← left, Progress.read_of_misfit misfit]
    split
    · next name current => exact absurd ⟨name, current⟩ named
    · exact .refused (Progress.evaluateAll_parts_of_ok evaluated) rfl

theorem result_name {name : Text} (here : run.cursor.items = .ok (.name name) :: rest) :
    Result (progress.read (.ok (.name name) :: rest)) start
      (fromFactor waiting progress.signs run) := by
  obtain ⟨sum, product, signs, place⟩ := progress
  cases fresh
  rw [fromFactor, Action.apply_bind_congr (factor_of_name (Cursor.current_of_items_cons here)),
    readThenStep, bind_assoc]
  refine result_of_advance here rfl evaluated ?_
  intro behind left kept
  rw [← kept] at evaluated
  rw [Action.apply_bind_congr (Action.apply_bind_of_ok (Action.apply_get behind))]
  -- Whether there is a step is known when the token behind the name has been read.
  by_cases touched : ∃ step, behind.cursor.current = .stepAfter step
  · obtain ⟨step, current⟩ := touched
    have items := left.symm.trans (Cursor.items_of_inside (by simp [current]))
    subst items
    rw [current] at left ⊢
    rw [bind_assoc]
    refine result_of_advance left rfl evaluated ?_
    intro final later same
    obtain ⟨result, last, taken, cursor, value⟩ := takeStep_after step name final
    rw [← same, Action.apply_bind_eq_ofExcept_bind taken]
    exact result_of_finished (fun later less => shorter later (by simp; omega))
      ⟨sum, product, signs, .complete (.stepped .after step name)⟩ rfl (cursor ▸ later)
      (fun _ => Progress.next_of_complete rfl) (same ▸ evaluated) value
  · have untouched (following : Progress)
        (fits : Progress.next ⟨sum, product, signs, .behindName name⟩ behind.cursor.current =
          some following) : ∃ op, behind.cursor.current = .operator op := by
      cases current : behind.cursor.current with
      | operator op => exact ⟨op, rfl⟩
      | stepAfter step => exact absurd ⟨step, current⟩ touched
      | _ => rw [current] at fits; cases fits
    split
    · next step current => exact absurd ⟨step, current⟩ touched
    · exact result_of_finished (fun later less => shorter later (by omega))
        ⟨sum, product, signs, .behindName name⟩ rfl left untouched evaluated rfl

end Factors

theorem simulated (items : List Item) : Simulated items := by
  -- The rest behind a factor has fewer items, but how many fewer depends on the factor.
  induction length : items.length using Nat.strongRecOn generalizing items with
  | ind n ih =>
    subst length
    intro progress start run waiting fresh here evaluated
    cases fits : progress.next run.cursor.current with
    | none =>
      have unfinished : progress.tree? = none := by rw [Progress.tree?, fresh]; rfl
      rw [fromFactor, Action.apply_bind_congr (factor_of_misfit fresh fits), ← here,
        Progress.read_of_misfit fits, Progress.ended, unfinished]
      exact .refused (Progress.evaluateAll_parts_of_ok evaluated) rfl
    | some following =>
      have inside : run.cursor.current ≠ .finish := by
        intro last
        rw [last, Progress.next.eq_def, fresh] at fits
        cases fits
      have items := here.symm.trans (Cursor.items_of_inside inside)
      subst items
      have shorter (later : List Item) (less : later.length < run.cursor.unread.items.length + 1) :
          Simulated later :=
        ih later.length less later rfl
      rw [Progress.next.eq_def, fresh] at fits
      cases current : run.cursor.current with
      | operator op =>
        cases op with
        | subtract => exact result_sign shorter fresh evaluated (current ▸ here)
        | _ => rw [current] at fits; cases fits
      | number digits => exact result_literal shorter fresh evaluated (current ▸ here)
      | stepBefore step => exact result_stepBefore shorter fresh evaluated (current ▸ here)
      | name name => exact result_name shorter fresh evaluated (current ▸ here)
      | _ => rw [current] at fits; cases fits

theorem result_expression (run : Run) :
    Result (Progress.read {} run.cursor.items) run.values (expression run) := by
  rw [expression_eq_fromFactor]
  exact simulated _ {} _ _ _ rfl rfl rfl

end Run

end LineCalculator
