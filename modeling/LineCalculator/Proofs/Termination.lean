import LineCalculator.Proofs.Succession

/-! How much work evaluating takes. The items that are left of a text are the measure: every move
takes one of them off, since none is made from the end, and every round of a loop and every factor
within a factor begins with a move.

To count moves, a run is watched. The watched evaluation is the evaluation with a note for every
move and a bound on its rounds, and the main statement is that, for any number of evaluations on one
text, it comes to the same as the evaluation without both, if the bound is above the number of items.
So every evaluation ends, no move is made from the end, and all the moves together are at most as
many as the items. -/

namespace LineCalculator

namespace Run

def left (run : Run) : Nat :=
  run.cursor.items.length

theorem left_add_one (run : Run) : run.left + 1 = run.cursor.stream.length := by
  rw [left, Cursor.stream, List.length_append, List.length_singleton]

theorem left_advance {run behind : Run} {result : Except Fault Token}
    (moved : advance run = (result, behind)) (inside : run.cursor.current ≠ .finish) :
    behind.left + 1 = run.left := by
  obtain ⟨rest, split, -, further⟩ := Cursor.stream_advance inside
  have cursor := cursor_advance run
  have before := run.left_add_one
  have after := behind.left_add_one
  rw [moved] at cursor
  rw [split] at before
  rw [cursor, further] at after
  simp only [List.length_cons] at before after
  omega

theorem left_advance_lt {run : Run} (inside : run.cursor.current ≠ .finish) :
    (advance run).2.left < run.left :=
  Nat.lt_of_succ_le (Nat.le_of_eq (left_advance rfl inside))

theorem Looks.left_le {α : Type} {action : Action Run Fault α} {run : Run}
    (looks : Looks action run) : (action run).2.left ≤ run.left := by
  obtain ⟨count, moved, -⟩ := looks
  have before := run.left_add_one
  have after := (action run).2.left_add_one
  have length := moved.length_stream
  omega

def round (operand : Operand) (op : Operator) (value : Int) : Action Run Fault Int := do
  let _ ← advance
  let right ← operand.evaluate
  .ofExcept ((op.apply value right).mapError .arithmetic)

/-- A loop goes on only in rounds that leave fewer items than there were when they began. -/
def RoundsShrink (belongs : Operator → Bool) (operand : Operand) : Prop :=
  ∀ value run, chain belongs operand value run = (.ok value, run) ∨
    ∃ op, run.cursor.current = .operator op ∧ belongs op = true ∧
      chain belongs operand value run =
        (round operand op value >>= chain belongs operand : Action Run Fault Int) run ∧
      (round operand op value run).2.left < run.left

theorem left_round_lt {operand : Operand} (each : ∀ run, Looks operand.evaluate run)
    {op : Operator} (value : Int) {run : Run} (current : run.cursor.current = .operator op) :
    (round operand op value run).2.left < run.left := by
  have inside : run.cursor.current ≠ .finish := by simp [current]
  have passed := left_advance_lt inside
  cases moved : advance run with
  | mk result behind =>
    rw [moved] at passed
    cases result with
    | error fault =>
      rw [round, Action.apply_bind_of_error moved]
      exact passed
    | ok token =>
      have operated : Looks (operand.evaluate >>= fun right =>
          Action.ofExcept ((op.apply value right).mapError .arithmetic)) behind :=
        .bind (each behind) fun right last _ => .ofExcept _ last
      rw [round, Action.apply_bind_of_ok moved]
      exact Nat.lt_of_le_of_lt operated.left_le passed

theorem roundsShrink (belongs : Operator → Bool) {operand : Operand}
    (each : ∀ run, Looks operand.evaluate run) : RoundsShrink belongs operand := by
  intro value run
  rcases belongs_or_ends belongs run with ⟨op, current, here⟩ | ends
  · refine .inr ⟨op, current, here, ?_, left_round_lt each value current⟩
    rw [chain_of_belongs current here]
    simp only [round, bind_assoc]
  · exact .inl (chain_of_ends ends)

end Run

inductive Halt where
  | fault (fault : Fault)
  /-- The evaluation was not over after as many rounds as it was allowed. -/
  | exhausted
  deriving DecidableEq, Repr

/-- A run, and the tokens that were current at the moves that were tried so far. -/
structure Watched where
  run : Run
  passed : List Token := []
  deriving DecidableEq, Repr

namespace Watched

def advance : Action Watched Halt Token := fun watched =>
  let moved := Run.advance watched.run
  (moved.1.mapError .fault, ⟨moved.2, watched.passed ++ [watched.run.cursor.current]⟩)

/-- What makes no move is done without a note. Only `advance` moves the cursor. -/
def still {α : Type} (action : Action Run Fault α)
    (_kept : ∀ run, (action run).2.cursor = run.cursor := by simp) :
    Action Watched Halt α := fun watched =>
  let done := action watched.run
  (done.1.mapError .fault, ⟨done.2, watched.passed⟩)

@[simp] theorem apply_still_get (run : Run) (passed : List Token) :
    (still get : Action Watched Halt Run) ⟨run, passed⟩ = (.ok run, ⟨run, passed⟩) := rfl

def literal (digits : Text) : Action Watched Halt Int := do
  let _ ← advance
  still (.ofExcept ((literalValue digits).mapError .reading))

def stepThenRead (step : Step) : Action Watched Halt Int := do
  let _ ← advance
  match (← still get).cursor.current with
  | .name name =>
    let _ ← advance
    still (Run.takeStep .before step name)
  | _ => still Run.refuse

def readThenStep (name : Text) : Action Watched Halt Int := do
  let _ ← advance
  let run ← still get
  match run.cursor.current with
  | .stepAfter step =>
    let _ ← advance
    let _ ← still (Run.takeStep .after step name)
    still (pure (run.values.get name))
  | _ => still (pure (run.values.get name))

def factor : Nat → Action Watched Halt Int
  | 0 => throw .exhausted
  | bound + 1 => do
    match (← still get).cursor.current with
    | .operator .subtract =>
      let _ ← advance
      let value ← factor bound
      still (.ofExcept ((negate value).mapError .arithmetic))
    | .number digits => literal digits
    | .stepBefore step => stepThenRead step
    | .name name => readThenStep name
    | _ => still Run.refuse

def chain (belongs : Operator → Bool) (operand : Action Watched Halt Int) :
    Nat → Int → Action Watched Halt Int
  | 0, _ => throw .exhausted
  | bound + 1, value => do
    match (← still get).cursor.current with
    | .operator op =>
      if belongs op then
        let _ ← advance
        let right ← operand
        let result ← still (.ofExcept ((op.apply value right).mapError .arithmetic))
        chain belongs operand bound result
      else
        still (pure value)
    | _ => still (pure value)

def term (bound : Nat) : Action Watched Halt Int := do
  chain Operator.inProduct (factor bound) bound (← factor bound)

def expression (bound : Nat) : Action Watched Halt Int := do
  chain Operator.inSum (term bound) bound (← term bound)

def behindCalls (bound : Nat) (watched : Watched) : Nat → Watched
  | 0 => watched
  | calls + 1 => (expression bound (watched.behindCalls bound calls)).2

/-- Watched, an action comes to the same, and every token that is noted is one item less; the end is
not among them. -/
def Follows {α : Type} (watching : Action Watched Halt α) (action : Action Run Fault α) (run : Run) :
    Prop :=
  ∃ tokens : List Token, .finish ∉ tokens ∧ tokens.length + (action run).2.left = run.left ∧
    ∀ passed, watching ⟨run, passed⟩ =
      ((action run).1.mapError .fault, ⟨(action run).2, passed ++ tokens⟩)

namespace Follows

variable {α β : Type}

theorem advance {run : Run} (inside : run.cursor.current ≠ .finish) :
    Follows advance Run.advance run := by
  refine ⟨[run.cursor.current], by simpa using inside.symm, ?_, fun passed => rfl⟩
  rw [List.length_singleton, Nat.add_comm]
  exact Run.left_advance rfl inside

theorem still {action : Action Run Fault α}
    (kept : ∀ run, (action run).2.cursor = run.cursor) (run : Run) :
    Follows (still action kept) action run := by
  refine ⟨[], List.not_mem_nil, ?_, fun passed => by rw [List.append_nil]; rfl⟩
  rw [Run.left, kept, List.length_nil, Nat.zero_add, Run.left]

theorem bind {watching : Action Watched Halt α} {first : Action Run Fault α}
    {later : α → Action Watched Halt β} {next : α → Action Run Fault β} {run : Run}
    (start : Follows watching first run)
    (rest : ∀ a middle, first run = (.ok a, middle) → Follows (later a) (next a) middle) :
    Follows (watching >>= later) (first >>= next) run := by
  obtain ⟨tokens, inside, count, same⟩ := start
  cases done : first run with
  | mk result middle =>
    rw [done] at count same
    cases result with
    | error fault =>
      rw [Follows, Action.apply_bind_of_error done]
      exact ⟨tokens, inside, count, fun passed => Action.apply_bind_of_error (same passed)⟩
    | ok a =>
      obtain ⟨more, within, remaining, again⟩ := rest a middle done
      rw [Follows, Action.apply_bind_of_ok done]
      refine ⟨tokens ++ more, by simp [inside, within], ?_, fun passed => ?_⟩
      · rw [List.length_append, Nat.add_assoc, remaining]
        exact count
      · rw [Action.apply_bind_of_ok (same passed), again, List.append_assoc]

theorem congr {watching chosen : Action Watched Halt α} {action other : Action Run Fault α}
    {run : Run} (seen : ∀ passed, watching ⟨run, passed⟩ = chosen ⟨run, passed⟩)
    (same : action run = other run) (follows : Follows chosen other run) :
    Follows watching action run := by
  obtain ⟨tokens, inside, count, again⟩ := follows
  rw [Follows, same]
  exact ⟨tokens, inside, count, fun passed => (seen passed).trans (again passed)⟩

theorem left_le {watching : Action Watched Halt α} {action : Action Run Fault α} {run behind : Run}
    {result : Except Fault α} (follows : Follows watching action run)
    (done : action run = (result, behind)) : behind.left ≤ run.left := by
  obtain ⟨tokens, -, count, -⟩ := follows
  rw [done] at count
  exact Nat.le.intro ((Nat.add_comm _ _).trans count)

theorem literal {run : Run} (digits : Text) (inside : run.cursor.current ≠ .finish) :
    Follows (literal digits) (Run.literal digits) run :=
  bind (advance inside) fun _ behind _ => still _ behind

theorem stepThenRead {run : Run} (step : Step) (inside : run.cursor.current ≠ .finish) :
    Follows (stepThenRead step) (Run.stepThenRead step) run := by
  refine bind (advance inside) fun _ behind _ => bind (still _ behind) fun found here got => ?_
  cases got
  cases current : behind.cursor.current with
  | name name =>
    exact bind (advance (by simp [current])) fun _ final _ => still _ final
  | _ => exact still _ behind

theorem readThenStep {run : Run} (name : Text) (inside : run.cursor.current ≠ .finish) :
    Follows (readThenStep name) (Run.readThenStep name) run := by
  refine bind (advance inside) fun _ behind _ => bind (still _ behind) fun found here got => ?_
  cases got
  cases current : behind.cursor.current with
  | stepAfter step =>
    exact bind (advance (by simp [current])) fun _ final _ =>
      bind (still _ final) fun _ last _ => still _ last
  | _ => exact still _ behind

theorem factor {bound : Nat} {run : Run} (enough : run.left < bound) :
    Follows (factor bound) Run.factor run := by
  have fresh : ({} : Progress).place = .operand := rfl
  induction bound generalizing run with
  | zero => omega
  | succ bound ih =>
    have seen (passed : List Token) : Watched.factor (bound + 1) ⟨run, passed⟩ = _ :=
      Action.apply_bind_of_ok (apply_still_get run passed)
    cases current : run.cursor.current with
    | number digits =>
      rw [current] at seen
      exact congr seen (Run.factor_of_number current) (literal digits (by simp [current]))
    | stepBefore step =>
      rw [current] at seen
      exact congr seen (Run.factor_of_stepBefore current) (stepThenRead step (by simp [current]))
    | name name =>
      rw [current] at seen
      exact congr seen (Run.factor_of_name current) (readThenStep name (by simp [current]))
    | operator op =>
      rw [current] at seen
      cases op with
      | subtract =>
        refine congr seen (Run.factor_of_sign current) ?_
        have inside : run.cursor.current ≠ .finish := by simp [current]
        refine bind (advance inside) fun _ behind moved => ?_
        -- The factor behind the sign begins with one item less, and with a bound less by one.
        have fewer := Run.left_advance moved inside
        exact bind (ih (by omega)) fun value last _ => still _ last
      | add | multiply | divide =>
        exact congr seen (Run.factor_of_misfit fresh (by rw [current]; rfl)) (still _ run)
    | equals | stepAfter _ | finish =>
      rw [current] at seen
      exact congr seen (Run.factor_of_misfit fresh (by rw [current]; rfl)) (still _ run)

theorem chain {belongs : Operator → Bool} {operand : Run.Operand} {watching : Action Watched Halt Int}
    {limit : Nat} (each : ∀ run, run.left < limit → Follows watching operand.evaluate run)
    {bound : Nat} (within : bound ≤ limit) (value : Int) {run : Run} (enough : run.left < bound) :
    Follows (chain belongs watching bound value) (Run.chain belongs operand value) run := by
  induction bound generalizing value run with
  | zero => omega
  | succ bound ih =>
    have seen (passed : List Token) :
        Watched.chain belongs watching (bound + 1) value ⟨run, passed⟩ = _ :=
      Action.apply_bind_of_ok (apply_still_get run passed)
    rcases Run.belongs_or_ends belongs run with ⟨op, current, here⟩ | ends
    · simp only [current, here, if_true] at seen
      refine congr seen (Run.chain_of_belongs current here) ?_
      have inside : run.cursor.current ≠ .finish := by simp [current]
      refine bind (advance inside) fun _ behind moved => ?_
      have fewer := Run.left_advance moved inside
      have operated := each behind (by omega)
      refine bind operated fun right last evaluated => bind (still _ last) ?_
      intro result final given
      have rest := operated.left_le evaluated
      obtain ⟨-, rfl⟩ := Prod.mk.inj given
      -- The round took an item off, so what is left is below the bound of the further rounds.
      exact ih (by omega) result (by omega)
    · have ended : Run.chain belongs operand value run = (pure value : Action Run Fault Int) run :=
        Run.chain_of_ends ends
      refine congr (fun passed => (seen passed).trans ?_) ended (still (fun _ => rfl) run)
      cases current : run.cursor.current with
      | operator op => simp only [ends op current]; rfl
      | _ => rfl

theorem term {bound : Nat} {run : Run} (enough : run.left < bound) :
    Follows (term bound) Run.term run := by
  have first : Follows (Watched.factor bound) Run.factor run := factor enough
  refine bind first fun value behind evaluated => ?_
  have fewer := first.left_le evaluated
  exact chain (fun _ => factor) (Nat.le_refl bound) value (by omega)

theorem expression {bound : Nat} {run : Run} (enough : run.left < bound) :
    Follows (expression bound) Run.expression run := by
  have first : Follows (Watched.term bound) Run.term run := term enough
  refine bind first fun value behind evaluated => ?_
  have fewer := first.left_le evaluated
  exact chain (fun _ => term) (Nat.le_refl bound) value (by omega)

end Follows

theorem follows_behindCalls {bound : Nat} {run : Run} (enough : run.left < bound) (calls : Nat) :
    ∃ tokens, .finish ∉ tokens ∧ tokens.length + (run.behindCalls calls).left = run.left ∧
      behindCalls bound ⟨run, []⟩ calls = ⟨run.behindCalls calls, tokens⟩ := by
  induction calls with
  | zero => exact ⟨[], List.not_mem_nil, Nat.zero_add _, rfl⟩
  | succ calls ih =>
    obtain ⟨tokens, inside, count, same⟩ := ih
    have next : Follows (expression bound) Run.expression (run.behindCalls calls) :=
      .expression (by omega)
    obtain ⟨more, within, fewer, again⟩ := next
    refine ⟨tokens ++ more, by simp [inside, within], ?_, ?_⟩
    · rw [List.length_append, Nat.add_assoc]
      exact fewer ▸ count
    · rw [behindCalls, same, again]
      rfl

end Watched

namespace Run

/-- Any number of evaluations on one text, whatever they come to, are over with a bound above the
number of its items, and they do the same as without it. The tokens that are current at their moves
do not have the end among them, and together with the items left they are as many as the items. Each
round of a loop leaves fewer items than it found, and so does the move in front of a factor within a
factor. -/
theorem evaluation_within_items {source : Text} {calculator : Calculator} {run : Run}
    (started : start calculator source = .ok run) :
    (∀ bound, source.items.length < bound → ∀ calls,
      let watched := Watched.behindCalls bound ⟨run, []⟩ calls
      watched.run = run.behindCalls calls ∧
        (Watched.expression bound watched).1 = (expression watched.run).1.mapError .fault ∧
        .finish ∉ watched.passed ∧
        watched.passed.length + watched.run.left = source.items.length) ∧
      RoundsShrink Operator.inSum termOperand ∧ RoundsShrink Operator.inProduct factorOperand ∧
      ∀ before : Run, before.cursor.current = .operator .subtract →
        factor before = (advance >>= fun _ => factor >>= fun value =>
          .ofExcept ((negate value).mapError .arithmetic) : Action Run Fault Int) before ∧
          (advance before).2.left < before.left := by
  have items : source.items.length = run.left := by
    rcases start_cases calculator source with ⟨fault, rest, -, failed⟩ | ⟨begun, here, -, items⟩
    · cases failed.symm.trans started
    · cases here.symm.trans started
      rw [left, items]
  refine ⟨fun bound enough calls => ?_, roundsShrink _ Looks.term, roundsShrink _ Looks.factor,
    fun before current => ⟨factor_of_sign current, left_advance_lt (by simp [current])⟩⟩
  rw [items] at enough ⊢
  obtain ⟨tokens, inside, count, same⟩ := Watched.follows_behindCalls enough calls
  have next : Watched.Follows (Watched.expression bound) expression (run.behindCalls calls) :=
    .expression (by omega)
  obtain ⟨more, -, -, again⟩ := next
  intro watched
  have here : watched = ⟨run.behindCalls calls, tokens⟩ := same
  rw [here]
  exact ⟨rfl, by rw [again], inside, count⟩

theorem evaluation_within_items_of_faulty :
    let source : Text := "-i++ / 0 @ b_ 1".toList
    ∃ run, start .new source = .ok run ∧ run.left = 8 ∧ (advance run).2.left < run.left ∧
      ∀ calls, let watched := Watched.behindCalls 9 ⟨run, []⟩ calls
        watched.run = run.behindCalls calls ∧ .finish ∉ watched.passed ∧
          watched.passed.length ≤ 8 := by
  intro source
  let cursor : Cursor := ⟨.operator .subtract, ⟨"i++ / 0 @ b_ 1".toList, []⟩⟩
  let run : Run := ⟨Calculator.new.recordToken cursor.current, cursor⟩
  have started : start .new source = .ok run := rfl
  have scanned : source.items.length = 8 := congrArg List.length (Text.items_eq source)
  obtain ⟨watched, -, -, nested⟩ := evaluation_within_items started
  rw [scanned] at watched
  have each := watched 9 (Nat.lt_succ_self 8)
  obtain ⟨-, -, -, first⟩ := each 0
  refine ⟨run, started, (Nat.zero_add _).symm.trans first, (nested run rfl).2, fun calls => ?_⟩
  obtain ⟨same, -, inside, count⟩ := each calls
  exact ⟨same, inside, Nat.le.intro count⟩

end Run

end LineCalculator
