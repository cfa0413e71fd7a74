import LineCalculator.Proofs.Bookkeeping
import LineCalculator.Proofs.Position
import Mathlib.Data.List.Sublists

/-! The steps that wait. They are found together with a name, at most one increment and behind it at
most one decrement, so that there is little that can ever wait: whatever moves were made, the steps
touch the name that is current, or a decrement is left behind the increment that is current.

The main statement is this, and what follows for evaluation: each step behind a variable changes the
variable whose name it touches. -/

namespace LineCalculator

def Text.Touching (source name : Text) (steps : List Step) (after : Text) : Prop :=
  ∃ before, source = before ++ (name ++ (steps.flatMap Step.text ++ after))

namespace Cursor

/-- A place at a name, where the steps that touch the name in the text wait. -/
structure BeforeSteps (source name : Text) (steps : List Step) (cursor : Cursor) : Prop where
  reached : Reached source cursor
  current : cursor.current = .name name
  waiting : cursor.unread.waiting = steps
  touching : source.Touching name steps cursor.unread.text

/-- What can wait: nothing, the steps that touch the current name, or a decrement behind the increment
that is current. -/
inductive Settled (source : Text) : Cursor → Prop
  | free {cursor : Cursor} (none : cursor.unread.waiting = []) : Settled source cursor
  | behindName {name : Text} {steps : List Step} {cursor : Cursor}
    (known : steps.Sublist [.increment, .decrement]) (here : BeforeSteps source name steps cursor) :
    Settled source cursor
  | behindIncrement {name : Text} {earlier : Cursor}
    (there : BeforeSteps source name [.increment, .decrement] earlier) :
    Settled source earlier.advance.2

theorem mem_of_sublist {steps : List Step} (known : steps.Sublist [.increment, .decrement]) :
    steps ∈ [[], [Step.increment], [.decrement], [.increment, .decrement]] :=
  List.mem_sublists.2 known

theorem advance_of_waiting {cursor : Cursor} {step : Step} {later : List Step}
    (waiting : cursor.unread.waiting = step :: later) :
    cursor.advance = (.ok cursor.current, ⟨.stepAfter step, ⟨cursor.unread.text, later⟩⟩) := by
  obtain ⟨current, text, steps⟩ := cursor
  cases waiting
  rfl

theorem settled_advance_of_free {source : Text} {cursor : Cursor}
    (none : cursor.unread.waiting = []) (rest : cursor.unread.remaining <:+ source)
    (reached : Reached source cursor.advance.2) : Settled source cursor.advance.2 := by
  rcases cursor.advance_reads with ⟨token, behind, reads, moved⟩ | ⟨fault, behind, reads, moved⟩
  · rw [moved] at reached ⊢
    rcases reads.waiting_of_none none with still | ⟨name, same, known⟩
    · exact .free still
    · cases same
      obtain ⟨front, split⟩ := rest
      obtain ⟨gaps, -, ahead⟩ := reads.exists_gaps
      refine .behindName known ⟨reached, rfl, rfl, front ++ gaps, ?_⟩
      rw [← split, ahead, List.append_assoc]
      rfl
  · rw [moved]
    rcases reads.waiting_of_none none with still | ⟨name, same, -⟩
    · exact .free still
    · cases same

theorem Reached.settled {source : Text} {cursor : Cursor} (reached : Reached source cursor) :
    Settled source cursor := by
  induction reached with
  | start started =>
    have begun := Reached.start started
    rw [eq_advance_of_start started] at begun ⊢
    exact settled_advance_of_free rfl List.suffix_rfl begun
  | @advance cursor earlier ih =>
    cases ih with
    | free none => exact settled_advance_of_free none earlier.remaining_suffix earlier.advance
    | @behindName name steps _ known here =>
      have listed := mem_of_sublist known
      simp only [List.mem_cons, List.not_mem_nil, or_false] at listed
      rcases listed with rfl | rfl | rfl | rfl
      · exact settled_advance_of_free here.waiting earlier.remaining_suffix earlier.advance
      · rw [advance_of_waiting here.waiting]
        exact .free rfl
      · rw [advance_of_waiting here.waiting]
        exact .free rfl
      · exact .behindIncrement here
    | behindIncrement there =>
      rw [advance_of_waiting there.waiting]
      exact .free rfl

theorem Reached.exists_beforeSteps {source name : Text} {cursor : Cursor} {step : Step}
    (reached : Reached source cursor) (current : cursor.current = .name name)
    (met : cursor.advance.2.current = .stepAfter step) :
    ∃ later, BeforeSteps source name (step :: later) cursor := by
  have waiting : ∃ later, cursor.unread.waiting = step :: later := by
    rcases cursor.advance_reads with ⟨token, behind, reads, moved⟩ | ⟨fault, behind, -, moved⟩
    · rw [moved] at met
      cases met
      exact ⟨behind.waiting, reads.waiting_of_stepAfter⟩
    · rw [moved] at met
      cases current.symm.trans met
  obtain ⟨later, waiting⟩ := waiting
  refine ⟨later, ?_⟩
  cases reached.settled with
  | free none => cases none.symm.trans waiting
  | behindName known here =>
    cases here.current.symm.trans current
    rwa [← waiting, here.waiting]
  | behindIncrement there =>
    rw [advance_of_waiting there.waiting] at current
    cases current

end Cursor

open Cursor (BeforeSteps)

def Event.Touches (source : Text) (event : Event) : Prop :=
  ∀ step name value, event = .stepped .after step name value →
    ∃ later cursor, BeforeSteps source name (step :: later) cursor

theorem Event.touches_tokenRead (source : Text) (token : Token) :
    (tokenRead token).Touches source := by
  rintro step name value ⟨⟩

namespace Run

abbrev RecordsTouching (source : Text) : Run → Option Fault → Run → Prop :=
  OnText source fun before _ after =>
    before.toCalculator.RecordsOnly (Event.Touches source) after.toCalculator

theorem sequential_recordsTouching (source : Text) : Action.Sequential (RecordsTouching source) :=
  OnText.sequential sequential_recordsOnly

theorem ensures_advance_recordsTouching (source : Text) :
    advance.Ensures (RecordsTouching source) :=
  OnText.advance fun run _ => recordsOnly_advance (Event.touches_tokenRead source) run

theorem ensures_takeStep_recordsTouching {source : Text} {side : Side} {step : Step} {name : Text}
    (allow : ∀ value, (Event.stepped side step name value).Touches source) :
    (takeStep side step name).Ensures (RecordsTouching source) := fun run =>
  OnText.still (cursor_takeStep side step name run) (recordsOnly_takeStep allow run)

theorem recordsTouching_readThenStep {source name : Text} {run : Run}
    (current : run.cursor.current = .name name) :
    RecordsTouching source run (Action.fault? (readThenStep name run).1)
      (readThenStep name run).2 := by
  intro reached
  have sequential := sequential_recordsTouching source
  have passed := ensures_advance_recordsTouching source
  refine sequential.bind (passed run) (fun token middle moved => ?_) reached
  refine sequential.bind (sequential.refl middle) fun found here got => ?_
  cases got
  cases met : middle.cursor.current with
  | stepAfter step =>
    -- The step has been found with the name, before this move.
    have cursor := cursor_advance run
    rw [moved] at cursor
    rw [cursor] at met
    obtain ⟨later, own⟩ := reached.exists_beforeSteps current met
    have allow (value : Int) : (Event.stepped .after step name value).Touches source := by
      rintro _ _ _ ⟨⟩
      exact ⟨later, run.cursor, own⟩
    have rest := Action.Ensures.bind sequential passed fun _ =>
      .bind sequential (ensures_takeStep_recordsTouching allow) fun _ =>
        .pure sequential (middle.values.get name)
    exact rest middle
  | _ => exact sequential.refl middle

theorem partwise_recordsTouching (source : Text) : Partwise (RecordsTouching source) where
  toSequential := sequential_recordsTouching source
  advance := ensures_advance_recordsTouching source
  stepBefore step name := ensures_takeStep_recordsTouching fun value => by rintro _ _ _ ⟨⟩
  readThenStep := recordsTouching_readThenStep
  literal {run _} _ :=
    ensures_literal (sequential_recordsTouching source) (ensures_advance_recordsTouching source)
      (fun run => .still rfl (.refl run.toCalculator)) run
  refuse run := .still rfl (.refl run.toCalculator)
  arithmetic run _ := .still rfl (.refl run.toCalculator)

end Run

namespace Calculator

theorem recordsTouching_evaluateExpression (source : Text) (calculator : Calculator) :
    RecordsOnly (Event.Touches source) calculator (evaluateExpression source calculator).2 := by
  rcases (Run.partwise_recordsTouching source).evaluateExpression calculator with
    ⟨fault, behind, -, failed⟩ | ⟨token, first, last, begun, recorded, ended⟩
  · rw [failed]
    exact .refl calculator
  · rw [← ended]
    refine .trans ?_ recorded
    rw [begun]
    exact .recordToken (Event.touches_tokenRead source) calculator token

/-- Whatever moves were made on a text, also moves that failed, at most one increment and one
decrement wait. While some do, no move fails, and they are those that touch the name that is current,
or only the decrement is left behind the increment that is current, and both touch the name before.
So a step that is met behind a name touches the name, and evaluating an expression records all that
it does to variables, with each step behind a variable at a place where the step touches its name. -/
theorem waiting_steps_touch :
    (∀ source cursor, Cursor.Reached source cursor →
      cursor.unread.waiting ∈ [[], [.increment], [.decrement], [.increment, .decrement]] ∧
      (cursor.unread.waiting ≠ [] → cursor.advance.1 = .ok cursor.current ∧
        ((∃ name, BeforeSteps source name cursor.unread.waiting cursor) ∨
          cursor.current = .stepAfter .increment ∧ cursor.unread.waiting = [.decrement] ∧
            ∃ name earlier, BeforeSteps source name [.increment, .decrement] earlier ∧
              earlier.advance.2 = cursor))) ∧
    (∀ source name, ∀ run : Run, Cursor.Reached source run.cursor →
      run.cursor.current = .name name →
      ∀ step, (Run.advance run).2.cursor.current = .stepAfter step →
        ∃ later, BeforeSteps source name (step :: later) run.cursor) ∧
    ∀ source calculator, ∃ events,
      Records events calculator (evaluateExpression source calculator).2 ∧
      ∀ step name value, .stepped .after step name value ∈ events →
        ∃ later cursor, BeforeSteps source name (step :: later) cursor := by
  refine ⟨fun source cursor reached => ?_, fun source name run reached current step met => ?_,
    fun source calculator => ?_⟩
  · have passes (some : cursor.unread.waiting ≠ []) : cursor.advance.1 = .ok cursor.current := by
      obtain ⟨step, later, waiting⟩ := List.exists_cons_of_ne_nil some
      rw [Cursor.advance_of_waiting waiting]
    cases reached.settled with
    | free none => simp [none]
    | behindName known here =>
      have waiting := here.waiting
      exact ⟨waiting ▸ Cursor.mem_of_sublist known,
        fun some => ⟨passes some, .inl ⟨_, waiting ▸ here⟩⟩⟩
    | behindIncrement there =>
      refine ⟨?_, fun some => ⟨passes some, .inr ⟨?_, ?_, _, _, there, rfl⟩⟩⟩ <;>
        rw [Cursor.advance_of_waiting there.waiting]
      simp
  · rw [Run.cursor_advance] at met
    exact reached.exists_beforeSteps current met
  · obtain ⟨events, recorded, touching⟩ := recordsTouching_evaluateExpression source calculator
    exact ⟨events, recorded, fun step name value here => touching _ here step name value rfl⟩

theorem waiting_steps_touch_of_both :
    let source : Text := "2 @ i++-- k".toList
    ∃ cursor, Cursor.Reached source cursor ∧ cursor.current = .name ['i'] ∧
      (∃ name, BeforeSteps source name [.increment, .decrement] cursor) ∧
      cursor.advance.2.advance.1 = .ok (.stepAfter .increment) ∧
      (∃ name earlier, BeforeSteps source name [.increment, .decrement] earlier ∧
        earlier.advance.2 = cursor.advance.2) ∧
      (∃ later, BeforeSteps source ['i'] (.increment :: later) cursor) ∧
      ∃ later cursor, BeforeSteps "i++".toList ['i'] (.increment :: later) cursor := by
  intro source
  obtain ⟨waits, meets, records⟩ := waiting_steps_touch
  let first : Cursor := ⟨.number ['2'], ⟨" @ i++-- k".toList, []⟩⟩
  have started : Cursor.start source = .ok first := by rfl
  have failed : first.advance.1 = .error (.unexpectedCharacter '@') := by rfl
  let cursor := first.advance.2.advance.2
  have reached : Cursor.Reached source cursor := (Cursor.Reached.start started).advance.advance
  have behind := waits source cursor.advance.2 reached.advance
  refine ⟨cursor, reached, rfl, ?_, (behind.2 (by decide)).1, ?_, ?_, ?_⟩
  · rcases ((waits source cursor reached).2 (by decide)).2 with here | ⟨other, -⟩
    · exact here
    · cases other
  · rcases (behind.2 (by decide)).2 with ⟨name, here⟩ | ⟨-, -, both⟩
    · cases here.current
    · exact both
  · exact meets source ['i'] ⟨.new, cursor⟩ reached rfl .increment rfl
  · obtain ⟨events, recorded, touching⟩ := records "i++".toList .new
    let begun : Run := ⟨Calculator.new.recordToken (.name ['i']), ⟨.name ['i'], ⟨[], [.increment]⟩⟩⟩
    have factor : Run.factor begun = Run.readThenStep ['i'] begun := Run.factor_of_name rfl
    have term : Run.term begun = Run.readThenStep ['i'] begun :=
      (Action.apply_bind_of_ok factor).trans (Run.chain_of_ends fun op same => by cases same)
    have whole : Run.expression begun = Run.readThenStep ['i'] begun :=
      (Action.apply_bind_of_ok term).trans (Run.chain_of_ends fun op same => by cases same)
    have evaluated : evaluateExpression "i++".toList .new =
        ((Run.expression begun).1, (Run.expression begun).2.toCalculator) := rfl
    have events : events =
        [.tokenRead (.name ['i']), .stepped .after .increment ['i'] 1] := by
      rw [evaluated, whole] at recorded
      exact recorded.journal.symm
    exact touching .increment ['i'] 1 (by simp [events])

end Calculator

end LineCalculator
