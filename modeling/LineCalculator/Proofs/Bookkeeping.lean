import LineCalculator.Proofs.Display

/-! What the journal says about the variables. Every time a variable is set, a message says so, and
its words tell the name and the value. So the messages of a calculator make its variables again,
also behind lines that failed. The less detailed messages are those of assignments, one for each
line that succeeds. -/

namespace LineCalculator

def Text.SaysSet (message name : Text) (value : Int) : Prop :=
  message = "assigned ".toList ++ name ++ " = ".toList ++ Decimal.ofInt value ∨
    ∃ side ∈ ["prefix".toList, "postfix".toList], ∃ step ∈ ["++".toList, "--".toList],
      message = side ++ [' '] ++ step ++ " stored ".toList ++ name ++ " = ".toList ++
        Decimal.ofInt value

theorem Text.setting_inj {front name other : Text} {value held : Int}
    (same : front ++ name ++ " = ".toList ++ Decimal.ofInt value =
      front ++ other ++ " = ".toList ++ Decimal.ofInt held) : name = other ∧ value = held := by
  simp only [List.append_assoc, List.append_cancel_left_eq] at same
  -- The last blank character stands in front of the value.
  have backwards := congrArg List.reverse same
  simp only [List.reverse_append, List.append_assoc] at backwards
  have digits (value : Int) : ∀ c ∈ (Decimal.ofInt value).reverse, (c != ' ') = true := by
    intro c member
    rw [bne_iff_ne]
    rintro rfl
    exact Decimal.notMem_ofInt (by decide) (by decide) value (List.mem_reverse.1 member)
  have stops (name : Text) : StopsAt (· != ' ') (" = ".toList.reverse ++ name.reverse) :=
    stopsAt_cons rfl _
  have values := congrArg (List.takeWhile (· != ' ')) backwards
  have names := congrArg (List.dropWhile (· != ' ')) backwards
  rw [takeWhile_of_stopsAt (digits value) (stops name),
    takeWhile_of_stopsAt (digits held) (stops other)] at values
  rw [dropWhile_of_stopsAt (digits value) (stops name),
    dropWhile_of_stopsAt (digits held) (stops other)] at names
  exact ⟨List.reverse_injective (List.append_cancel_left names),
    Decimal.ofInt_injective (List.reverse_injective values)⟩

namespace Event

def write? : Event → Option (Text × Int)
  | stepped _ _ name value | assigned name value => some (name, value)
  | tokenRead _ | lineSkipped | lineStarted _ => none

theorem saysSet_message_iff (event : Event) (name : Text) (value : Int) :
    event.message.SaysSet name value ↔ event.write? = some (name, value) := by
  constructor
  · rintro (assigned | ⟨word, known, sign, signs, stepped⟩)
    · cases event with
      | assigned other held =>
        obtain ⟨rfl, rfl⟩ := Text.setting_inj assigned
        rfl
      | tokenRead token | lineSkipped | lineStarted line => cases assigned
      | stepped side step other held => cases side <;> cases assigned
    · simp only [List.mem_cons, List.not_mem_nil, or_false] at known signs
      cases event with
      | assigned other held => rcases known with rfl | rfl <;> cases stepped
      | tokenRead token | lineSkipped | lineStarted line =>
        rcases known with rfl | rfl <;> cases stepped
      | stepped side step other held =>
        -- The words tell the sides and the signs apart, so that one combination is left for each.
        rcases known with rfl | rfl <;> rcases signs with rfl | rfl <;> cases side <;>
          cases step <;> try cases stepped
        all_goals
          obtain ⟨rfl, rfl⟩ := Text.setting_inj stepped
          rfl
  · intro written
    cases event with
    | assigned other held =>
      cases written
      exact .inl rfl
    | stepped side step other held =>
      cases written
      refine .inr ⟨side.text, ?_, step.text, ?_, rfl⟩
      · cases side <;> decide
      · cases step <;> decide
    | tokenRead token | lineSkipped | lineStarted line => cases written

end Event

namespace Variables

def setAll (values : Variables) (writes : List (Text × Int)) : Variables :=
  writes.foldl (fun values write => values.set write.1 write.2) values

theorem setAll_append (values : Variables) (earlier later : List (Text × Int)) :
    values.setAll (earlier ++ later) = (values.setAll earlier).setAll later :=
  List.foldl_append

/-- What becomes of variables that are set as messages say, one after the other, where messages that
say nothing of the kind are passed over. -/
inductive SetBy : List Text → Variables → Variables → Prop
  | done (values : Variables) : SetBy [] values values
  | set {message name : Text} {value : Int} {later : List Text} {values after : Variables}
    (told : message.SaysSet name value) (rest : SetBy later (values.set name value) after) :
    SetBy (message :: later) values after
  | passed {message : Text} {later : List Text} {values after : Variables}
    (silent : ∀ name value, ¬message.SaysSet name value) (rest : SetBy later values after) :
    SetBy (message :: later) values after

theorem setBy_message_iff (events : List Event) (values after : Variables) :
    SetBy (events.map Event.message) values after ↔
      after = values.setAll (events.filterMap Event.write?) := by
  induction events generalizing values with
  | nil =>
    constructor
    · intro made
      cases made
      rfl
    · rintro rfl
      exact .done _
  | cons event later ih =>
    rw [List.map_cons]
    cases written : event.write? with
    | none =>
      have silent (name : Text) (value : Int) : ¬event.message.SaysSet name value := by
        rw [event.saysSet_message_iff, written]
        simp
      rw [List.filterMap_cons_none written, ← ih]
      constructor
      · intro made
        cases made with
        | set told rest => exact absurd told (silent _ _)
        | passed _ rest => exact rest
      · exact .passed silent
    | some write =>
      have told : event.message.SaysSet write.1 write.2 :=
        (event.saysSet_message_iff _ _).2 written
      rw [List.filterMap_cons_some written]
      change _ ↔ after = (values.set write.1 write.2).setAll _
      rw [← ih]
      constructor
      · intro made
        cases made with
        | set again rest =>
          cases written.symm.trans ((event.saysSet_message_iff _ _).1 again)
          exact rest
        | passed silent rest => exact absurd told (silent _ _)
      · exact .set told

end Variables

namespace Journal

def messages (journal : Journal) (level : Level) : List Text :=
  (journal.upTo level).map Event.message

theorem filterMap_write?_upTo (journal : Journal) :
    (journal.upTo .debug).filterMap Event.write? = journal.events.filterMap Event.write? := by
  rw [upTo, List.filterMap_filter]
  congr 1
  funext event
  cases event <;> rfl

end Journal

namespace Calculator

structure Records (events : List Event) (before after : Calculator) : Prop where
  journal : after.journal.events = before.journal.events ++ events
  values : after.values = before.values.setAll (events.filterMap Event.write?)

namespace Records

theorem refl (calculator : Calculator) : Records [] calculator calculator where
  journal := (List.append_nil _).symm
  values := rfl

theorem trans {first second third : Calculator} {earlier later : List Event}
    (start : Records earlier first second) (rest : Records later second third) :
    Records (earlier ++ later) first third where
  journal := by rw [rest.journal, start.journal, List.append_assoc]
  values := by rw [rest.values, start.values, List.filterMap_append, Variables.setAll_append]

theorem record {event : Event} (silent : event.write? = none) (calculator : Calculator) :
    Records [event] calculator (calculator.record event) where
  journal := Journal.events_record ..
  values := by rw [List.filterMap_cons_none silent]; rfl

theorem set {event : Event} {name : Text} {value : Int}
    (written : event.write? = some (name, value)) (calculator : Calculator) :
    Records [event] calculator
      ({ calculator with values := calculator.values.set name value }.record event) where
  journal := Journal.events_record ..
  values := by rw [List.filterMap_cons_some written]; rfl

end Records

/-- All that was done to the variables is recorded, by events of a kind that is allowed. -/
def RecordsOnly (allowed : Event → Prop) (before after : Calculator) : Prop :=
  ∃ events, Records events before after ∧ ∀ event ∈ events, allowed event

namespace RecordsOnly

variable {allowed : Event → Prop}

theorem refl (calculator : Calculator) : RecordsOnly allowed calculator calculator :=
  ⟨[], .refl calculator, by simp⟩

theorem trans {first second third : Calculator} (start : RecordsOnly allowed first second)
    (rest : RecordsOnly allowed second third) : RecordsOnly allowed first third := by
  obtain ⟨earlier, recorded, some⟩ := start
  obtain ⟨later, further, others⟩ := rest
  exact ⟨earlier ++ later, recorded.trans further, List.forall_mem_append.2 ⟨some, others⟩⟩

theorem recordToken (tokens : ∀ token, allowed (.tokenRead token)) (calculator : Calculator)
    (token : Token) : RecordsOnly allowed calculator (calculator.recordToken token) := by
  rw [Calculator.recordToken]
  cases read : Event.ofToken? token with
  | none => exact refl calculator
  | some event =>
    have same : event = .tokenRead token := by
      rw [Event.ofToken?.eq_def] at read
      split at read <;> cases read
      rfl
    subst same
    exact ⟨_, .record rfl calculator, by simpa using tokens token⟩

theorem set {event : Event} {name : Text} {value : Int} (allow : allowed event)
    (written : event.write? = some (name, value)) (calculator : Calculator) :
    RecordsOnly allowed calculator
      ({ calculator with values := calculator.values.set name value }.record event) :=
  ⟨_, .set written calculator, by simpa using allow⟩

end RecordsOnly

def RecordsSteps (before after : Calculator) : Prop :=
  RecordsOnly (fun event => event.level ≠ .info) before after

end Calculator

namespace Run

section

variable {allowed : Event → Prop}

theorem sequential_recordsOnly : Action.Sequential fun (before : Run) (_ : Option Fault) after =>
    before.toCalculator.RecordsOnly allowed after.toCalculator where
  refl run := .refl run.toCalculator
  trans := Calculator.RecordsOnly.trans

theorem recordsOnly_advance (tokens : ∀ token, allowed (.tokenRead token)) (run : Run) :
    run.toCalculator.RecordsOnly allowed (advance run).2.toCalculator := by
  rw [advance]
  split
  · exact .recordToken tokens run.toCalculator _
  · exact .refl run.toCalculator

theorem recordsOnly_takeStep {side : Side} {step : Step} {name : Text}
    (allow : ∀ value, allowed (.stepped side step name value)) (run : Run) :
    run.toCalculator.RecordsOnly allowed (takeStep side step name run).2.toCalculator := by
  rw [takeStep]
  split
  · exact .set (allow _) rfl run.toCalculator
  · exact .refl run.toCalculator

end

theorem stepwise_recordsSteps : Stepwise fun before _ after =>
    before.toCalculator.RecordsSteps after.toCalculator where
  toSequential := sequential_recordsOnly
  advance := recordsOnly_advance (by simp [Event.level])
  takeStep side step name := recordsOnly_takeStep (by simp [Event.level])
  literal {run _} _ :=
    ensures_literal sequential_recordsOnly (recordsOnly_advance (by simp [Event.level]))
      (fun run => .refl run.toCalculator) run
  refuse run := .refl run.toCalculator
  arithmetic run _ := .refl run.toCalculator

end Run

namespace Calculator

theorem recordsSteps_evaluateExpression (source : Text) (calculator : Calculator) :
    RecordsSteps calculator (evaluateExpression source calculator).2 := by
  rw [evaluateExpression]
  cases started : Run.start calculator source with
  | error fault => exact .refl calculator
  | ok run =>
    have begun : RecordsSteps calculator run.toCalculator := by
      rw [Run.start] at started
      split at started <;> cases started
      exact .recordToken (by simp [Event.level]) calculator _
    exact begun.trans (Run.stepwise_recordsSteps.expression run)

def announced (events : List Event) : List Event :=
  events.filter fun event => event.level.rank ≤ Level.info.rank

theorem announced_of_steps {events : List Event}
    (steps : ∀ event ∈ events, event.level ≠ .info) : announced events = [] := by
  rw [announced, List.filter_eq_nil_iff]
  intro event here
  have other := steps event here
  cases event <;> simp_all [Event.level, Level.rank]

inductive Announces (line : Text) (result : Except Fault Unit) (values : Variables) :
    List Event → Prop
  | nothing (idle : line.allBlank = true ∨ ∃ fault, result = .error fault) :
    Announces line result values []
  | assignment {assignment : Assignment} {value : Int} (shown : line.allBlank = false)
    (done : result = .ok ()) (read : Assignment.ofLine line.trim = .ok assignment)
    (held : values.find? assignment.target = some value) :
    Announces line result values [.assigned assignment.target value]

theorem exists_records_carryOut {line : Text} {assignment : Assignment}
    (shown : line.allBlank = false) (read : Assignment.ofLine line.trim = .ok assignment)
    (calculator : Calculator) :
    let result := carryOut assignment calculator
    ∃ events, Records events calculator result.2 ∧
      Announces line result.1 result.2.values (announced events) := by
  intro result
  obtain ⟨events, recorded, steps⟩ :=
    recordsSteps_evaluateExpression assignment.expression calculator
  have quiet : announced events = [] := announced_of_steps steps
  cases evaluated : evaluateExpression assignment.expression calculator with
  | mk outcome last =>
    rw [evaluated] at recorded
    cases outcome with
    | error fault =>
      have failed : result = (.error fault, last) := Action.apply_bind_of_error evaluated
      rw [failed]
      exact ⟨events, recorded, quiet ▸ .nothing (.inr ⟨fault, rfl⟩)⟩
    | ok value =>
      have valued : result = _ := Action.apply_bind_of_ok evaluated
      rw [valued]
      rcases assignedValue_cases assignment value last with
        ⟨new, given, -⟩ | ⟨op, -, -, refused⟩
      · rw [Action.apply_bind_of_ok given]
        refine ⟨_, recorded.trans (.set rfl last), ?_⟩
        have last : announced (events ++ [.assigned assignment.target new]) =
            [.assigned assignment.target new] := by
          rw [announced, List.filter_append]
          exact congrArg (· ++ _) quiet
        rw [last]
        refine .assignment shown rfl read ?_
        rw [Action.apply_modify]
        exact (Variables.find?_set ..).trans (if_pos rfl)
      · rw [Action.apply_bind_of_error refused]
        exact ⟨events, recorded, quiet ▸ .nothing (.inr ⟨_, rfl⟩)⟩

theorem exists_records_evaluate (line : Text) (calculator : Calculator) :
    let result := evaluate line calculator
    ∃ events, Records events calculator result.2 ∧
      Announces line result.1 result.2.values (announced events) := by
  intro result
  by_cases blank : line.trim = []
  · have skipped : result = (.ok (), calculator.record .lineSkipped) := evaluate_of_blank blank _
    rw [skipped]
    exact ⟨_, .record rfl calculator, .nothing (.inl ((Text.trim_eq_nil_iff line).1 blank))⟩
  have begun : Records [.lineStarted line.trim] calculator
      (calculator.record (.lineStarted line.trim)) := .record rfl calculator
  cases read : Assignment.ofLine line.trim with
  | error fault =>
    have refused : result =
        (.error (.reading fault), calculator.record (.lineStarted line.trim)) := by
      change evaluate line calculator = _
      rw [evaluate_of_shown blank, read]
      rfl
    rw [refused]
    exact ⟨_, begun, .nothing (.inr ⟨_, rfl⟩)⟩
  | ok assignment =>
    have shown : line.allBlank = false := by
      rw [← Bool.not_eq_true, ← Text.trim_eq_nil_iff]
      exact blank
    have carried : result = _ := evaluate_of_assignment blank read calculator
    rw [carried]
    obtain ⟨events, recorded, announces⟩ := exists_records_carryOut shown read
      (calculator.record (.lineStarted line.trim))
    exact ⟨_, begun.trans recorded, announces⟩

/-- The lines that succeed and show something, each with the variables behind it. -/
def successes : List Text → Calculator → List (Text × Variables)
  | [], _ => []
  | line :: later, calculator =>
    match evaluate line calculator with
    | (.ok (), after) =>
      if line.allBlank then successes later after
      else (line, after.values) :: successes later after
    | (.error _, after) => successes later after

/-- Whether a message says that a line has set its target to the value that it has behind it. -/
def Confirms (success : Text × Variables) (message : Text) : Prop :=
  ∃ assignment value, Assignment.ofLine success.1.trim = .ok assignment ∧
    success.2.find? assignment.target = some value ∧
    message = "assigned ".toList ++ assignment.target ++ " = ".toList ++ Decimal.ofInt value

theorem exists_records_evaluateAll (lines : List Text) (calculator : Calculator) :
    ∃ events, Records events calculator (evaluateAll lines calculator) ∧
      List.Forall₂ Confirms (successes lines calculator)
        ((announced events).map Event.message) := by
  induction lines generalizing calculator with
  | nil => exact ⟨[], .refl calculator, .nil⟩
  | cons line later ih =>
    obtain ⟨events, recorded, announces⟩ := exists_records_evaluate line calculator
    obtain ⟨others, further, confirmed⟩ := ih (evaluate line calculator).2
    refine ⟨events ++ others, recorded.trans further, ?_⟩
    have split : announced (events ++ others) = announced events ++ announced others :=
      List.filter_append ..
    rw [split, List.map_append, successes]
    cases evaluated : evaluate line calculator with
    | mk result after =>
      rw [evaluated] at announces confirmed
      generalize announced events = own at announces
      cases announces with
      | nothing idle =>
        rcases idle with blank | ⟨fault, failed⟩
        · cases result with
          | ok nothing => simpa [blank] using confirmed
          | error fault => exact confirmed
        · cases failed
          exact confirmed
      | @assignment assignment value shown done read held =>
        cases done
        simp only [shown, Bool.false_eq_true, if_false]
        exact .cons ⟨assignment, value, read, held, rfl⟩ confirmed

/-- After any lines on a new calculator, setting variables in order as the messages up to the level
of steps say makes the variables of the calculator, and nothing else. The messages at the level of
assignments are one for each line that succeeded and showed something, and each tells the target and
the value that it had behind the line. -/
theorem evaluateAll_journaled (lines : List Text) :
    let calculator := evaluateAll lines new
    (∀ made, Variables.SetBy (calculator.journal.messages .debug) .empty made ↔
      made = calculator.values) ∧
      List.Forall₂ Confirms (successes lines new) (calculator.journal.messages .info) := by
  intro calculator
  obtain ⟨events, recorded, confirmed⟩ := exists_records_evaluateAll lines new
  have journal : calculator.journal.events = events := recorded.journal
  have values : calculator.values = Variables.empty.setAll (events.filterMap Event.write?) :=
    recorded.values
  refine ⟨fun made => ?_, ?_⟩
  · rw [Journal.messages, Variables.setBy_message_iff, Journal.filterMap_write?_upTo, journal,
      ← values]
  · rw [Journal.messages, Journal.upTo, journal]
    exact confirmed

end Calculator

end LineCalculator
