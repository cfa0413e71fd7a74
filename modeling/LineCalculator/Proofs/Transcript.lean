import LineCalculator.Proofs.Outcome
import LineCalculator.Session.Dialogue
import LineCalculator.Session.Script

/-! What sessions with an unlimited output say. Each line has a reply, and the reply depends on the
line without the blank characters around it. A dialogue says the replies one after the other with
a prompt behind each, a script only those to lines that failed. -/

namespace LineCalculator

/-- What comes of a line: nothing if it shows nothing, and otherwise the variables behind it, or
the fault with which it failed. -/
inductive LineReply where
  | silence
  | shown (values : Variables)
  | failed (fault : Fault)

namespace LineReply

def answer : LineReply → Text
  | silence => []
  | shown values => values.text ++ ['\n']
  | failed fault => Session.answerReport fault

def report (line : Text) : LineReply → Text
  | silence | shown _ => []
  | failed fault => Session.lineReport line fault

def message? : LineReply → Option Text
  | silence | shown _ => none
  | failed fault => some fault.message

end LineReply

namespace Calculator

def reply (line : Text) (calculator : Calculator) : LineReply × Calculator :=
  if line.allBlank then
    (.silence, calculator)
  else
    match evaluate line calculator with
    | (.ok (), after) => (.shown after.values, after)
    | (.error fault, after) => (.failed fault, after)

def replies : List Text → Calculator → List LineReply × Calculator
  | [], calculator => ([], calculator)
  | line :: later, calculator =>
    let first := calculator.reply line
    let rest := first.2.replies later
    (first.1 :: rest.1, rest.2)

theorem reply_of_blank {line : Text} (blank : line.allBlank = true) (calculator : Calculator) :
    calculator.reply line = (.silence, calculator) :=
  if_pos blank

theorem reply_of_ok {line : Text} {calculator after : Calculator} (shown : line.allBlank = false)
    (done : evaluate line calculator = (.ok (), after)) :
    calculator.reply line = (.shown after.values, after) := by
  rw [reply, if_neg (by simp [shown]), done]

theorem reply_of_error {line : Text} {calculator after : Calculator} {fault : Fault}
    (shown : line.allBlank = false) (failed : evaluate line calculator = (.error fault, after)) :
    calculator.reply line = (.failed fault, after) := by
  rw [reply, if_neg (by simp [shown]), failed]

theorem evaluate_congr {line other : Text} (same : line.trim = other.trim) :
    evaluate line = evaluate other := by
  simp only [evaluate, same]

theorem reply_congr {line other : Text} (same : line.trim = other.trim) (calculator : Calculator) :
    calculator.reply line = calculator.reply other := by
  have blank : line.allBlank = other.allBlank := by
    rw [Bool.eq_iff_iff, ← Text.trim_eq_nil_iff, ← Text.trim_eq_nil_iff, same]
  rw [reply, reply, blank, evaluate_congr same]

theorem replies_map {change : Text → Text} (same : ∀ line, (change line).trim = line.trim)
    (lines : List Text) (calculator : Calculator) :
    calculator.replies (lines.map change) = calculator.replies lines := by
  induction lines generalizing calculator with
  | nil => rfl
  | cons line later ih => rw [List.map_cons, replies, replies, reply_congr (same line), ih]

end Calculator

namespace Session

def saying (calculator : Calculator) (said : Text) : Session :=
  ⟨calculator, ⟨none, said.toUtf8.toArray⟩⟩

theorem say_saying (calculator : Calculator) (said more : Text) :
    say more (saying calculator said) = (.ok (), saying calculator (said ++ more)) := by
  have written : Output.write more.toUtf8 ⟨none, said.toUtf8.toArray⟩ =
      (.ok (), ⟨none, said.toUtf8.toArray ++ more.toUtf8⟩) :=
    Output.write_of_unlimited rfl more.toUtf8
  simp only [say, saying, written, Text.toUtf8_append]
  simp

theorem showVariables_saying (calculator : Calculator) (said : Text) :
    showVariables (saying calculator said) =
      (.ok (), saying calculator (said ++ (calculator.values.text ++ ['\n']))) := by
  rw [showVariables, Action.apply_bind_of_ok (Action.apply_get _)]
  exact say_saying ..

theorem attempt_of_ok {line : Text} {calculator after : Calculator}
    (done : Calculator.evaluate line calculator = (.ok (), after)) (said : Text) :
    attempt line (saying calculator said) = (.ok none, saying after said) := by
  simp only [attempt, saying, done]

theorem attempt_of_error {line : Text} {calculator after : Calculator} {fault : Fault}
    (failed : Calculator.evaluate line calculator = (.error fault, after)) (said : Text) :
    attempt line (saying calculator said) = (.ok (some fault), saying after said) := by
  simp only [attempt, saying, failed]

theorem answer_saying (line : Text) (calculator : Calculator) (said : Text) :
    answer line (saying calculator said) =
      (.ok (), saying (calculator.reply line).2 (said ++ (calculator.reply line).1.answer)) := by
  rw [answer]
  cases shown : line.allBlank with
  | true => simp [Calculator.reply_of_blank shown, LineReply.answer]
  | false =>
    simp only [Bool.false_eq_true, if_false]
    cases evaluated : Calculator.evaluate line calculator with
    | mk result after => cases result with
      | ok nothing =>
        rw [Action.apply_bind_of_ok (attempt_of_ok evaluated said),
          Calculator.reply_of_ok shown evaluated]
        exact showVariables_saying after said
      | error fault =>
        rw [Action.apply_bind_of_ok (attempt_of_error evaluated said),
          Calculator.reply_of_error shown evaluated]
        exact say_saying after said (answerReport fault)

theorem runLine_saying (line : Text) (calculator : Calculator) (said : Text) :
    runLine line (saying calculator said) =
      (.ok (), saying (calculator.reply line).2
        (said ++ (calculator.reply line).1.report line)) := by
  rw [runLine]
  cases shown : line.allBlank with
  | true => simp [Calculator.reply_of_blank shown, LineReply.report]
  | false =>
    simp only [Bool.false_eq_true, if_false]
    cases evaluated : Calculator.evaluate line calculator with
    | mk result after => cases result with
      | ok nothing =>
        rw [Action.apply_bind_of_ok (attempt_of_ok evaluated said),
          Calculator.reply_of_ok shown evaluated]
        simp [LineReply.report]
      | error fault =>
        rw [Action.apply_bind_of_ok (attempt_of_error evaluated said),
          Calculator.reply_of_error shown evaluated]
        exact say_saying after said (lineReport line fault)

def reports (lines : List Text) (replies : List LineReply) : Text :=
  (lines.zip replies).flatMap fun (line, reply) => reply.report line

def answers (replies : List LineReply) : Text :=
  replies.flatMap fun reply => reply.answer ++ prompt

theorem forM_runLine_saying (lines : List Text) (calculator : Calculator) (said : Text) :
    lines.forM runLine (saying calculator said) =
      (.ok (), saying (calculator.replies lines).2
        (said ++ reports lines (calculator.replies lines).1)) := by
  induction lines generalizing calculator said with
  | nil => simp [Calculator.replies, reports]
  | cons line later ih =>
    rw [List.forM, Action.apply_bind_of_ok (runLine_saying line calculator said), ih]
    simp [Calculator.replies, reports]

theorem runScript_saying (script : Text) (calculator : Calculator) :
    let replies := calculator.replies script.lines
    runScript script (saying calculator []) =
      (.ok (), saying replies.2
        (reports script.lines replies.1 ++ (replies.2.values.text ++ ['\n']))) := by
  intro replies
  rw [runScript, Action.apply_bind_of_ok (forM_runLine_saying script.lines calculator []),
    showVariables_saying, List.nil_append]

theorem leave_saying (calculator : Calculator) (said : Text) :
    leave (saying calculator said) = (.ok false, saying calculator (said ++ farewell)) := by
  rw [leave, Action.apply_bind_of_ok (say_saying calculator said farewell), Action.apply_pure]

theorem turn_saying {line : Text} (stays : asksToLeave line = false) (calculator : Calculator)
    (said : Text) :
    turn (some line.toUtf8) (saying calculator said) =
      (.ok true, saying (calculator.reply line).2
        (said ++ ((calculator.reply line).1.answer ++ prompt))) := by
  rw [turn, Text.ofUtf8?_toUtf8]
  simp only [stays, Bool.false_eq_true, if_false]
  rw [Action.apply_bind_of_ok (answer_saying line calculator said),
    Action.apply_bind_of_ok (say_saying _ _ prompt), Action.apply_pure, List.append_assoc]

/-- Where a dialogue stops, and how it ends there: at the end of the input, at a line that asks to
leave, or at one that is not UTF-8. -/
inductive Stops : List (List UInt8) → Except StreamFault Unit → Prop
  | ended : Stops [] (.ok ())
  | left {line : Text} (asks : asksToLeave line = true) (later : List (List UInt8)) :
    Stops (line.toUtf8 :: later) (.ok ())
  | garbled {bytes : List UInt8} (undecoded : Text.ofUtf8? bytes = none)
    (later : List (List UInt8)) : Stops (bytes :: later) (.error .notUtf8)

def parting : Except StreamFault Unit → Text
  | .ok () => farewell
  | .error _ => []

theorem converse_of_stops {rest : List (List UInt8)} {result : Except StreamFault Unit}
    (stops : Stops rest result) (calculator : Calculator) (said : Text) :
    converse rest (saying calculator said) =
      (result, saying calculator (said ++ parting result)) := by
  cases stops with
  | ended =>
    rw [converse, turn, Action.apply_bind_of_ok (leave_saying calculator said)]
    rfl
  | @left line asks later =>
    have left : turn (some line.toUtf8) (saying calculator said) =
        (.ok false, saying calculator (said ++ farewell)) := by
      rw [turn, Text.ofUtf8?_toUtf8]
      simp only [asks, if_true]
      exact leave_saying calculator said
    rw [converse, Action.apply_bind_of_ok left]
    rfl
  | @garbled bytes undecoded later =>
    have refused : turn (some bytes) (saying calculator said) =
        (.error .notUtf8, saying calculator said) := by
      rw [turn, undecoded]
      rfl
    rw [converse, Action.apply_bind_of_error refused, parting, List.append_nil]

theorem converse_stopping {lines : List Text} {rest : List (List UInt8)}
    {result : Except StreamFault Unit} (stays : ∀ line ∈ lines, asksToLeave line = false)
    (stops : Stops rest result) (calculator : Calculator) (said : Text) :
    converse (lines.map Text.toUtf8 ++ rest) (saying calculator said) =
      (result, saying (calculator.replies lines).2
        (said ++ (answers (calculator.replies lines).1 ++ parting result))) := by
  induction lines generalizing calculator said with
  | nil => exact converse_of_stops stops calculator said
  | cons line later ih =>
    have here := stays line List.mem_cons_self
    have further := ih fun other member => stays other (List.mem_cons_of_mem line member)
    rw [List.map_cons, List.cons_append, converse,
      Action.apply_bind_of_ok (turn_saying here calculator said)]
    simp only [if_true, further]
    simp [Calculator.replies, answers]

theorem runDialogue_stopping {input : List UInt8} {lines : List Text} {rest : List (List UInt8)}
    {result : Except StreamFault Unit}
    (cut : cutBehind (· == lineFeed) input = lines.map Text.toUtf8 ++ rest)
    (stays : ∀ line ∈ lines, asksToLeave line = false) (stops : Stops rest result)
    (calculator : Calculator) :
    runDialogue input (saying calculator []) =
      (result, saying (calculator.replies lines).2
        (greeting ++ prompt ++ answers (calculator.replies lines).1 ++ parting result)) := by
  have welcomed : welcome (saying calculator []) =
      (.ok (), saying calculator (greeting ++ prompt)) := by
    rw [welcome, Action.apply_bind_of_ok (say_saying calculator [] greeting), say_saying]
    rfl
  rw [runDialogue, Action.apply_bind_of_ok welcomed, cut, converse_stopping stays stops]
  simp

def heard (lines : List Text) : List Text :=
  lines.takeWhile fun line => !asksToLeave line

theorem runDialogue_saying {input : List UInt8} {lines : List Text}
    (cut : cutBehind (· == lineFeed) input = lines.map Text.toUtf8) (calculator : Calculator) :
    runDialogue input (saying calculator []) =
      (.ok (), saying (calculator.replies (heard lines)).2
        (greeting ++ prompt ++ answers (calculator.replies (heard lines)).1 ++ farewell)) := by
  have stays (line : Text) (member : line ∈ heard lines) : asksToLeave line = false := by
    simpa using List.all_eq_true.1 List.all_takeWhile line member
  have stops :
      Stops ((lines.dropWhile fun line => !asksToLeave line).map Text.toUtf8) (.ok ()) := by
    cases behind : lines.dropWhile fun line => !asksToLeave line with
    | nil => exact .ended
    | cons line later =>
      have asks : asksToLeave line = true := by
        have first := List.head?_dropWhile_not (fun line => !asksToLeave line) lines
        rw [behind] at first
        simpa using first
      exact .left asks _
  refine runDialogue_stopping ?_ stays stops calculator
  rw [cut, ← List.map_append, heard, List.takeWhile_append_dropWhile]

end Session

end LineCalculator
