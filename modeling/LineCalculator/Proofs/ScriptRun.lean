import LineCalculator.Proofs.Agreement
import LineCalculator.Proofs.Commutation
import LineCalculator.Proofs.Wording

/-! A script comes to what its lines come to one after the other. No line stops it, a line that
fails is reported on one line, and so a script in two parts says what the first part says, but for
the variables, and then what the second part says behind it. -/

namespace LineCalculator

theorem Session.fullLine_lineReport {line : Text} {fault : Fault} (quoted : line.OneLine)
    (told : fault.message.OneLine) : (lineReport line fault).FullLine := by
  refine ⟨"Error in line '".toList ++ line ++ "': ".toList ++ fault.message, ?_, rfl⟩
  simp only [Text.oneLine_append]
  exact ⟨⟨⟨by decide, quoted⟩, by decide⟩, told⟩

namespace Calculator

theorem relates_evaluate_values (line : Text) :
    (evaluate line).Relates fun left right => left.values = right.values := by
  by_cases blank : line.trim = []
  · intro left right same
    rw [evaluate_of_blank blank, evaluate_of_blank blank]
    exact ⟨rfl, same⟩
  cases read : Assignment.ofLine line.trim with
  | error fault =>
    intro left right same
    rw [evaluate_of_shown blank, evaluate_of_shown blank, read]
    exact ⟨rfl, same⟩
  | ok assignment =>
    have congruence : Variables.Congruence (fun _ => True) Eq :=
      ⟨fun same _ => same ▸ rfl, fun same _ value => same ▸ rfl⟩
    exact relates_evaluate congruence read fun _ _ => trivial

/-- The lines that fail when lines are evaluated one after the other, each with its fault. -/
def failures : List Text → Calculator → List (Text × Fault)
  | [], _ => []
  | line :: later, calculator =>
    match evaluate line calculator with
    | (.ok (), after) => failures later after
    | (.error fault, after) => (line, fault) :: failures later after

theorem reply_eq_evaluate {calculator other : Calculator} (same : calculator.values = other.values)
    (line : Text) :
    (calculator.reply line).2.values = (evaluate line other).2.values ∧
      (calculator.reply line).1.report line =
        match (evaluate line other).1 with
        | .ok _ => []
        | .error fault => Session.lineReport line fault := by
  cases shown : line.allBlank with
  | true =>
    rw [reply_of_blank shown, evaluate_of_blank ((Text.trim_eq_nil_iff line).2 shown)]
    exact ⟨same, rfl⟩
  | false =>
    obtain ⟨result, values⟩ := relates_evaluate_values line calculator other same
    cases evaluated : evaluate line calculator with
    | mk outcome after =>
      rw [evaluated] at result values
      rw [← result, ← values]
      cases outcome with
      | ok nothing => rw [reply_of_ok shown evaluated]; exact ⟨rfl, rfl⟩
      | error fault => rw [reply_of_error shown evaluated]; exact ⟨rfl, rfl⟩

def failureReport (failure : Text × Fault) : Text :=
  Session.lineReport failure.1 failure.2

theorem replies_eq_evaluateAll {calculator other : Calculator}
    (same : calculator.values = other.values) (lines : List Text) :
    (calculator.replies lines).2.values = (evaluateAll lines other).values ∧
      Session.reports lines (calculator.replies lines).1 =
        ((failures lines other).map failureReport).flatten := by
  induction lines generalizing calculator other with
  | nil => exact ⟨same, rfl⟩
  | cons line later ih =>
    obtain ⟨values, report⟩ := reply_eq_evaluate same line
    obtain ⟨last, others⟩ := ih values
    refine ⟨last, ?_⟩
    have split : Session.reports (line :: later) (calculator.replies (line :: later)).1 =
        (calculator.reply line).1.report line ++
          Session.reports later ((calculator.reply line).2.replies later).1 := rfl
    rw [split, others, report, failures]
    cases evaluate line other with
    | mk result after => cases result <;> rfl

theorem evaluateAll_append (earlier later : List Text) (calculator : Calculator) :
    evaluateAll (earlier ++ later) calculator =
      evaluateAll later (evaluateAll earlier calculator) :=
  List.foldl_append

theorem failures_append (earlier later : List Text) (calculator : Calculator) :
    failures (earlier ++ later) calculator =
      failures earlier calculator ++ failures later (evaluateAll earlier calculator) := by
  induction earlier generalizing calculator with
  | nil => rfl
  | cons line earlier ih =>
    rw [List.cons_append, failures, failures, evaluateAll, List.foldl_cons]
    cases evaluate line calculator with
    | mk result after =>
      cases result with
      | ok nothing => exact ih after
      | error fault => exact congrArg (List.cons (line, fault)) (ih after)

theorem replies_append (earlier later : List Text) (calculator : Calculator) :
    calculator.replies (earlier ++ later) =
      let first := calculator.replies earlier
      (first.1 ++ (first.2.replies later).1, (first.2.replies later).2) := by
  induction earlier generalizing calculator with
  | nil => rfl
  | cons line earlier ih => rw [List.cons_append, replies, ih]; rfl

theorem fullLine_failureReport {lines : List Text} (single : ∀ line ∈ lines, line.OneLine)
    (calculator : Calculator) :
    ∀ report ∈ (failures lines calculator).map failureReport, report.FullLine := by
  induction lines generalizing calculator with
  | nil => simp [failures]
  | cons line later ih =>
    have rest := ih fun other member => single other (List.mem_cons_of_mem line member)
    rw [failures]
    split
    · exact rest _
    · next fault after failed =>
      have own := single line List.mem_cons_self
      have told := oneLine_message_of_evaluate own (congrArg Prod.fst failed)
      rw [List.map_cons, List.forall_mem_cons]
      exact ⟨Session.fullLine_lineReport own told, rest after⟩

end Calculator

namespace Session

/-- What a script says of its lines when it begins with a calculator: the reports of the lines that
fail, and the variables at the end. Each of them is one line. -/
def saidOf (lines : List Text) (calculator : Calculator) : List Text :=
  (Calculator.failures lines calculator).map Calculator.failureReport ++
    [(Calculator.evaluateAll lines calculator).values.text ++ ['\n']]

theorem saidOf_append (earlier later : List Text) (calculator : Calculator) :
    saidOf (earlier ++ later) calculator =
      (Calculator.failures earlier calculator).map Calculator.failureReport ++
        saidOf later (Calculator.evaluateAll earlier calculator) := by
  rw [saidOf, saidOf, Calculator.failures_append, List.map_append, List.append_assoc,
    Calculator.evaluateAll_append]

theorem runScript_saidOf (script : Text) {calculator other : Calculator}
    (same : calculator.values = other.values) :
    let lines := script.lines
    runScript script ⟨calculator, {}⟩ =
      (.ok (), saying (calculator.replies lines).2 (saidOf lines other).flatten) := by
  intro lines
  obtain ⟨values, reported⟩ := Calculator.replies_eq_evaluateAll same lines
  rw [saidOf, List.flatten_append, List.flatten_singleton, ← reported, ← values]
  exact runScript_saying script calculator

def withoutLastLine (bytes : List UInt8) : List UInt8 :=
  (cutBehind (· == lineFeed) bytes).dropLast.flatten

theorem withoutLastLine_toUtf8 {parts : List Text} {last : Text}
    (full : ∀ part ∈ parts ++ [last], part.FullLine) :
    withoutLastLine (Text.toUtf8 (parts ++ [last]).flatten) = Text.toUtf8 parts.flatten := by
  have cuts := cutBehind_flatten_of_endsLast fun part member => (full part member).endsLast
  rw [withoutLastLine, cutBehind_toUtf8, cuts, List.map_append, List.map_singleton,
    List.dropLast_concat, Text.toUtf8_flatten]

/-- A script comes to what its lines come to one after the other. It does not fail; it ends with the
variables that they leave on a new calculator, and it says what is wrong with each line that fails,
and then the variables, on one line each. Behind a line feed a script can be continued: the longer
one says what the first one says, without the last line, and then what the rest says when it begins
with the calculator that the first one leaves. -/
theorem runScript_folds (script : Text) :
    let failed := Calculator.failures script.lines .new
    let values := (Calculator.evaluateAll script.lines .new).values
    let said : Text := (failed.map Calculator.failureReport).flatten ++ (values.text ++ ['\n'])
    ∃ ending : Session, runScript script {} = (.ok (), ending) ∧
      ending.calculator.values = values ∧ ending.output.bytes.toList = said.toUtf8 ∧
      said.count '\n' = failed.length + 1 ∧
      (script = [] ∨ script.getLast? = some '\n' → ∀ more : Text,
        ∃ continued whole : Session, runScript more ⟨ending.calculator, {}⟩ = (.ok (), continued) ∧
          runScript (script ++ more) {} = (.ok (), whole) ∧
          whole.calculator = continued.calculator ∧
          whole.output.bytes.toList =
            withoutLastLine ending.output.bytes.toList ++ continued.output.bytes.toList) := by
  intro failed values said
  have self : Calculator.new.values = Calculator.new.values := rfl
  have run := runScript_saidOf script self
  have kept := (Calculator.replies_eq_evaluateAll self script.lines).1
  -- Every report is one line, so that line feeds count reports and the last line can be cut off.
  have full (part : Text) (member : part ∈ saidOf script.lines .new) : part.FullLine := by
    rcases List.mem_append.1 member with report | last
    · exact Calculator.fullLine_failureReport
        (fun line here => Text.lineFeed_notMem_of_mem_lines here) .new part report
    · have sound : values.Sound := Calculator.sound_evaluateAll script.lines Variables.sound_empty
      exact ⟨values.text, sound.oneLine_text, List.mem_singleton.1 last⟩
  have lines : said = (saidOf script.lines .new).flatten := by simp [said, saidOf, failed, values]
  refine ⟨_, run, kept, by rw [lines]; rfl, ?_, fun ended more => ?_⟩
  · rw [lines, Text.count_flatten_of_fullLine full]
    simp [saidOf, failed]
  have whole := runScript_saidOf (script ++ more) self
  refine ⟨_, _, runScript_saidOf more kept, whole, ?_, ?_⟩
  · rw [Text.lines_append ended, Calculator.replies_append]
    rfl
  · change Text.toUtf8 _ = withoutLastLine (Text.toUtf8 (saidOf script.lines .new).flatten) ++
      Text.toUtf8 _
    have shorter : withoutLastLine (Text.toUtf8 (saidOf script.lines .new).flatten) = _ :=
      withoutLastLine_toUtf8 full
    rw [shorter, Text.lines_append ended, saidOf_append, List.flatten_append, Text.toUtf8_append]

theorem runScript_folds_behind_zero :
    let script : Text := "x = 1 / 0\n".toList
    let more : Text := "y = x++".toList
    let report : Text := "Error in line 'x = 1 / 0': Division by zero\n".toList
    ∃ ending continued whole : Session, runScript script {} = (.ok (), ending) ∧
      ending.output.bytes.toList = (report ++ "()\n".toList : Text).toUtf8 ∧
      runScript more ⟨ending.calculator, {}⟩ = (.ok (), continued) ∧
      runScript (script ++ more) {} = (.ok (), whole) ∧
      whole.output.bytes.toList = report.toUtf8 ++ continued.output.bytes.toList := by
  intro script more report
  let line : Text := "x = 1 / 0".toList
  have lines : script.lines = [line] := by decide
  have read : Assignment.ofLine line.trim = .ok ⟨['x'], .replace, "1 / 0".toList⟩ := rfl
  have scanned : Text.items "1 / 0".toList =
      [.ok (.number ['1']), .ok (.operator .divide), .ok (.number ['0'])] := Text.items_eq _
  have evaluated : (Text.reading "1 / 0".toList).evaluate Calculator.new.values =
      (.error (.arithmetic .divisionByZero), .empty) := by
    rw [Text.reading, scanned]
    rfl
  obtain ⟨fault, values⟩ := Calculator.evaluate_of_fault read evaluated
  have failed : Calculator.failures [line] .new = [(line, .arithmetic .divisionByZero)] := by
    rw [Calculator.failures]
    cases known : Calculator.evaluate line .new with
    | mk result after =>
      rw [known] at fault
      cases fault
      rfl
  have kept : (Calculator.evaluateAll [line] .new).values = .empty := values
  obtain ⟨ending, run, -, bytes, -, continues⟩ := runScript_folds script
  obtain ⟨continued, whole, later, all, -, joined⟩ := continues (.inr rfl) more
  rw [lines, failed, kept] at bytes
  have shorter : withoutLastLine (Text.toUtf8 (report ++ "()\n".toList)) = report.toUtf8 := by
    decide
  have said : ending.output.bytes.toList = Text.toUtf8 (report ++ "()\n".toList) := bytes
  rw [said, shorter] at joined
  exact ⟨ending, continued, whole, run, said, later, all, joined⟩

end Session

end LineCalculator
