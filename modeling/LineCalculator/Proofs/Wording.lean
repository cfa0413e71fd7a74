import LineCalculator.Proofs.Coverage
import LineCalculator.Proofs.Display
import LineCalculator.Text.Lines

/-! The words for a fault stay on one line. They quote parts of the line that was evaluated. What
they quote of an expression has been read as an item, and no item holds a line feed, since that is a
gap. So only the line itself could bring one in. -/

namespace LineCalculator

def Text.OneLine (t : Text) : Prop :=
  '\n' ∉ t

instance (t : Text) : Decidable t.OneLine :=
  inferInstanceAs (Decidable ('\n' ∉ t))

@[simp] theorem Text.oneLine_append {s t : Text} :
    (s ++ t).OneLine ↔ s.OneLine ∧ t.OneLine := by
  simp [OneLine]

theorem Text.oneLine_intercalate {separator : Text} {parts : List Text}
    (between : separator.OneLine) (single : ∀ part ∈ parts, part.OneLine) :
    Text.OneLine (separator.intercalate parts) := by
  induction parts with
  | nil => simp [OneLine]
  | cons part later ih =>
    cases later with
    | nil => simpa using single part List.mem_cons_self
    | cons next others =>
      rw [List.intercalate_cons_cons, oneLine_append, oneLine_append]
      exact ⟨⟨single part List.mem_cons_self, between⟩,
        ih fun other member => single other (List.mem_cons_of_mem part member)⟩

def Text.FullLine (t : Text) : Prop :=
  ∃ inner : Text, inner.OneLine ∧ t = inner ++ ['\n']

theorem Text.FullLine.endsLast {t : Text} (full : t.FullLine) : EndsLast (· == '\n') t := by
  obtain ⟨inner, single, rfl⟩ := full
  refine ⟨inner, '\n', rfl, rfl, fun c member => ?_⟩
  rw [beq_eq_false_iff_ne]
  rintro rfl
  exact single member

theorem Text.count_flatten_of_fullLine {parts : List Text} (full : ∀ part ∈ parts, part.FullLine) :
    parts.flatten.count '\n' = parts.length := by
  induction parts with
  | nil => rfl
  | cons part later ih =>
    obtain ⟨inner, single, rfl⟩ := full part List.mem_cons_self
    have none : inner.count '\n' = 0 := List.count_eq_zero.2 single
    rw [List.flatten_cons, List.count_append, List.count_append, none, List.length_cons,
      ih fun other member => full other (List.mem_cons_of_mem _ member)]
    simp [Nat.add_comm]

theorem Text.OneLine.trim {t : Text} (line : t.OneLine) : t.trim.OneLine := by
  intro member
  refine line ?_
  rw [Text.trim, trimEnd] at member
  have behind := (List.dropWhile_sublist _).subset (List.mem_reverse.1 member)
  exact (List.dropWhile_sublist _).subset (List.mem_reverse.1 behind)

theorem Decimal.oneLine_ofInt (value : Int) : Text.OneLine (ofInt value) :=
  notMem_ofInt (by decide) (by decide) value

theorem ArithmeticFault.oneLine_message (fault : ArithmeticFault) : fault.message.OneLine := by
  cases fault with
  | divisionByZero => decide
  | overflow op left right =>
    have words : Text.OneLine ("Integer overflow while trying to compute ".toList) := by decide
    have symbol : Text.OneLine [' ', op.symbol, ' '] := by cases op <;> decide
    exact Text.oneLine_append.2 ⟨Text.oneLine_append.2 ⟨Text.oneLine_append.2
      ⟨words, Decimal.oneLine_ofInt left⟩, symbol⟩, Decimal.oneLine_ofInt right⟩
  | negationOverflow value => exact Text.oneLine_append.2 ⟨by decide, Decimal.oneLine_ofInt value⟩

theorem ReadingFault.oneLine_message (fault : ReadingFault)
    (shaped : ∀ details, fault ≠ .malformed details) (quoted : fault.part.OneLine) :
    fault.message.OneLine := by
  cases fault with
  | malformed details => exact absurd rfl (shaped details)
  | invalidName name =>
    change Text.OneLine (if name.getLast? = some '_' then _ else _)
    split
    · exact Text.oneLine_append.2 ⟨Text.oneLine_append.2 ⟨by decide, quoted⟩, by decide⟩
    · exact Text.oneLine_append.2 ⟨by decide, quoted⟩
  | unexpectedCharacter character => exact Text.oneLine_append.2 ⟨by decide, quoted⟩
  | unexpectedToken token =>
    cases token with
    | nil => decide
    | cons first rest => exact Text.oneLine_append.2 ⟨by decide, quoted⟩
  | literalTooLarge digits => exact Text.oneLine_append.2 ⟨by decide, quoted⟩

namespace Unread

theorem oneLine_shown (unread : Unread) : unread.shown.OneLine := by
  rw [shown, Text.oneLine_append]
  constructor
  · intro member
    obtain ⟨step, -, here⟩ := List.mem_flatMap.1 member
    cases step <;> exact absurd here (by decide)
  · intro member
    have shown := (List.mem_filter.1 member).2
    cases shown

theorem oneLine_next (unread : Unread) :
    match unread.next.1 with
    | .ok token => token.text.OneLine
    | .error fault => fault.message.OneLine := by
  have reads := unread.reads_next
  have quoted : (Item.text unread.next.1).OneLine := by
    have all := unread.oneLine_shown
    rw [reads.shown_eq, Text.oneLine_append] at all
    exact all.1
  generalize unread.next.1 = item at reads quoted
  cases item with
  | ok token => exact quoted
  | error fault =>
    have lexical : fault.IsLexical := by
      cases reads with
      | lexeme skipped lexeme => exact lexeme.isLexical
    refine ReadingFault.oneLine_message fault ?_ quoted
    rintro details rfl
    exact lexical

end Unread

namespace Run

def StaysOnLine (before : Run) (fault : Option Fault) (after : Run) : Prop :=
  before.cursor.current.text.OneLine →
    after.cursor.current.text.OneLine ∧ ∀ flaw, fault = some flaw → flaw.message.OneLine

theorem sequential_staysOnLine : Action.Sequential StaysOnLine where
  refl run line := ⟨line, fun _ none => by cases none⟩
  trans earlier later line := later (earlier line).1

theorem ensures_advance_staysOnLine : advance.Ensures StaysOnLine := by
  intro run line
  have following := run.cursor.unread.oneLine_next
  rw [advance, Cursor.advance]
  cases read : run.cursor.unread.next with
  | mk item rest =>
    rw [read] at following
    cases item with
    | ok token => exact ⟨following, fun _ none => by cases none⟩
    | error fault =>
      refine ⟨line, fun flaw same => ?_⟩
      cases same
      exact following

theorem stepwise_staysOnLine : Stepwise StaysOnLine where
  toSequential := sequential_staysOnLine
  advance := ensures_advance_staysOnLine
  takeStep side step name run line := by
    rw [takeStep]
    split
    · exact ⟨line, fun _ none => by cases none⟩
    · next fault _ =>
      refine ⟨line, fun flaw same => ?_⟩
      cases same
      exact fault.oneLine_message
  literal {run digits} current line := by
    have quoted : Text.OneLine digits := by rwa [current] at line
    refine ensures_literal sequential_staysOnLine ensures_advance_staysOnLine
      (fun after here => ⟨here, fun flaw same => ?_⟩) run line
    cases same
    exact ReadingFault.oneLine_message (.literalTooLarge digits) (by simp) quoted
  refuse run line := by
    refine ⟨line, fun flaw same => ?_⟩
    cases same
    exact ReadingFault.oneLine_message (.unexpectedToken _) (by simp) line
  arithmetic run fault line := by
    refine ⟨line, fun flaw same => ?_⟩
    cases same
    exact fault.oneLine_message

end Run

theorem Assignment.oneLine_message {line : Text} {fault : ReadingFault} (single : line.OneLine)
    (failed : ofLine line = .error fault) : fault.message.OneLine := by
  rcases ofLine_eq_error_iff.1 failed with
    ⟨-, rfl⟩ | ⟨form, -, ⟨-, rfl⟩ | ⟨left, right, repeats, divides, -, rfl⟩⟩
  · exact Text.oneLine_append.2 ⟨by decide, single⟩
  · exact Text.oneLine_append.2 ⟨by decide, single⟩
  · rw [divides.parts] at single
    simp only [Text.oneLine_append] at single
    exact ReadingFault.oneLine_message (.invalidName left.trim) (by simp)
      single.1.1.1.trim

namespace Calculator

theorem oneLine_message_of_evaluateExpression {source : Text} {calculator : Calculator}
    {fault : Fault} (failed : (evaluateExpression source calculator).1 = .error fault) :
    fault.message.OneLine := by
  have first := (Unread.mk source []).oneLine_next
  rw [evaluateExpression, Run.start, Cursor.start] at failed
  cases read : (Unread.mk source []).next with
  | mk item unread =>
    rw [read] at failed first
    cases item with
    | error flaw =>
      cases failed
      exact first
    | ok token =>
      have whole := Run.stepwise_staysOnLine.expression
        ⟨calculator.recordToken token, ⟨token, unread⟩⟩ first
      exact whole.2 fault (congrArg Action.fault? failed)

theorem oneLine_message_of_evaluate {line : Text} (single : line.OneLine) {calculator : Calculator}
    {fault : Fault} (failed : (evaluate line calculator).1 = .error fault) :
    fault.message.OneLine := by
  have outcome := outcome_of_evaluate line calculator
  rw [failed] at outcome
  generalize (evaluate line calculator).2.values = after at outcome
  cases outcome with
  | refused shown read => exact Assignment.oneLine_message single.trim read
  | failed shown read evaluated =>
    obtain ⟨last, same, -⟩ := evaluateExpression_eq_mk calculator evaluated
    exact oneLine_message_of_evaluateExpression (congrArg Prod.fst same)
  | overflowed shown read evaluated compound outside =>
    exact ArithmeticFault.oneLine_message (.overflow _ _ _)

end Calculator

namespace Variables

theorem Sound.oneLine_text {values : Variables} (sound : values.Sound) : values.text.OneLine := by
  have single (part : Text) (member : part ∈ values.entries.map entryText) : part.OneLine := by
    obtain ⟨⟨name, value⟩, here, rfl⟩ := List.mem_map.1 member
    have valid := sound.valid name (List.mem_map_of_mem here)
    exact notMem_entryText valid value (by decide) (by decide) (by decide)
  have comma : Text.OneLine [','] := by decide
  have joined := Text.oneLine_intercalate comma single
  rw [text, ← List.singleton_append, Text.oneLine_append, Text.oneLine_append]
  exact ⟨⟨by decide, joined⟩, by decide⟩

end Variables

end LineCalculator
