import LineCalculator.Proofs.Evaluation
import LineCalculator.Proofs.Position
import LineCalculator.Proofs.Printing
import Mathlib.Algebra.Group.Nat.Defs

/-! Numbers that are too large. Reading a numeral can fail in several ways, and an expression
reports all of them as one. That hides nothing: a number is read off a text as a whole run of digits,
so the only way to fail that is left is the size of its value.

The main statement is this for every number that is ever current and every fault of that kind. -/

namespace LineCalculator

inductive NumeralFlaw where
  | empty
  | invalidDigit
  | tooLarge
  | tooSmall
  deriving DecidableEq, Repr

namespace Decimal

def digit (c : Char) : Nat :=
  c.toNat - '0'.toNat

def positional : Text → Nat
  | [] => 0
  | c :: rest => digit c * 10 ^ rest.length + positional rest

def readDigits (extend : Int → Int → Int) (outside : NumeralFlaw) :
    Int → Text → Except NumeralFlaw Int
  | total, [] => .ok total
  | total, c :: rest =>
    if c.isDigit then
      if InRange (extend total (digit c)) then
        readDigits extend outside (extend total (digit c)) rest
      else
        .error outside
    else
      .error .invalidDigit

/-- Reads a numeral: a sign, if there is one, and digits. -/
def read : Text → Except NumeralFlaw Int
  | [] => .error .empty
  | ['+'] => .error .invalidDigit
  | ['-'] => .error .invalidDigit
  | '-' :: digits => readDigits (fun total digit => 10 * total - digit) .tooSmall 0 digits
  | '+' :: digits => readDigits (fun total digit => 10 * total + digit) .tooLarge 0 digits
  | digits => readDigits (fun total digit => 10 * total + digit) .tooLarge 0 digits

theorem value_eq_positional (digits : Text) : value digits = positional digits := by
  induction digits with
  | nil => rfl
  | cons c rest ih =>
    rw [value, Nat.ofDigitChars_cons, Nat.ofDigitChars_eq_ofDigitChars_zero, ← value, ih,
      positional, Nat.mul_zero, Nat.zero_add, Nat.mul_comm, digit]

theorem le_ofDigitChars (digits : Text) (total : Nat) :
    total ≤ Nat.ofDigitChars 10 digits total := by
  rw [Nat.ofDigitChars_eq_ofDigitChars_zero]
  exact Nat.le_add_right_of_le (Nat.le_mul_of_pos_left total (Nat.pow_pos (by decide)))

theorem readDigits_eq {digits : Text} (only : ∀ c ∈ digits, c.isDigit = true) {total : Nat}
    (fits : (total : Int) ≤ maxValue) :
    readDigits (fun total digit => 10 * total + digit) .tooLarge total digits =
      if (Nat.ofDigitChars 10 digits total : Int) ≤ maxValue then
        .ok (Nat.ofDigitChars 10 digits total : Int)
      else .error .tooLarge := by
  induction digits generalizing total with
  | nil => rw [readDigits, Nat.ofDigitChars_nil, if_pos fits]
  | cons c rest ih =>
    obtain ⟨here, later⟩ := List.forall_mem_cons.1 only
    have extended : 10 * (total : Int) + (digit c : Nat) =
        ((10 * total + digit c : Nat) : Int) := by
      simp
    rw [readDigits, if_pos here, extended, Nat.ofDigitChars_cons, ← digit]
    by_cases inside : ((10 * total + digit c : Nat) : Int) ≤ maxValue
    · have least : minValue ≤ ((10 * total + digit c : Nat) : Int) :=
        Int.le_trans (by decide) (Int.natCast_nonneg _)
      rw [if_pos ⟨least, inside⟩, ih later inside]
    -- Further digits do not make the number smaller again.
    · have grown := le_ofDigitChars rest (10 * total + digit c)
      have beyond : ¬((Nat.ofDigitChars 10 rest (10 * total + digit c) : Nat) : Int) ≤ maxValue :=
        fun bound => inside (Int.le_trans (Int.ofNat_le.2 grown) bound)
      rw [if_neg fun bounds => inside bounds.2, if_neg beyond]

section Digits

variable {digits : Text} (some : digits ≠ []) (only : ∀ c ∈ digits, c.isDigit = true)

include some only

theorem read_eq :
    read digits =
      if (positional digits : Int) ≤ maxValue then .ok (positional digits : Int)
      else .error .tooLarge := by
  have unsigned (sign : Char) (rest : Text) (other : sign.isDigit = false) :
      digits ≠ sign :: rest := by
    rintro rfl
    have digit := only sign List.mem_cons_self
    rw [other] at digit
    cases digit
  have plain : read digits =
      readDigits (fun total digit => 10 * total + digit) .tooLarge (0 : Nat) digits :=
    read.eq_6 digits some (unsigned '+' [] rfl) (unsigned '-' [] rfl)
      (fun rest => unsigned '-' rest rfl) fun rest => unsigned '+' rest rfl
  rw [plain, readDigits_eq only (by decide), ← value, value_eq_positional]

theorem literalValue_eq :
    literalValue digits = (read digits).mapError fun _ => .literalTooLarge digits := by
  rw [literalValue, value_eq_positional, read_eq some only]
  split <;> rfl

theorem eq_tooLarge_of_read {flaw : NumeralFlaw} (failed : read digits = .error flaw) :
    flaw = .tooLarge := by
  rw [read_eq some only] at failed
  split at failed <;> cases failed
  rfl

end Digits

end Decimal

namespace Text

/-- Digits within a text, with no digit on either side. -/
structure DigitRun (source before digits after : Text) : Prop where
  split : source = before ++ (digits ++ after)
  some : digits ≠ []
  only : ∀ c ∈ digits, c.isDigit = true
  begins : StopsAt Char.isDigit before.reverse
  ends : after.StopsAt Char.isDigit

def Parted (front rest : Text) : Prop :=
  StopsAt Char.isDigit front.reverse ∨ rest.StopsAt Char.isDigit

theorem stopsAt_reverse_concat {c : Char} (other : c.isDigit = false) (front : Text) :
    StopsAt Char.isDigit (front ++ [c]).reverse := by
  rw [List.reverse_concat]
  exact stopsAt_cons other _

theorem stopsAt_reverse_append_step (front : Text) (step : Step) :
    StopsAt Char.isDigit (front ++ step.text).reverse := by
  have split : front ++ step.text =
      (front ++ [step.operator.symbol]) ++ [step.operator.symbol] := by
    simp [Step.text]
  rw [split]
  exact stopsAt_reverse_concat (by cases step <;> rfl) _

end Text

open Text

theorem Lexeme.parted {text : Text} {item : Item} {behind : Unread}
    (lexeme : Lexeme text item behind) (front : Text) :
    Parted (front ++ Item.text item) behind.remaining := by
  cases lexeme with
  | step step rest => exact .inl (stopsAt_reverse_append_step front step)
  | sign step single => exact .inl (stopsAt_reverse_concat (by cases step <;> rfl) front)
  | symbol known rest =>
    rcases Token.ofSymbol?_cases known with ⟨-, rfl⟩ | ⟨-, rfl⟩ | ⟨-, rfl⟩ <;>
      exact .inl (stopsAt_reverse_concat rfl front)
  | number some only ends => exact .inr ends
  | name valid ends =>
    rw [Unread.remaining_behindName]
    exact .inr (ends.mono fun _ => Name.isPart_of_isDigit)
  | badName whole last ends => exact .inr (ends.mono fun _ => Name.isPart_of_isDigit)
  | unexpected gap sign digit letter symbol rest => exact .inl (stopsAt_reverse_concat digit front)

namespace Unread

theorem Reads.parted {unread behind : Unread} {item : Item} (reads : Reads unread item behind)
    (front : Text) : Parted (front ++ Item.text item) behind.remaining := by
  cases reads with
  | waiting text step later => exact .inl (stopsAt_reverse_append_step front step)
  | lexeme skipped here => exact here.parted front
  | finish skipped => exact .inr (stopsAt_nil _)

theorem Reads.number {unread behind : Unread} {digits : Text}
    (reads : Reads unread (.ok (.number digits)) behind) :
    digits ≠ [] ∧ (∀ c ∈ digits, c.isDigit = true) ∧ behind.remaining.StopsAt Char.isDigit := by
  cases reads with
  | lexeme skipped here =>
    cases here with
    | number some only ends => exact ⟨some, only, ends⟩
    | symbol known rest =>
      rcases Token.ofSymbol?_cases known with ⟨-, same⟩ | ⟨-, same⟩ | ⟨-, same⟩ <;> cases same

theorem Reads.digitRun {unread behind : Unread} {digits front gaps : Text}
    (reads : Reads unread (.ok (.number digits)) behind) (parted : Parted front unread.remaining)
    (skipped : gaps.AllGaps) (split : unread.remaining = gaps ++ (digits ++ behind.remaining)) :
    DigitRun (front ++ unread.remaining) (front ++ gaps) digits behind.remaining := by
  obtain ⟨some, only, ends⟩ := reads.number
  refine ⟨by rw [split, List.append_assoc], some, only, ?_, ends⟩
  rcases List.eq_nil_or_concat gaps with rfl | ⟨earlier, c, rfl⟩
  · rcases parted with begins | stops
    · rwa [List.append_nil]
    · obtain ⟨first, rest, rfl⟩ := List.exists_cons_of_ne_nil some
      have digit := only first List.mem_cons_self
      rw [stops first (by rw [split]; rfl)] at digit
      cases digit
  · have gap : isGap c = true := skipped c (by simp)
    have other : c.isDigit = false := Bool.eq_false_iff.2 fun digit => by
      simp [Name.isGap_of_isPart (Name.isPart_of_isDigit digit)] at gap
    rw [List.concat_eq_append, ← List.append_assoc]
    exact stopsAt_reverse_concat other _

end Unread

namespace Cursor

/-- A place at which no run of digits is cut, with a whole one for a current number. -/
structure BetweenDigits (source : Text) (cursor : Cursor) : Prop where
  parted : ∃ front, source = front ++ cursor.unread.remaining ∧ Parted front cursor.unread.remaining
  number : ∀ digits, cursor.current = .number digits → ∃ before after,
    source.DigitRun before digits after ∧ cursor.unread.remaining <:+ after

namespace BetweenDigits

variable {source : Text}

theorem start : BetweenDigits source ⟨.finish, ⟨source, []⟩⟩ where
  parted := ⟨[], rfl, .inl (stopsAt_nil _)⟩
  number _ same := by cases same

theorem advance {cursor : Cursor} (between : BetweenDigits source cursor) :
    BetweenDigits source cursor.advance.2 := by
  obtain ⟨⟨front, split, parted⟩, number⟩ := between
  have behind {item : Item} {behind : Unread} (reads : cursor.unread.Reads item behind) :
      ∃ front, source = front ++ behind.remaining ∧ Parted front behind.remaining := by
    obtain ⟨gaps, -, ahead⟩ := reads.exists_gaps
    refine ⟨(front ++ gaps) ++ Item.text item, ?_, reads.parted _⟩
    rw [split, ahead, List.append_assoc, List.append_assoc]
  have passed := cursor.remaining_advance_suffix
  rcases cursor.advance_reads with ⟨token, unread, reads, moved⟩ | ⟨fault, unread, reads, moved⟩
  · rw [moved]
    refine ⟨behind reads, fun digits same => ?_⟩
    cases same
    obtain ⟨gaps, skipped, ahead⟩ := reads.exists_gaps
    exact ⟨_, _, split ▸ reads.digitRun parted skipped ahead, List.suffix_rfl⟩
  · rw [moved] at passed ⊢
    refine ⟨behind reads, fun digits same => ?_⟩
    obtain ⟨before, after, run, earlier⟩ := number digits same
    exact ⟨before, after, run, passed.trans earlier⟩

end BetweenDigits

theorem Reached.exists_digitRun {source : Text} {cursor : Cursor} (reached : Reached source cursor)
    {digits : Text} (current : cursor.current = .number digits) :
    ∃ before after, source.DigitRun before digits after ∧ cursor.unread.remaining <:+ after :=
  (reached.holds BetweenDigits.start fun _ => BetweenDigits.advance).number digits current

end Cursor

def Fault.FaithfulTo (source : Text) (fault : Fault) : Prop :=
  ∀ digits, fault = .reading (.literalTooLarge digits) →
    (∃ before after, source.DigitRun before digits after) ∧
      maxValue < (Decimal.positional digits : Int)

theorem Text.DigitRun.faithful {source before digits after : Text}
    (run : source.DigitRun before digits after) {fault : Fault}
    (failed : (literalValue digits).mapError .reading = .error fault) :
    fault.FaithfulTo source := by
  rw [literalValue, Decimal.value_eq_positional] at failed
  split at failed
  · cases failed
  · next beyond =>
    cases failed
    rintro same ⟨⟩
    exact ⟨⟨before, after, run⟩, Int.not_le.1 beyond⟩

theorem ReadingFault.IsLexical.faithful {fault : ReadingFault} (lexical : fault.IsLexical)
    (source : Text) : (Fault.reading fault).FaithfulTo source := by
  rintro digits ⟨⟩
  cases lexical

namespace Run

def FailsFaithfully (source : Text) (_before : Run) (fault : Option Fault) (_after : Run) : Prop :=
  ∀ found, fault = some found → found.FaithfulTo source

theorem sequential_failsFaithfully (source : Text) :
    Action.Sequential (OnText source (FailsFaithfully source)) :=
  OnText.sequential
    { refl := fun run found none => by cases none
      trans := fun earlier later => later }

theorem ensures_advance_failsFaithfully (source : Text) :
    advance.Ensures (OnText source (FailsFaithfully source)) := by
  refine .advance fun run reached found failed => ?_
  rcases run.cursor.advance_reads with ⟨token, unread, reads, moved⟩ | ⟨fault, unread, reads, moved⟩
  · rw [advance, moved] at failed
    cases failed
  · rw [advance, moved] at failed
    cases failed
    exact reads.isLexical.faithful source

theorem stepwise_failsFaithfully (source : Text) :
    Stepwise (OnText source (FailsFaithfully source)) where
  toSequential := sequential_failsFaithfully source
  advance := ensures_advance_failsFaithfully source
  takeStep side step name run := by
    refine .still (cursor_takeStep side step name run) fun found failed digits same => ?_
    rw [takeStep] at failed
    split at failed <;> cases failed
    cases same
  literal {run digits} here reached := by
    obtain ⟨before, after, whole, -⟩ := reached.exists_digitRun here
    have sequential := sequential_failsFaithfully source
    have rest (_ : Token) : (Action.ofExcept ((literalValue digits).mapError .reading) :
        Action Run Fault Int).Ensures (OnText source (FailsFaithfully source)) :=
      .ofExcept sequential fun state fault failed =>
        .still rfl fun found same => Option.some.inj same ▸ whole.faithful failed
    exact Action.Ensures.bind sequential (ensures_advance_failsFaithfully source) rest run reached
  refuse run := .still rfl fun found same digits other => by cases same; cases other
  arithmetic run fault := .still rfl fun found same digits other => by cases same; cases other

end Run

namespace Calculator

theorem faithful_of_evaluateExpression {source : Text} {calculator : Calculator} {fault : Fault}
    (failed : (evaluateExpression source calculator).1 = .error fault) :
    fault.FaithfulTo source := by
  rcases (Run.stepwise_failsFaithfully source).partwise.evaluateExpression calculator with
    ⟨found, behind, reads, same⟩ | ⟨token, first, last, -, faithful, -⟩
  · rw [same] at failed
    cases failed
    exact reads.isLexical.faithful source
  · exact faithful fault (by rw [failed]; rfl)

theorem evaluateExpression_digits {digits : Text} (some : digits ≠ [])
    (only : ∀ c ∈ digits, c.isDigit = true) (calculator : Calculator) :
    (evaluateExpression digits calculator).1 =
        (if (Decimal.positional digits : Int) ≤ maxValue then .ok (Decimal.positional digits : Int)
        else .error (.reading (.literalTooLarge digits))) ∧
      (evaluateExpression digits calculator).2.values = calculator.values := by
  have scanned : Text.items digits = ([.number digits] : List Token).map .ok :=
    Text.items_digits some only
  have evaluated := evaluate_factor scanned (.literal digits) calculator
  rw [Tree.evaluate, Action.apply_ofExcept, literalValue, Decimal.value_eq_positional] at evaluated
  obtain ⟨result, values⟩ := Prod.mk.inj evaluated
  refine ⟨?_, values.symm⟩
  rw [← result]
  split <;> rfl

/-- Every number that is ever current, whatever moves were made and whichever failed, is a whole run
of digits of the text, so that reading it as a numeral can fail by its size only. Digits alone, as
many as there are and whatever zeros they begin with, are evaluated to their value by place, or are
refused as they are written if that is beyond the greatest value, and change no variable either way.
Where any expression is refused for a literal, the literal is such a run, and its value is too
large. -/
theorem too_large_only :
    (∀ source cursor digits, Cursor.Reached source cursor → cursor.current = .number digits →
      (∃ before after, source.DigitRun before digits after ∧
        cursor.unread.remaining <:+ after) ∧
      literalValue digits = (Decimal.read digits).mapError (fun _ => .literalTooLarge digits) ∧
      ∀ flaw, Decimal.read digits = .error flaw → flaw = .tooLarge) ∧
    (∀ digits : Text, digits ≠ [] → (∀ c ∈ digits, c.isDigit = true) → ∀ calculator,
      (evaluateExpression digits calculator).1 =
          (if (Decimal.positional digits : Int) ≤ maxValue then
            .ok (Decimal.positional digits : Int)
          else .error (.reading (.literalTooLarge digits))) ∧
        (evaluateExpression digits calculator).2.values = calculator.values) ∧
    ∀ source calculator digits,
      (evaluateExpression source calculator).1 = .error (.reading (.literalTooLarge digits)) →
      (∃ before after, source.DigitRun before digits after) ∧
        maxValue < (Decimal.positional digits : Int) := by
  refine ⟨fun source cursor digits reached current => ?_,
    fun digits some only calculator => evaluateExpression_digits some only calculator,
    fun source calculator digits failed => faithful_of_evaluateExpression failed digits rfl⟩
  obtain ⟨before, after, run, passed⟩ := reached.exists_digitRun current
  exact ⟨⟨before, after, run, passed⟩, Decimal.literalValue_eq run.some run.only,
    fun flaw failed => Decimal.eq_tooLarge_of_read run.some run.only failed⟩

theorem too_large_only_of_zeros :
    (∃ cursor before after, Cursor.Reached "a1 + 007 _12".toList cursor ∧
      cursor.current = .number "007".toList ∧
      Text.DigitRun "a1 + 007 _12".toList before "007".toList after ∧
      cursor.unread.remaining <:+ after) ∧
    (evaluateExpression "0009223372036854775807".toList .new).1 = .ok maxValue ∧
    (evaluateExpression "0009223372036854775808".toList .new).1 =
      .error (.reading (.literalTooLarge "0009223372036854775808".toList)) ∧
    maxValue < (Decimal.positional "0009223372036854775808".toList : Int) := by
  obtain ⟨numbers, alone, refused⟩ := too_large_only
  let first : Cursor := ⟨.name "a1".toList, ⟨" + 007 _12".toList, []⟩⟩
  have started : Cursor.start "a1 + 007 _12".toList = .ok first := by rfl
  have reached : Cursor.Reached "a1 + 007 _12".toList first.advance.2.advance.2 :=
    (Cursor.Reached.start started).advance.advance
  have current : first.advance.2.advance.2.current = .number "007".toList := by rfl
  obtain ⟨⟨before, after, run, passed⟩, -⟩ := numbers _ _ _ reached current
  have greatest : (Decimal.positional "0009223372036854775807".toList : Int) = maxValue := by
    decide +kernel
  have beyond : ¬(Decimal.positional "0009223372036854775808".toList : Int) ≤ maxValue := by
    decide +kernel
  have valued := (alone "0009223372036854775807".toList (by decide)
    (List.all_eq_true.1 rfl) .new).1
  have failed := (alone "0009223372036854775808".toList (by decide)
    (List.all_eq_true.1 rfl) .new).1
  rw [greatest, if_pos (Int.le_refl maxValue)] at valued
  rw [if_neg beyond] at failed
  exact ⟨⟨_, before, after, reached, current, run, passed⟩, valued, failed,
    (refused _ .new _ failed).2⟩

end Calculator

end LineCalculator
