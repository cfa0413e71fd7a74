import LineCalculator.Proofs.Display
import LineCalculator.Proofs.Equality

/-! Replaying what was shown. The entries in the text of variables are lines, and evaluating them one
after the other on a new calculator makes the variables again, in their order. Only the least value
is lost: it is written as the opposite of a literal, and that literal is too large. -/

namespace LineCalculator

namespace Text

theorem items_ofNat (n : Nat) :
    Text.items (Decimal.ofNat n) = [.ok (.number (Decimal.ofNat n))] :=
  items_digits (Decimal.ofNat_ne_nil n) fun _ => Decimal.isDigit_of_mem_ofNat

theorem items_negated (n : Nat) :
    Text.items ('-' :: Decimal.ofNat n) =
      [.ok (.operator .subtract), .ok (.number (Decimal.ofNat n))] := by
  have apart : (Decimal.ofNat n).head? ≠ some '-' := by
    intro first
    have digit := Decimal.isDigit_of_mem_ofNat (List.mem_of_mem_head? first)
    cases digit
  rw [items_sign_cons apart, items_ofNat]

theorem reading_ofNat (n : Nat) :
    Text.reading (Decimal.ofNat n) = .whole (.literal (Decimal.ofNat n)) [] := by
  rw [reading, items_ofNat]
  rfl

theorem reading_negated (n : Nat) :
    Text.reading ('-' :: Decimal.ofNat n) =
      .whole (.opposite (.literal (Decimal.ofNat n))) [] := by
  rw [reading, items_negated]
  rfl

theorem evaluate_literal_ofNat {n : Nat} (fits : (n : Int) ≤ maxValue) (values : Variables) :
    (Tree.literal (Decimal.ofNat n)).evaluate values = (.ok (n : Int), values) := by
  have small : literalValue (Decimal.ofNat n) = .ok (n : Int) := by
    rw [literalValue, Decimal.value_ofNat, if_pos fits]
  rw [Tree.evaluate, small]
  rfl

theorem evaluate_ofInt {value : Int} (inside : InRange value) (other : value ≠ minValue)
    (values : Variables) :
    (Text.reading (Decimal.ofInt value)).evaluate values = (.ok value, values) := by
  simp only [InRange, minValue] at inside other
  cases value with
  | ofNat n =>
    rw [Decimal.ofInt, reading_ofNat]
    exact evaluate_literal_ofNat inside.2 values
  | negSucc n =>
    have fits : ((n + 1 : Nat) : Int) ≤ maxValue := by
      simp only [maxValue]
      omega
    have opposite : negate ((n + 1 : Nat) : Int) = .ok (Int.negSucc n) := by
      rw [negate, if_pos (by simp only [InRange, minValue, maxValue]; omega), Int.negSucc_eq]
      rfl
    rw [Decimal.ofInt, reading_negated, Reading.evaluate, Tree.evaluate,
      Action.apply_bind_of_ok (evaluate_literal_ofNat fits values), opposite]
    rfl

theorem evaluate_ofInt_minValue (values : Variables) :
    (Text.reading (Decimal.ofInt minValue)).evaluate values =
      (.error (.reading (.literalTooLarge "9223372036854775808".toList)), values) := by
  have written : Decimal.ofInt minValue = '-' :: Decimal.ofNat 9223372036854775808 := rfl
  rw [written, reading_negated]
  rfl

end Text

namespace Variables

theorem entries_set_of_notMem {values : Variables} {name : Text} (fresh : name ∉ values.names)
    (value : Int) : (values.set name value).entries = values.entries ++ [(name, value)] := by
  have appended (entries : List (Text × Int)) (fresh : name ∉ entries.map Prod.fst) :
      assign name value entries = entries ++ [(name, value)] := by
    induction entries with
    | nil => rfl
    | cons entry later ih =>
      rw [List.map_cons, List.mem_cons, not_or] at fresh
      rw [assign, if_neg fresh.1, ih fresh.2, List.cons_append]
  exact appended values.entries fresh

def replayable (entries : List (Text × Int)) : List (Text × Int) :=
  entries.filter fun entry => entry.2 ≠ minValue

end Variables

namespace Calculator

open Variables

variable {name : Text} (valid : Name.isValid name = true) (calculator : Calculator)

include valid

theorem evaluate_entryText {value : Int} (inside : InRange value) (other : value ≠ minValue) :
    (evaluate (entryText (name, value)) calculator).1 = .ok () ∧
      (evaluate (entryText (name, value)) calculator).2.values =
        calculator.values.set name value :=
  evaluate_of_gives (ofLine_trim_entryText valid value)
    (Text.evaluate_ofInt inside other calculator.values) rfl

theorem evaluate_entryText_minValue :
    (evaluate (entryText (name, minValue)) calculator).1 =
        .error (.reading (.literalTooLarge "9223372036854775808".toList)) ∧
      (evaluate (entryText (name, minValue)) calculator).2.values = calculator.values :=
  evaluate_of_fault (ofLine_trim_entryText valid minValue)
    (Text.evaluate_ofInt_minValue calculator.values)

omit valid

theorem entries_evaluate_entryText {entry : Text × Int} (valid : Name.isValid entry.1 = true)
    (inside : InRange entry.2) {calculator : Calculator}
    (fresh : entry.1 ∉ calculator.values.names) :
    (evaluate (entryText entry) calculator).2.values.entries =
      calculator.values.entries ++ replayable [entry] := by
  obtain ⟨name, value⟩ := entry
  by_cases least : value = minValue
  · subst least
    rw [(evaluate_entryText_minValue valid calculator).2]
    exact (List.append_nil _).symm
  · rw [(evaluate_entryText valid calculator inside least).2, entries_set_of_notMem fresh]
    simp [replayable, least]

theorem entries_evaluateAll_entryText {entries : List (Text × Int)}
    (valid : ∀ entry ∈ entries, Name.isValid entry.1 = true)
    (inside : ∀ entry ∈ entries, InRange entry.2) (distinct : (entries.map Prod.fst).Nodup)
    {calculator : Calculator} (fresh : ∀ entry ∈ entries, entry.1 ∉ calculator.values.names) :
    (evaluateAll (entries.map entryText) calculator).values.entries =
      calculator.values.entries ++ replayable entries := by
  induction entries generalizing calculator with
  | nil => exact (List.append_nil _).symm
  | cons entry later ih =>
    rw [List.map_cons, List.nodup_cons] at distinct
    rw [List.forall_mem_cons] at valid inside fresh
    have step := entries_evaluate_entryText valid.1 inside.1 fresh.1
    have still : ∀ other ∈ later,
        other.1 ∉ (evaluate (entryText entry) calculator).2.values.names := by
      intro other here member
      rw [names, step, List.map_append, List.mem_append] at member
      rcases member with known | added
      · exact fresh.2 other here known
      · obtain ⟨same, only, named⟩ := List.mem_map.1 added
        have first : same = entry := by simpa using (List.mem_filter.1 only).1
        exact distinct.1 (first ▸ named ▸ List.mem_map_of_mem here)
    change (evaluateAll (later.map entryText) (evaluate (entryText entry) calculator).2).values.entries
      = _
    rw [ih valid.2 inside.2 distinct.2 still, step, List.append_assoc]
    congr 1
    exact (List.filter_append [entry] later).symm

/-- The entries in the text of the variables that some lines have made are lines themselves. On a new
calculator each of them succeeds, except that one with the least value fails, since its literal is
too large, and changes nothing. In the end all other entries are there again in their order. -/
theorem evaluateAll_shown (lines : List Text) :
    let values := (evaluateAll lines new).values
    values.text.entries = values.entries.map entryText ∧
      (∀ earlier name value later, values.entries = earlier ++ (name, value) :: later →
        let before := evaluateAll (earlier.map entryText) new
        let result := evaluate (entryText (name, value)) before
        (value ≠ minValue → result.1 = .ok ()) ∧
          (value = minValue →
            result.1 = .error (.reading (.literalTooLarge "9223372036854775808".toList)) ∧
              result.2.values = before.values)) ∧
      (evaluateAll values.text.entries new).values.entries =
        values.entries.filter fun entry => entry.2 ≠ minValue := by
  intro values
  have sound : values.Sound := sound_evaluateAll lines sound_empty
  have valid (entry : Text × Int) (here : entry ∈ values.entries) :
      Name.isValid entry.1 = true :=
    sound.valid entry.1 (List.mem_map_of_mem here)
  have inside (entry : Text × Int) (here : entry ∈ values.entries) : InRange entry.2 :=
    sound.bounded entry.1 entry.2 (find?_eq_some_iff.2 here)
  refine ⟨sound.entries_text, ?_, ?_⟩
  · intro earlier name value later split before result
    have here : (name, value) ∈ values.entries := by simp [split]
    constructor
    · intro other
      exact (evaluate_entryText (valid _ here) before (inside _ here) other).1
    · rintro rfl
      exact evaluate_entryText_minValue (valid _ here) before
  · rw [sound.entries_text, entries_evaluateAll_entryText valid inside sound.distinct
      fun entry here known => by cases known]
    rfl

theorem evaluateAll_shown_without_least :
    let lines : List Text := ["x = -9223372036854775807 - 1".toList, "y = 7".toList]
    let values := (evaluateAll lines new).values
    values.text = "(x=-9223372036854775808,y=7)".toList ∧
      (evaluate "x=-9223372036854775808".toList new).1 =
        .error (.reading (.literalTooLarge "9223372036854775808".toList)) ∧
      (evaluateAll values.text.entries new).values.entries = [(['y'], 7)] := by
  intro lines values
  have scanned : Text.items "-9223372036854775807 - 1".toList = [.ok (.operator .subtract),
      .ok (.number "9223372036854775807".toList), .ok (.operator .subtract), .ok (.number ['1'])] :=
    Text.items_eq _
  have evaluated : (Text.reading "-9223372036854775807 - 1".toList).evaluate new.values =
      (.ok minValue, .empty) := by
    rw [Text.reading, scanned]
    rfl
  have again : (Text.reading (Decimal.ofInt 7)).evaluate (Variables.empty.set ['x'] minValue) =
      (.ok 7, Variables.empty.set ['x'] minValue) :=
    Text.evaluate_ofInt (by decide) (by decide) _
  have read : Assignment.ofLine (Text.trim "x = -9223372036854775807 - 1".toList) =
      .ok ⟨['x'], .replace, "-9223372036854775807 - 1".toList⟩ := rfl
  have readAgain : Assignment.ofLine (Text.trim "y = 7".toList) =
      .ok ⟨['y'], .replace, Decimal.ofInt 7⟩ := rfl
  have first := (evaluate_of_gives read evaluated rfl).2
  rw [← first] at again
  have second := (evaluate_of_gives readAgain again rfl).2
  rw [first] at second
  have held : values.entries = [(['x'], minValue), (['y'], 7)] :=
    congrArg Variables.entries second
  obtain ⟨-, each, replayed⟩ := evaluateAll_shown lines
  refine ⟨?_, ((each [] ['x'] minValue [(['y'], 7)] held).2 rfl).1, ?_⟩
  · rw [text, held]
    rfl
  · refine replayed.trans ?_
    rw [held]
    rfl

end Calculator

end LineCalculator
