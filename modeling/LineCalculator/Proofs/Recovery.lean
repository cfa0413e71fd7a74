import LineCalculator.Proofs.Display

/-! Reading variables off their text. Names hold neither commas nor equals signs, and neither do
decimal notations, so the commas stand between the entries and the one equals sign of an entry
stands behind its name.

The main statement is that cutting the text there gives all names and values back in their order, so
that variables have one text only if they are the same. -/

namespace LineCalculator

def Text.entry? (piece : Text) : Option (Text × Int) :=
  match pieces ['='] piece with
  | [name, digits] => some (name, Decimal.toInt digits)
  | _ => none

namespace Variables

theorem pieces_entryText {name : Text} (valid : Name.isValid name = true) (value : Int) :
    Text.pieces ['='] (entryText (name, value)) = [name, Decimal.ofInt value] := by
  have joined : entryText (name, value) = ['='].intercalate [name, Decimal.ofInt value] := by
    simp [entryText]
  have named : '=' ∉ name := Name.notMem_of_isPart valid (by decide)
  have held : '=' ∉ Decimal.ofInt value := Decimal.notMem_ofInt (by decide) (by decide) value
  rw [joined]
  refine Text.pieces_intercalate (by simp) (by simp) (by simp) fun part member inside => ?_
  have equals : '=' ∈ part := inside.subset List.mem_cons_self
  simp only [List.mem_cons, List.not_mem_nil, or_false] at member
  rcases member with rfl | rfl
  · exact named equals
  · exact held equals

theorem entry?_entryText {name : Text} (valid : Name.isValid name = true) (value : Int) :
    Text.entry? (entryText (name, value)) = some (name, value) := by
  simp only [Text.entry?, pieces_entryText valid, Decimal.toInt_ofInt]

namespace Named

variable {values : Variables} (named : values.Named)

include named

theorem isValid_of_mem {entry : Text × Int} (here : entry ∈ values.entries) :
    Name.isValid entry.1 = true :=
  named entry.1 (List.mem_map_of_mem here)

theorem map_pieces_entries_text :
    values.text.entries.map (Text.pieces ['=']) =
      values.entries.map fun entry => [entry.1, Decimal.ofInt entry.2] := by
  rw [named.entries_text, List.map_map]
  exact List.map_congr_left fun entry here => pieces_entryText (named.isValid_of_mem here) entry.2

theorem filterMap_entry?_entries_text :
    values.text.entries.filterMap Text.entry? = values.entries := by
  have each : ∀ entry ∈ values.entries, (Text.entry? ∘ entryText) entry = some entry :=
    fun entry here => entry?_entryText (named.isValid_of_mem here) entry.2
  rw [named.entries_text, List.filterMap_map, List.filterMap_congr each, List.filterMap_some]

end Named

theorem text_eq_parentheses_iff {values : Variables} :
    values.text = "()".toList ↔ values = .empty := by
  have none : values = .empty ↔ values.entries = [] := Variables.ext_iff
  rw [none, ← intercalate_entryText_eq_nil_iff, text]
  simp

/-- Texts of variables with valid names are equal exactly when the variables are, with the same
names and values in the same order. Such a text, cut at the commas between its parentheses, shows
one entry after the other, and every entry, cut at its equals sign, shows a name and the notation of
its value. Only the text of no variables shows nothing. Whatever lines a calculator has evaluated, its
variables have valid names. -/
theorem text_unambiguous :
    (∀ left right : Variables, left.Named → right.Named →
      (left.text = right.text ↔ left.entries = right.entries)) ∧
    (∀ values : Variables, values.Named →
      values.text.entries.map (Text.pieces ['=']) =
          values.entries.map (fun entry => [entry.1, Decimal.ofInt entry.2]) ∧
        values.text.entries.filterMap Text.entry? = values.entries) ∧
    (∀ values : Variables, values.text = "()".toList ↔ values = .empty) ∧
    ∀ lines, (Calculator.evaluateAll lines .new).values.Named := by
  refine ⟨fun left right leftNamed rightNamed => ⟨fun same => ?_, fun same => ?_⟩,
    fun values named => ⟨named.map_pieces_entries_text, named.filterMap_entry?_entries_text⟩,
    fun values => text_eq_parentheses_iff,
    fun lines => (Calculator.sound_evaluateAll lines sound_empty).valid⟩
  · rw [← leftNamed.filterMap_entry?_entries_text, same, rightNamed.filterMap_entry?_entries_text]
  · rw [text, same, text]

theorem text_unambiguous_of_exchanged :
    let values : Variables := ⟨[("a".toList, minValue), ("b_1".toList, maxValue)], by decide⟩
    let exchanged : Variables := ⟨[("b_1".toList, maxValue), ("a".toList, minValue)], by decide⟩
    values.text = "(a=-9223372036854775808,b_1=9223372036854775807)".toList ∧
      values.text ≠ exchanged.text ∧
      (Text.entries "(a=-9223372036854775808,b_1=9223372036854775807)".toList).filterMap
        Text.entry? = values.entries := by
  intro values exchanged
  have named : values.Named := by decide
  have otherNamed : exchanged.Named := by decide
  have shown : values.text = "(a=-9223372036854775808,b_1=9223372036854775807)".toList := rfl
  obtain ⟨equal, told, -, -⟩ := text_unambiguous
  refine ⟨shown, fun same => ?_, shown ▸ (told values named).2⟩
  exact absurd ((equal values exchanged named otherNamed).1 same) (by decide)

end Variables

end LineCalculator
