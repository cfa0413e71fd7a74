import LineCalculator.Proofs.Transcript

/-! A dialogue and a script come to the same. They cut lines in different ways: a dialogue cuts
bytes behind line feeds and keeps the ends of lines, a script drops them. But a line feed is one
byte that occurs in no other character, and the ends of lines are blank, so that the replies are
the same. -/

namespace LineCalculator.Session

theorem cutBehind_toUtf8 (t : Text) :
    cutBehind (· == lineFeed) t.toUtf8 = (cutBehind (· == '\n') t).map Text.toUtf8 := by
  refine cutBehind_flatMap (fun c final => ?_) Text.utf8EncodeChar_ne_nil
    (fun c other b member => ?_) t
  · rw [beq_iff_eq.1 final]
    exact ⟨lineFeed, rfl, rfl⟩
  · rw [beq_eq_false_iff_ne] at other ⊢
    rintro rfl
    -- A byte below 128 is a whole character.
    rcases Text.toNat_of_mem_utf8EncodeChar member with same | above
    · exact other (Char.toNat_inj.1 same.symm)
    · exact absurd above (by decide)

/-- The part of a text before its first line that asks to leave, or all of it if there is none. -/
def beforeLeaving (t : Text) : Text :=
  (heard (cutBehind (· == '\n') t)).flatten

theorem cutBehind_beforeLeaving (t : Text) :
    cutBehind (· == '\n') (beforeLeaving t) = heard (cutBehind (· == '\n') t) :=
  cutBehind_flatten_of_prefix (List.takeWhile_prefix _)

theorem replies_lines (t : Text) (calculator : Calculator) :
    calculator.replies t.lines = calculator.replies (cutBehind (· == '\n') t) :=
  Calculator.replies_map Text.trim_withoutLineEnd _ calculator

end LineCalculator.Session
