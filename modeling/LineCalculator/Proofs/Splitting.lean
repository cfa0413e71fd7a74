import LineCalculator.Assignment
import Mathlib.Data.List.Induction

/-! The lines that are assignments. The operator of a line is the first of `+=`, `-=` and `=` that
stands anywhere on it, and the line must be one part on each side of that operator, up to more
operators at its end. The parts are then the first two pieces between the operators, so there is
at most one way to take a line apart. -/

namespace LineCalculator

namespace AssignmentForm

/-- Whether this is the form of the first of `+=`, `-=` and `=` that stands anywhere on the line. -/
def ComesFirst (line : Text) : AssignmentForm → Prop
  | addTo => ['+', '='] <:+: line
  | subtractFrom => ¬['+', '='] <:+: line ∧ ['-', '='] <:+: line
  | replace => ¬['+', '='] <:+: line ∧ ¬['-', '='] <:+: line ∧ ['='] <:+: line

/-- A line as two parts around an operator, which stands in neither of them. It may be repeated
behind the right part, and that part is not empty. -/
structure Divides (form : AssignmentForm) (line left right : Text) (repeats : Nat) : Prop where
  parts : line = left ++ form.symbol ++ right ++ (List.replicate repeats form.symbol).flatten
  left_free : ¬form.symbol <:+: left
  right_free : ¬form.symbol <:+: right
  right_ne_nil : right ≠ []

theorem nodup_symbol (form : AssignmentForm) : form.symbol.Nodup := by
  cases form <;> decide

theorem symbol_eq (form : AssignmentForm) :
    ∃ before, form.symbol = before ++ ['='] ∧ '=' ∉ before := by
  cases form with
  | replace => exact ⟨[], rfl, by decide⟩
  | addTo => exact ⟨['+'], rfl, by decide⟩
  | subtractFrom => exact ⟨['-'], rfl, by decide⟩

theorem ofLine?_eq_some_iff {line : Text} {form : AssignmentForm} :
    ofLine? line = some form ↔ form.ComesFirst line := by
  by_cases plus : ['+', '='] <:+: line
  · cases form <;> simp [ofLine?, searchOrder, symbol, Text.hasPart_iff, ComesFirst, plus]
  · by_cases minus : ['-', '='] <:+: line
    · cases form <;> simp [ofLine?, searchOrder, symbol, Text.hasPart_iff, ComesFirst, plus, minus]
    · by_cases equals : ['='] <:+: line <;> cases form <;>
        simp [ofLine?, searchOrder, symbol, Text.hasPart_iff, ComesFirst, plus, minus, equals]

theorem ofLine?_eq_none_iff {line : Text} : ofLine? line = none ↔ '=' ∉ line := by
  constructor
  · intro missing equals
    obtain ⟨before, behind, split⟩ := List.append_of_mem equals
    have none := List.find?_eq_none.1 missing replace (by decide)
    exact none ((Text.hasPart_iff _ _).2 ⟨before, behind, by simp [symbol, split]⟩)
  · intro missing
    refine List.find?_eq_none.2 fun form _ found => missing ?_
    obtain ⟨before, symbol, -⟩ := form.symbol_eq
    exact ((Text.hasPart_iff _ _).1 found).subset (by simp [symbol])

theorem intercalate_replicate_nil (separator part : Text) (count : Nat) :
    separator.intercalate (part :: List.replicate count []) =
      part ++ (List.replicate count separator).flatten := by
  induction count generalizing part with
  | zero => simp
  | succ count ih =>
    rw [List.replicate_succ, List.intercalate_cons_cons, ih]
    simp [List.replicate_succ]

theorem divides_iff {form : AssignmentForm} {line left right : Text} {repeats : Nat} :
    form.Divides line left right repeats ↔
      Text.pieces form.symbol line = left :: right :: List.replicate repeats [] ∧ right ≠ [] := by
  have joined : left ++ form.symbol ++ right ++ (List.replicate repeats form.symbol).flatten =
      form.symbol.intercalate (left :: right :: List.replicate repeats []) := by
    rw [List.intercalate_cons_cons, intercalate_replicate_nil, ← List.append_assoc]
  constructor
  · rintro ⟨parts, leftFree, rightFree, some⟩
    refine ⟨?_, some⟩
    rw [parts, joined]
    refine Text.pieces_intercalate form.symbol_ne_nil form.nodup_symbol (by simp) ?_
    intro part member
    rcases List.mem_cons.1 member with rfl | member
    · exact leftFree
    rcases List.mem_cons.1 member with rfl | member
    · exact rightFree
    · rw [List.eq_of_mem_replicate member, List.infix_nil]
      exact form.symbol_ne_nil
  · rintro ⟨pieces, some⟩
    have free (part : Text) (member : part ∈ left :: right :: List.replicate repeats []) :
        ¬form.symbol <:+: part :=
      Text.not_infix_of_mem_pieces form.symbol_ne_nil (pieces ▸ member)
    refine ⟨?_, free left (by simp), free right (by simp), some⟩
    rw [joined, ← pieces, Text.intercalate_pieces form.symbol_ne_nil]

theorem Divides.unique {form : AssignmentForm} {line left right left' right' : Text}
    {repeats repeats' : Nat} (first : form.Divides line left right repeats)
    (second : form.Divides line left' right' repeats') :
    left = left' ∧ right = right' ∧ repeats = repeats' := by
  have same := (divides_iff.1 first).1.symm.trans (divides_iff.1 second).1
  obtain ⟨sameLeft, same⟩ := List.cons.inj same
  obtain ⟨sameRight, same⟩ := List.cons.inj same
  exact ⟨sameLeft, sameRight, by simpa using congrArg List.length same⟩

theorem equals_notMem_of_isValid_trim {left : Text} (valid : Name.isValid left.trim = true) :
    '=' ∉ left := by
  intro member
  rcases Text.mem_trim_or_isBlank member with inside | blank
  · exact absurd (Name.isPart_of_mem valid inside) (by decide)
  · exact absurd blank (by decide)

theorem Divides.first_equals {form : AssignmentForm} {line left right : Text} {repeats : Nat}
    (divides : form.Divides line left right repeats) (valid : Name.isValid left.trim = true)
    {earlier later : Text} (split : line = earlier ++ '=' :: later) (first : '=' ∉ earlier) :
    earlier ++ ['='] = left ++ form.symbol := by
  obtain ⟨before, symbol, free⟩ := form.symbol_eq
  have front : '=' ∉ left ++ before := by
    simpa [free] using equals_notMem_of_isValid_trim valid
  have cut {front rest : Text} (absent : '=' ∉ front) :
      (front ++ '=' :: rest).takeWhile (· != '=') = front := by
    rw [List.takeWhile_append_of_pos (by simpa using fun c member => ne_of_mem_of_not_mem member absent)]
    simp
  have same : (left ++ before) ++ '=' :: (right ++ (List.replicate repeats form.symbol).flatten) =
      earlier ++ '=' :: later := by
    rw [← split, divides.parts, symbol]
    simp
  have starts := congrArg (List.takeWhile (· != '=')) same
  rw [cut front, cut first] at starts
  rw [← starts, symbol, List.append_assoc]

end AssignmentForm

namespace Assignment

open AssignmentForm

theorem withoutEmptyEnd_eq_iff {pieces kept : List Text} :
    withoutEmptyEnd pieces = kept ↔
      kept.getLast? ≠ some [] ∧ ∃ count, pieces = kept ++ List.replicate count [] := by
  induction pieces using List.reverseRecOn with
  | nil => cases kept <;> simp [withoutEmptyEnd]
  | append_singleton pieces piece ih =>
    by_cases empty : piece = []
    · have dropped : withoutEmptyEnd (pieces ++ [piece]) = withoutEmptyEnd pieces := by
        simp [withoutEmptyEnd, empty]
      rw [dropped, ih, empty]
      refine and_congr_right fun last => ⟨?_, ?_⟩
      · rintro ⟨count, rfl⟩
        exact ⟨count + 1, by simp [List.replicate_succ']⟩
      · rintro ⟨_ | count, split⟩
        · rw [List.replicate_zero, List.append_nil] at split
          exact absurd (by simp [← split]) last
        · rw [List.replicate_succ', ← List.append_assoc] at split
          exact ⟨count, List.append_cancel_right split⟩
    · have kept : withoutEmptyEnd (pieces ++ [piece]) = pieces ++ [piece] := by
        simp [withoutEmptyEnd, empty]
      rw [kept]
      constructor
      · rintro rfl
        exact ⟨by simpa using empty, 0, by simp⟩
      · rintro ⟨-, _ | count, split⟩
        · simpa using split
        · rw [List.replicate_succ', ← List.append_assoc] at split
          exact absurd (List.append_inj_right' split rfl) (by simpa using empty)

theorem withoutEmptyEnd_pieces_eq_iff {form : AssignmentForm} {line left right : Text} :
    withoutEmptyEnd (Text.pieces form.symbol line) = [left, right] ↔
      ∃ repeats, form.Divides line left right repeats := by
  simp only [withoutEmptyEnd_eq_iff, divides_iff]
  constructor
  · rintro ⟨last, repeats, pieces⟩
    exact ⟨repeats, pieces, by simpa using last⟩
  · rintro ⟨repeats, pieces, some⟩
    exact ⟨by simpa using some, repeats, pieces⟩

theorem ofLine_of_missing {line : Text} (missing : '=' ∉ line) :
    ofLine line = .error (.noAssignment line) := by
  rw [ofLine, ofLine?_eq_none_iff.2 missing]

theorem ofLine_of_divides {form : AssignmentForm} {line left right : Text} {repeats : Nat}
    (first : form.ComesFirst line) (divides : form.Divides line left right repeats) :
    ofLine line = if Name.isValid left.trim then .ok ⟨left.trim, form, right.trim⟩
      else .error (.invalidName left.trim) := by
  rw [ofLine, ofLine?_eq_some_iff.2 first]
  simp only [withoutEmptyEnd_pieces_eq_iff.2 ⟨repeats, divides⟩]

theorem ofLine_of_undivided {form : AssignmentForm} {line : Text} (first : form.ComesFirst line)
    (undivided : ¬∃ left right repeats, form.Divides line left right repeats) :
    ofLine line = .error (.notOneAssignment line) := by
  rw [ofLine, ofLine?_eq_some_iff.2 first]
  dsimp only
  split
  · next left right kept =>
    exact absurd ⟨left, right, withoutEmptyEnd_pieces_eq_iff.1 kept⟩ undivided
  · rfl

theorem missing_or_comesFirst (line : Text) :
    '=' ∉ line ∨ ∃ form : AssignmentForm, form.ComesFirst line := by
  cases found : ofLine? line with
  | none => exact .inl (ofLine?_eq_none_iff.1 found)
  | some form => exact .inr ⟨form, ofLine?_eq_some_iff.1 found⟩

theorem ofLine_eq_ok_iff {line : Text} {assignment : Assignment} :
    ofLine line = .ok assignment ↔
      assignment.form.ComesFirst line ∧ ∃ left right repeats,
        assignment.form.Divides line left right repeats ∧ Name.isValid left.trim = true ∧
        assignment.target = left.trim ∧ assignment.expression = right.trim := by
  constructor
  · intro read
    rcases missing_or_comesFirst line with missing | ⟨form, first⟩
    · rw [ofLine_of_missing missing] at read
      cases read
    by_cases divided : ∃ left right repeats, form.Divides line left right repeats
    · obtain ⟨left, right, repeats, divides⟩ := divided
      rw [ofLine_of_divides first divides] at read
      split at read
      · next valid =>
        cases read
        exact ⟨first, left, right, repeats, divides, valid, rfl, rfl⟩
      · cases read
    · rw [ofLine_of_undivided first divided] at read
      cases read
  · obtain ⟨target, form, expression⟩ := assignment
    rintro ⟨first, left, right, repeats, divides, valid, rfl, rfl⟩
    rw [ofLine_of_divides first divides, if_pos valid]

theorem ofLine_eq_error_iff {line : Text} {fault : ReadingFault} :
    ofLine line = .error fault ↔
      ('=' ∉ line ∧ fault = .noAssignment line) ∨
      ∃ form : AssignmentForm, form.ComesFirst line ∧
        (((¬∃ left right repeats, form.Divides line left right repeats) ∧
            fault = .notOneAssignment line) ∨
          ∃ left right repeats, form.Divides line left right repeats ∧
            Name.isValid left.trim = false ∧ fault = .invalidName left.trim) := by
  constructor
  · intro failed
    rcases missing_or_comesFirst line with missing | ⟨form, first⟩
    · rw [ofLine_of_missing missing] at failed
      exact .inl ⟨missing, (Except.error.inj failed).symm⟩
    by_cases divided : ∃ left right repeats, form.Divides line left right repeats
    · obtain ⟨left, right, repeats, divides⟩ := divided
      rw [ofLine_of_divides first divides] at failed
      split at failed
      · cases failed
      · next invalid =>
        exact .inr ⟨form, first, .inr ⟨left, right, repeats, divides, by simpa using invalid,
          (Except.error.inj failed).symm⟩⟩
    · rw [ofLine_of_undivided first divided] at failed
      exact .inr ⟨form, first, .inl ⟨divided, (Except.error.inj failed).symm⟩⟩
  · rintro (⟨missing, rfl⟩ | ⟨form, first, ⟨undivided, rfl⟩ |
      ⟨left, right, repeats, divides, invalid, rfl⟩⟩)
    · exact ofLine_of_missing missing
    · exact ofLine_of_undivided first undivided
    · rw [ofLine_of_divides first divides, if_neg (by simpa using invalid)]

end Assignment

end LineCalculator
