import LineCalculator.Proofs.Display
import LineCalculator.Proofs.Spacing

/-! Assignments written on a line, with spaces around the operator. If no equals sign stands in the
expression, the line is read back as the assignment, up to the blank characters around the
expression. Those hold no token, since each of them is a gap or a fault of its own. -/

namespace LineCalculator

namespace Text

theorem exists_trimEnd_append (t : Text) :
    ∃ ending, allBlank ending = true ∧ t = t.trimEnd ++ ending := by
  refine ⟨(t.reverse.takeWhile isBlank).reverse, by simp [allBlank, List.all_takeWhile], ?_⟩
  rw [trimEnd, ← List.reverse_append, List.takeWhile_append_dropWhile, List.reverse_reverse]

theorem exists_margins (t : Text) :
    ∃ before behind, allBlank before = true ∧ allBlank behind = true ∧
      t = before ++ (t.trim ++ behind) := by
  obtain ⟨ending, blank, split⟩ := exists_trimEnd_append (t.dropWhile isBlank)
  refine ⟨t.takeWhile isBlank, ending, List.all_takeWhile, blank, ?_⟩
  rw [trim, ← split, List.takeWhile_append_dropWhile]

theorem trim_trimEnd (t : Text) : t.trimEnd.trim = t.trim := by
  obtain ⟨ending, blank, split⟩ := exists_trimEnd_append t
  rw [split, trim_append blank, ← split]

theorem trimEnd_append_of_shown {t : Text} (shown : t.trim ≠ []) (front : Text) :
    trimEnd (front ++ t) = front ++ t.trimEnd := by
  have kept : t.trimEnd ≠ [] := by rwa [Ne, trimEnd_eq_nil_iff, ← trim_eq_nil_iff]
  induction front with
  | nil => rfl
  | cons c front ih => rw [List.cons_append, trimEnd_cons, ih, if_neg (by simp [kept])]; rfl

theorem trim_of_unblank_cons {c : Char} (shown : isBlank c = false) (rest : Text) :
    trim (c :: rest) = trimEnd (c :: rest) := by
  simp [trim, shown]

theorem trim_name_append {name t : Text} (valid : Name.isValid name = true) (shown : t.trim ≠ [])
    (between : Text) : trim (name ++ (between ++ t)) = name ++ (between ++ t.trimEnd) := by
  cases name with
  | nil => cases valid
  | cons c parts =>
    have visible : isBlank c = false :=
      Name.isBlank_of_isPart (Name.isPart_of_mem valid List.mem_cons_self)
    rw [List.cons_append, trim_of_unblank_cons visible, ← List.cons_append, ← List.append_assoc,
      trimEnd_append_of_shown shown, List.append_assoc]

theorem trimEnd_name {name : Text} (valid : Name.isValid name = true) : name.trimEnd = name := by
  have whole := trim_name valid
  cases name with
  | nil => rfl
  | cons c parts =>
    have visible : isBlank c = false :=
      Name.isBlank_of_isPart (Name.isPart_of_mem valid List.mem_cons_self)
    rwa [trim_of_unblank_cons visible] at whole

theorem items_suffix_blank_cons {c : Char} (blank : isBlank c = true) (rest : Text) :
    items rest <:+ items (c :: rest) := by
  cases gap : isGap c with
  | true => exact (items_gap_cons gap rest).symm ▸ List.suffix_rfl
  | false =>
    have part := Name.isPart_of_isBlank blank
    have sign (step : Step) : c ≠ step.operator.symbol := by
      rintro rfl
      cases step <;> cases blank
    have symbol : Token.ofSymbol? c = none := by
      cases known : Token.ofSymbol? c with
      | none => rfl
      | some token =>
        rcases Token.ofSymbol?_cases known with ⟨rfl, -⟩ | ⟨rfl, -⟩ | ⟨rfl, -⟩ <;> cases blank
    have read := Unread.next_of_lexeme (.unexpected gap sign (Name.isDigit_eq_false part)
      (Name.isStart_eq_false part) symbol rest)
    rw [items, items, Unread.items_of_item read (by simp)]
    exact List.suffix_cons ..

theorem items_suffix_blank_append {before : Text} (blank : allBlank before = true) (rest : Text) :
    items rest <:+ items (before ++ rest) := by
  induction before with
  | nil => exact List.suffix_rfl
  | cons c before ih =>
    simp only [allBlank, List.all_cons, Bool.and_eq_true] at blank
    exact (ih blank.2).trans (items_suffix_blank_cons blank.1 (before ++ rest))

theorem apart_of_allBlank {behind : Text} (blank : allBlank behind = true) : behind.Apart := by
  cases behind with
  | nil => exact stopsAt_nil _
  | cons c behind =>
    simp only [allBlank, List.all_cons, Bool.and_eq_true] at blank
    refine stopsAt_cons ?_ behind
    have plus : c ≠ '+' := by rintro rfl; cases blank.1
    have minus : c ≠ '-' := by rintro rfl; cases blank.1
    simp [Name.isPart_of_isBlank blank.1, plus, minus]

theorem mem_items_of_trim {t : Text} {item : Item} (here : item ∈ t.trim.items) :
    item ∈ t.items := by
  obtain ⟨before, behind, blankBefore, blankBehind, split⟩ := t.exists_margins
  rw [split]
  refine (items_suffix_blank_append blankBefore _).subset ?_
  rw [items_append (apart_of_allBlank blankBehind)]
  exact List.mem_append_left _ here

end Text

theorem Text.not_infix_equals {front rest : Text} {c d : Char} (missing : '=' ∉ front)
    (before : '=' ≠ d) (absent : '=' ∉ rest) (other : c ≠ d) :
    ¬[c, '='] <:+: front ++ d :: '=' :: rest := by
  rintro ⟨earlier, later, split⟩
  have same : (front ++ [d]) ++ '=' :: rest = (earlier ++ [c]) ++ '=' :: later := by simp [← split]
  have place := ((List.append_cons_inj_of_notMem (by simp [missing, before]) absent).1 same).1
  exact other (List.singleton_inj.1 (List.append_inj_right' place rfl)).symm

namespace AssignmentForm

theorem equals_mem_symbol (form : AssignmentForm) : '=' ∈ form.symbol := by
  cases form <;> decide

theorem comesFirst_of_spaced (form : AssignmentForm) {front rest : Text} (missing : '=' ∉ front)
    (absent : '=' ∉ rest) : form.ComesFirst (front ++ ([' '] ++ form.symbol ++ rest)) := by
  cases form with
  | addTo => exact ⟨front ++ [' '], rest, by simp [symbol]⟩
  | subtractFrom =>
    refine ⟨?_, front ++ [' '], rest, by simp [symbol]⟩
    have signed : '=' ∉ front ++ [' '] := by simp [missing]
    simpa [symbol] using Text.not_infix_equals signed (by decide : '=' ≠ '-') absent
      (by decide : '+' ≠ '-')
  | replace =>
    refine ⟨?_, ?_, front ++ [' '], rest, by simp [symbol]⟩
    · exact Text.not_infix_equals missing (by decide) absent (by decide)
    · exact Text.not_infix_equals missing (by decide) absent (by decide)

end AssignmentForm

namespace Assignment

def text (assignment : Assignment) : Text :=
  assignment.target ++ ([' '] ++ assignment.form.symbol ++ [' '] ++ assignment.expression)

section Written

variable {assignment : Assignment} (valid : Name.isValid assignment.target = true)
  (shown : assignment.expression.trim ≠ [])

include valid shown

theorem trim_text : assignment.text.trim = assignment.target ++
    ([' '] ++ assignment.form.symbol ++ [' '] ++ assignment.expression.trimEnd) :=
  Text.trim_name_append valid shown _

theorem ofLine_trim_text (free : '=' ∉ assignment.expression) : ofLine assignment.text.trim =
    .ok { assignment with expression := assignment.expression.trim } := by
  have named : '=' ∉ assignment.target := Name.notMem_of_isPart valid (by decide)
  have trimmed : '=' ∉ ' ' :: assignment.expression.trimEnd := by
    obtain ⟨ending, -, split⟩ := assignment.expression.exists_trimEnd_append
    rw [split, List.mem_append, not_or] at free
    simpa using free.1
  have without {part : Text} (absent : '=' ∉ part) : ¬assignment.form.symbol <:+: part :=
    fun inside => absent (inside.subset assignment.form.equals_mem_symbol)
  have divides : assignment.form.Divides assignment.text.trim (assignment.target ++ [' '])
      (' ' :: assignment.expression.trimEnd) 0 :=
    ⟨by simp [trim_text valid shown], without (by simp [named]), without trimmed, by simp⟩
  have first : assignment.form.ComesFirst assignment.text.trim := by
    rw [trim_text valid shown, List.append_assoc _ [' ']]
    exact AssignmentForm.comesFirst_of_spaced _ named trimmed
  have left : Text.trim (assignment.target ++ [' ']) = assignment.target := by
    rw [Text.trim_append rfl, Text.trim_name valid]
  have right : Text.trim (' ' :: assignment.expression.trimEnd) = assignment.expression.trim :=
    Text.trim_trimEnd assignment.expression
  rw [ofLine_of_divides first divides, left, right, if_pos valid]

end Written

end Assignment

end LineCalculator
