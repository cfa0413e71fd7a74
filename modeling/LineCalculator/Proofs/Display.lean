import LineCalculator.Proofs.Invariant
import LineCalculator.Proofs.Lexeme
import LineCalculator.Proofs.Splitting
import Mathlib.Data.List.Basic

/-! The text of variables. An entry is written with letters, digits, underscores, one equals sign and
perhaps a minus sign behind it, so it holds no blank character, no comma and no operator of a
compound assignment. The commas of the text stand between the entries, and each entry is a line that
assigns the value to the name. -/

namespace LineCalculator

namespace Name

theorem isBlank_of_isPart {c : Char} (part : isPart c = true) : Text.isBlank c = false := by
  have ranges : (((decide ('A'.val ≤ c.val ∧ c.val ≤ 'Z'.val) ||
      decide ('a'.val ≤ c.val) && decide (c.val ≤ 'z'.val)) ||
      decide ('0'.val ≤ c.val) && decide (c.val ≤ '9'.val)) || c == '_') = true := part
  simp only [Bool.or_eq_true, Bool.and_eq_true, decide_eq_true_eq, beq_iff_eq,
    UInt32.le_iff_toNat_le] at ranges
  change ((65 ≤ c.toNat ∧ c.toNat ≤ 90 ∨ 97 ≤ c.toNat ∧ c.toNat ≤ 122) ∨
    48 ≤ c.toNat ∧ c.toNat ≤ 57) ∨ c = '_' at ranges
  rcases ranges with range | rfl
  · simp only [Text.isBlank, Text.blankRanges, List.any_cons, List.any_nil, Bool.or_false,
      Bool.or_eq_false_iff, Bool.and_eq_false_iff, decide_eq_false_iff_not]
    omega
  · decide

theorem isPart_of_isBlank {c : Char} (blank : Text.isBlank c = true) : isPart c = false :=
  Bool.eq_false_iff.2 fun part => by simp [isBlank_of_isPart part] at blank

theorem notMem_of_isPart {name : Text} (valid : isValid name = true) {c : Char}
    (other : isPart c = false) : c ∉ name := by
  intro member
  rw [isPart_of_mem valid member] at other
  cases other

end Name

namespace Text

theorem trim_of_unblank {t : Text} (shown : ∀ c ∈ t, isBlank c = false) : t.trim = t := by
  have kept {t : Text} (shown : ∀ c ∈ t, isBlank c = false) : t.dropWhile isBlank = t := by
    cases t with
    | nil => rfl
    | cons c rest => rw [List.dropWhile_cons_of_neg (by simp [shown c])]
  have backwards : ∀ c ∈ t.reverse, isBlank c = false := by simpa using shown
  rw [trim, trimEnd, kept shown, kept backwards, List.reverse_reverse]

theorem trim_name {name : Text} (valid : Name.isValid name = true) : name.trim = name :=
  trim_of_unblank fun _ here => Name.isBlank_of_isPart (Name.isPart_of_mem valid here)

/-- What stands between the outer characters of a text, cut at the commas. -/
def entries (t : Text) : List Text :=
  match t.tail.dropLast with
  | [] => []
  | inside => pieces [','] inside

end Text

namespace Decimal

theorem mem_ofInt {value : Int} {c : Char} (member : c ∈ ofInt value) :
    c = '-' ∨ c.isDigit = true := by
  cases value with
  | ofNat n => exact .inr (isDigit_of_mem_ofNat member)
  | negSucc n => exact (List.mem_cons.1 member).imp_right isDigit_of_mem_ofNat

theorem ofInt_ne_nil (value : Int) : ofInt value ≠ [] := by
  cases value with
  | ofNat n => exact ofNat_ne_nil n
  | negSucc n => exact List.cons_ne_nil _ _

theorem notMem_ofInt {c : Char} (sign : c ≠ '-') (digit : c.isDigit = false) (value : Int) :
    c ∉ ofInt value := by
  intro member
  rcases mem_ofInt member with same | other
  · exact sign same
  · rw [digit] at other
    cases other

end Decimal

namespace Variables

variable {name : Text} (valid : Name.isValid name = true) (value : Int)

include valid

theorem notMem_entryText {c : Char} (part : Name.isPart c = false) (equals : c ≠ '=')
    (sign : c ≠ '-') : c ∉ entryText (name, value) := by
  have digit := Name.isDigit_eq_false part
  rw [entryText, List.mem_append, List.mem_cons]
  rintro (named | same | held)
  · exact Name.notMem_of_isPart valid part named
  · exact equals same
  · exact Decimal.notMem_ofInt sign digit value held

theorem trim_entryText : (entryText (name, value)).trim = entryText (name, value) := by
  refine Text.trim_of_unblank fun c member => ?_
  cases blank : Text.isBlank c with
  | false => rfl
  | true =>
    refine absurd member (notMem_entryText valid value (Name.isPart_of_isBlank blank) ?_ ?_)
    · rintro rfl
      cases blank
    · rintro rfl
      cases blank

theorem eq_of_entryText_split {front rest : Text}
    (split : entryText (name, value) = front ++ '=' :: rest) :
    front = name ∧ rest = Decimal.ofInt value := by
  have named : '=' ∉ name := Name.notMem_of_isPart valid (by decide)
  have held : '=' ∉ Decimal.ofInt value := Decimal.notMem_ofInt (by decide) (by decide) value
  obtain ⟨same, -, last⟩ := (List.append_cons_inj_of_notMem named held).1 split
  exact ⟨same.symm, last.symm⟩

theorem ofLine_entryText :
    Assignment.ofLine (entryText (name, value)) =
      .ok ⟨name, .replace, Decimal.ofInt value⟩ := by
  have named : '=' ∉ name := Name.notMem_of_isPart valid (by decide)
  have held : '=' ∉ Decimal.ofInt value := Decimal.notMem_ofInt (by decide) (by decide) value
  have first : AssignmentForm.ComesFirst (entryText (name, value)) .replace := by
    refine ⟨fun plus => ?_, ?_, ⟨name, Decimal.ofInt value, by simp [entryText]⟩⟩
    · exact notMem_entryText valid value (by decide) (by decide) (by decide)
        (plus.subset List.mem_cons_self)
    · rintro ⟨front, rest, split⟩
      have cut : entryText (name, value) = (front ++ ['-']) ++ '=' :: rest := by
        rw [← split]
        simp
      have same := (eq_of_entryText_split valid value cut).1
      have sign : '-' ∈ name := by simp [← same]
      exact Name.notMem_of_isPart valid (by decide) sign
  have free {part : Text} (absent : '=' ∉ part) : ¬AssignmentForm.replace.symbol <:+: part :=
    fun inside => absent (inside.subset List.mem_cons_self)
  have divides : AssignmentForm.replace.Divides (entryText (name, value)) name
      (Decimal.ofInt value) 0 :=
    ⟨by simp [entryText, AssignmentForm.symbol], free named, free held,
      Decimal.ofInt_ne_nil value⟩
  have trimmedValue : Text.trim (Decimal.ofInt value) = Decimal.ofInt value := by
    refine Text.trim_of_unblank fun c member => ?_
    rcases Decimal.mem_ofInt member with rfl | digit
    · rfl
    · exact Name.isBlank_of_isPart (Name.isPart_of_isDigit digit)
  rw [Assignment.ofLine_of_divides first divides, Text.trim_name valid, trimmedValue, if_pos valid]

theorem ofLine_trim_entryText :
    Assignment.ofLine (entryText (name, value)).trim =
      .ok ⟨name, .replace, Decimal.ofInt value⟩ := by
  rw [trim_entryText valid, ofLine_entryText valid]

omit valid

theorem intercalate_entryText_eq_nil_iff {entries : List (Text × Int)} :
    [','].intercalate (entries.map entryText) = [] ↔ entries = [] := by
  cases entries with
  | nil => simp
  | cons first later => cases later <;> simp [entryText, List.intercalate_cons_cons]

def Named (values : Variables) : Prop :=
  ∀ name ∈ values.names, Name.isValid name = true

instance (values : Variables) : Decidable values.Named :=
  inferInstanceAs (Decidable (∀ name ∈ values.names, Name.isValid name = true))

theorem Named.entries_text {values : Variables} (named : values.Named) :
    values.text.entries = values.entries.map entryText := by
  have inside : values.text.tail.dropLast =
      List.intercalate [','] (values.entries.map entryText) := by
    rw [text, List.cons_append, List.tail_cons, List.dropLast_concat]
  have free (part : Text) (member : part ∈ values.entries.map entryText) :
      ¬[','] <:+: part := by
    obtain ⟨⟨name, value⟩, here, rfl⟩ := List.mem_map.1 member
    have valid := named name (List.mem_map_of_mem here)
    intro comma
    exact notMem_entryText valid value (by decide) (by decide) (by decide)
      (comma.subset List.mem_cons_self)
  rw [Text.entries, inside]
  cases held : values.entries with
  | nil => rfl
  | cons first later =>
    rw [held] at free
    have shown : List.intercalate [','] ((first :: later).map entryText) ≠ [] :=
      mt intercalate_entryText_eq_nil_iff.1 (List.cons_ne_nil first later)
    split
    · contradiction
    · exact Text.pieces_intercalate (by simp) (by simp) (by simp) free

theorem Sound.entries_text {values : Variables} (sound : values.Sound) :
    values.text.entries = values.entries.map entryText :=
  Named.entries_text sound.valid

end Variables

end LineCalculator
