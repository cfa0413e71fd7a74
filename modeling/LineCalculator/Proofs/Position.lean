import LineCalculator.Calculator.Line
import LineCalculator.Proofs.Stability

/-! Where reading is in a text. What is still to be read, with the steps that wait in front of it,
is an end of the text: whatever moves are made, each takes gaps and the text of one item off its
front. An expression is evaluated by moves only, so that what holds of all places that moves lead to
holds of all places at which a part of it is evaluated. -/

namespace LineCalculator

namespace Unread

def remaining (unread : Unread) : Text :=
  unread.waiting.flatMap Step.text ++ unread.text

theorem remaining_of_text (t : Text) : remaining ⟨t, []⟩ = t := rfl

@[simp] theorem remaining_behindName (t : Text) : (behindName t).remaining = t := by
  obtain ⟨steps, rest, split, same, -⟩ := behindName_cases t
  rw [same, remaining, split]

@[simp] theorem remaining_behind (item : Item) (after : Text) :
    (behind item after).remaining = after := by
  rw [behind.eq_def]
  split
  · exact remaining_behindName after
  · rfl

theorem Reads.exists_gaps {unread behind : Unread} {item : Item}
    (reads : Reads unread item behind) :
    ∃ gaps : Text, gaps.AllGaps ∧
      unread.remaining = gaps ++ (Item.text item ++ behind.remaining) := by
  cases reads with
  | waiting text step later =>
    exact ⟨[], fun c here => (by cases here), List.append_assoc ..⟩
  | @lexeme gaps text _ _ skipped here =>
    obtain ⟨after, rfl, rfl, -⟩ := here.exists_behind
    exact ⟨gaps, skipped, by rw [remaining_behind, remaining_of_text]⟩
  | @finish gaps skipped => exact ⟨gaps, skipped, (List.append_nil gaps).symm⟩

theorem Reads.waiting_of_stepAfter {unread behind : Unread} {step : Step}
    (reads : Reads unread (.ok (.stepAfter step)) behind) :
    unread.waiting = step :: behind.waiting := by
  cases reads with
  | waiting text step later => rfl
  | lexeme skipped here =>
    cases here with
    | symbol known rest =>
      rcases Token.ofSymbol?_cases known with ⟨-, same⟩ | ⟨-, same⟩ | ⟨-, same⟩ <;> cases same

theorem Reads.waiting_of_none {unread behind : Unread} {item : Item}
    (reads : Reads unread item behind) (none : unread.waiting = []) :
    behind.waiting = [] ∨ ∃ name, item = .ok (.name name) ∧
      behind.waiting.Sublist [.increment, .decrement] := by
  cases reads with
  | waiting text step later => cases none
  | finish skipped => exact .inl rfl
  | lexeme skipped here =>
    cases here with
    | @name word rest valid ends =>
      obtain ⟨steps, more, -, same, sublist⟩ := behindName_cases rest
      exact .inr ⟨word, rfl, by rwa [same]⟩
    | step | sign | symbol | number | badName | unexpected => exact .inl rfl

end Unread

namespace Cursor

/-- The cursors that moves lead to from the start of a text, also moves that fail. -/
inductive Reached (source : Text) : Cursor → Prop
  | start {cursor : Cursor} (started : start source = .ok cursor) : Reached source cursor
  | advance {cursor : Cursor} (earlier : Reached source cursor) : Reached source cursor.advance.2

theorem eq_advance_of_start {source : Text} {cursor : Cursor}
    (started : start source = .ok cursor) :
    cursor = (advance ⟨.finish, ⟨source, []⟩⟩).2 := by
  rw [Cursor.start] at started
  split at started
  · next token unread read =>
    cases started
    rw [advance_of_ok _ read]
  · cases started

theorem Reached.holds {source : Text} {motive : Cursor → Prop}
    (initially : motive ⟨.finish, ⟨source, []⟩⟩)
    (kept : ∀ cursor : Cursor, motive cursor → motive cursor.advance.2) {cursor : Cursor}
    (reached : Reached source cursor) : motive cursor := by
  induction reached with
  | start started => exact eq_advance_of_start started ▸ kept _ initially
  | advance earlier ih => exact kept _ ih

theorem advance_reads (cursor : Cursor) :
    (∃ token behind, cursor.unread.Reads (.ok token) behind ∧
      cursor.advance = (.ok cursor.current, ⟨token, behind⟩)) ∨
    ∃ fault behind, cursor.unread.Reads (.error fault) behind ∧
      cursor.advance = (.error fault, ⟨cursor.current, behind⟩) := by
  obtain ⟨current, unread⟩ := cursor
  cases read : unread.next with
  | mk item behind =>
    have reads := Unread.reads_iff.2 read
    cases item with
    | ok token => exact .inl ⟨token, behind, reads, advance_of_ok current read⟩
    | error fault => exact .inr ⟨fault, behind, reads, advance_of_error current read⟩

theorem remaining_advance_suffix (cursor : Cursor) :
    cursor.advance.2.unread.remaining <:+ cursor.unread.remaining := by
  have shorter {item : Item} {behind : Unread} (reads : cursor.unread.Reads item behind) :
      behind.remaining <:+ cursor.unread.remaining := by
    obtain ⟨gaps, -, split⟩ := reads.exists_gaps
    exact split ▸ (List.suffix_append _ _).trans (List.suffix_append _ _)
  rcases cursor.advance_reads with ⟨token, behind, reads, moved⟩ | ⟨fault, behind, reads, moved⟩ <;>
    exact moved ▸ shorter reads

theorem Reached.remaining_suffix {source : Text} {cursor : Cursor}
    (reached : Reached source cursor) :
    cursor.unread.remaining <:+ source :=
  reached.holds (motive := fun cursor => cursor.unread.remaining <:+ source) List.suffix_rfl
    fun cursor rest => cursor.remaining_advance_suffix.trans rest

end Cursor

namespace Run

/-- From one place that is reached to another, and with this relation between them. -/
def OnText (source : Text) (relation : Run → Option Fault → Run → Prop) (before : Run)
    (fault : Option Fault) (after : Run) : Prop :=
  Cursor.Reached source before.cursor →
    Cursor.Reached source after.cursor ∧ relation before fault after

variable {source : Text} {relation : Run → Option Fault → Run → Prop}

namespace OnText

theorem sequential (kept : Action.Sequential relation) :
    Action.Sequential (OnText source relation) where
  refl run reached := ⟨reached, kept.refl run⟩
  trans earlier later reached := by
    obtain ⟨middle, first⟩ := earlier reached
    obtain ⟨last, second⟩ := later middle
    exact ⟨last, kept.trans first second⟩

theorem advance (each : ∀ run, Cursor.Reached source run.cursor →
      relation run (Action.fault? (advance run).1) (advance run).2) :
    advance.Ensures (OnText source relation) := by
  intro run reached
  rw [cursor_advance]
  exact ⟨reached.advance, each run reached⟩

theorem still {before after : Run} {fault : Option Fault} (kept : after.cursor = before.cursor)
    (holds : relation before fault after) : OnText source relation before fault after :=
  fun reached => ⟨kept ▸ reached, holds⟩

end OnText

/-- An expression fails at the first item of its text, or what holds of its parts holds of it. -/
theorem Partwise.evaluateExpression (partwise : Partwise (OnText source relation))
    (calculator : Calculator) :
    let result := Calculator.evaluateExpression source calculator
    (∃ fault behind, Unread.Reads ⟨source, []⟩ (.error fault) behind ∧
      result = (.error (.reading fault), calculator)) ∨
    ∃ token, ∃ first last : Run, first.toCalculator = calculator.recordToken token ∧
      relation first (Action.fault? result.1) last ∧ last.toCalculator = result.2 := by
  rw [Calculator.evaluateExpression, start]
  cases started : Cursor.start source with
  | error fault =>
    refine .inl ⟨fault, (Unread.next ⟨source, []⟩).2, ?_, rfl⟩
    rw [Cursor.start] at started
    split at started
    · cases started
    · next behind read =>
      cases started
      rw [read]
      exact Unread.reads_iff.2 read
  | ok cursor =>
    have whole := partwise.expression ⟨calculator.recordToken cursor.current, cursor⟩
    exact .inr ⟨cursor.current, _, _, rfl, (whole (.start started)).2, rfl⟩

end Run

end LineCalculator
