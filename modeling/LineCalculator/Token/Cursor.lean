import LineCalculator.Token.Unread

/-! A place in the tokens of a text: the current token is known, and what comes behind it is
unread. Moving on reads one token. A fault in that token leaves the current one in place, with
the faulty part of the text behind it gone. -/

namespace LineCalculator

structure Cursor where
  current : Token
  unread : Unread
  deriving DecidableEq, Repr

namespace Cursor

def start (source : Text) : Except ReadingFault Cursor :=
  match Unread.next ⟨source, []⟩ with
  | (.ok token, unread) => .ok ⟨token, unread⟩
  | (.error fault, _) => .error fault

def advance (cursor : Cursor) : Except ReadingFault Token × Cursor :=
  match cursor.unread.next with
  | (.ok token, unread) => (.ok cursor.current, ⟨token, unread⟩)
  | (.error fault, unread) => (.error fault, { cursor with unread := unread })

/-- An upper bound on the number of moves before the end is current and nothing is unread. -/
def size (cursor : Cursor) : Nat :=
  cursor.unread.size + if cursor.current = .finish then 0 else 1

theorem size_advance_lt {cursor : Cursor} (inside : cursor.current ≠ .finish) :
    cursor.advance.2.size < cursor.size := by
  obtain ⟨bound, strict⟩ := cursor.unread.size_next
  rw [advance]
  split
  · next token unread read =>
    simp only [read] at bound strict
    by_cases final : token = .finish
    · simp [size, final, inside]
      omega
    · have := strict (by simpa using final)
      simp [size, final, inside]
      omega
  · next fault unread read =>
    simp only [read] at strict
    have := strict (by simp)
    simp [size, inside]
    omega

theorem size_advance_le (cursor : Cursor) : cursor.advance.2.size ≤ cursor.size := by
  by_cases inside : cursor.current = .finish
  · obtain ⟨bound, strict⟩ := cursor.unread.size_next
    rw [advance]
    split
    · next token unread read =>
      simp only [read] at bound strict
      by_cases final : token = .finish
      · simpa [size, final, inside] using bound
      · have := strict (by simpa using final)
        simp [size, final, inside]
        omega
    · next fault unread read =>
      simp only [read] at bound
      simpa [size, inside] using bound
  · exact Nat.le_of_lt (size_advance_lt inside)

theorem current_advance_of_error {cursor : Cursor} {fault : ReadingFault}
    (failed : cursor.advance.1 = .error fault) : cursor.advance.2.current = cursor.current := by
  rw [advance] at failed ⊢
  split at failed <;> simp_all

end Cursor

end LineCalculator
