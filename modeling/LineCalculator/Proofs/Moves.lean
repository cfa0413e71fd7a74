import LineCalculator.Proofs.Coverage

/-! Moving a cursor along the items of a text. A move away from the end reads one more item, and the
item that it reads decides what it returns and where it leads. So cursors that have the same items
ahead stay alike while those items last.

The main statement is that the items which some moves read are those that come first. -/

namespace LineCalculator

namespace Unread

def stream (unread : Unread) : List Item :=
  unread.items ++ [.ok .finish]

theorem exists_stream_eq (unread : Unread) :
    ∃ rest, unread.stream = unread.next.1 :: rest ∧
      (rest = unread.next.2.stream ∨ unread.next.1 = .ok .finish ∧ rest = []) := by
  cases read : unread.next with
  | mk item behind =>
    by_cases last : item = .ok .finish
    · subst last
      exact ⟨[], by rw [stream, items_of_finish read]; rfl, .inr ⟨rfl, rfl⟩⟩
    · exact ⟨behind.stream, by rw [stream, items_of_item read last]; rfl, .inl rfl⟩

end Unread

def Text.stream (source : Text) : List Item :=
  source.items ++ [.ok .finish]

namespace Cursor

def stream (cursor : Cursor) : List Item :=
  cursor.items ++ [.ok .finish]

inductive Moves : Nat → Cursor → Cursor → Prop
  | stay (cursor : Cursor) : Moves 0 cursor cursor
  | next {count : Nat} {cursor last : Cursor} (inside : cursor.current ≠ .finish)
    (later : Moves count cursor.advance.2 last) : Moves (count + 1) cursor last

def loads : Nat → Cursor → List Item
  | 0, _ => []
  | count + 1, cursor => cursor.unread.next.1 :: loads count cursor.advance.2

@[simp] theorem length_loads (count : Nat) (cursor : Cursor) :
    (cursor.loads count).length = count := by
  induction count generalizing cursor with
  | zero => rfl
  | succ count ih => rw [loads, List.length_cons, ih]

/-- The result of a move that reads the given item, and the token that is current behind it. -/
def delivery (current : Token) : Item → Item × Token
  | .ok token => (.ok current, token)
  | .error fault => (.error fault, current)

theorem head?_stream (cursor : Cursor) : cursor.stream.head? = some (.ok cursor.current) := by
  rw [stream, items]
  split
  · next last => rw [last]; rfl
  · rfl

theorem exists_stream_eq (cursor : Cursor) :
    ∃ rest, cursor.stream = .ok cursor.current :: rest := by
  have first := cursor.head?_stream
  cases stream : cursor.stream with
  | nil => rw [stream] at first; cases first
  | cons item rest =>
    rw [stream] at first
    exact ⟨rest, by rw [Option.some.inj first]⟩

theorem stream_advance {cursor : Cursor} (inside : cursor.current ≠ .finish) :
    ∃ rest, cursor.stream = .ok cursor.current :: cursor.unread.next.1 :: rest ∧
      cursor.advance.1 = (delivery cursor.current cursor.unread.next.1).1 ∧
      cursor.advance.2.stream = .ok (delivery cursor.current cursor.unread.next.1).2 :: rest := by
  obtain ⟨rest, split, ahead⟩ := cursor.unread.exists_stream_eq
  have whole : cursor.stream = .ok cursor.current :: cursor.unread.next.1 :: rest := by
    rw [stream, items_of_inside inside, List.cons_append, ← split]
    rfl
  refine ⟨rest, whole, ?_⟩
  cases read : cursor.unread.next with
  | mk item behind =>
    rw [read] at split ahead
    cases item with
    | ok token =>
      have items : items ⟨token, behind⟩ = cursor.unread.items := items_of_next read
      rw [advance, read]
      exact ⟨rfl, by rw [stream, items]; exact split⟩
    | error fault =>
      have left : rest = behind.stream := by simpa using ahead
      rw [advance, read]
      exact ⟨rfl, by rw [stream, items, if_neg inside, left]; rfl⟩

/-- Cursors with the same current token and as many items behind it in common as given. -/
def Alike (ahead : Nat) (left right : Cursor) : Prop :=
  left.stream.take (ahead + 1) = right.stream.take (ahead + 1)

namespace Alike

variable {ahead : Nat} {left right : Cursor}

theorem current_eq (alike : Alike ahead left right) : left.current = right.current := by
  obtain ⟨here, same⟩ := left.exists_stream_eq
  obtain ⟨there, other⟩ := right.exists_stream_eq
  rw [Alike, same, other, List.take_succ_cons, List.take_succ_cons] at alike
  exact Except.ok.inj (List.cons.inj alike).1

theorem advance (alike : Alike (ahead + 1) left right) (inside : left.current ≠ .finish) :
    left.advance.1 = right.advance.1 ∧ Alike ahead left.advance.2 right.advance.2 := by
  have current := alike.current_eq
  obtain ⟨here, same, result, leftover⟩ := stream_advance inside
  obtain ⟨there, other, outcome, remaining⟩ := stream_advance (current ▸ inside)
  rw [Alike, same, other, current, List.take_succ_cons, List.take_succ_cons, List.take_succ_cons,
    List.take_succ_cons] at alike
  obtain ⟨item, behind⟩ := List.cons.inj (List.cons.inj alike).2
  refine ⟨by rw [result, outcome, current, item], ?_⟩
  rw [Alike, leftover, remaining, current, item, List.take_succ_cons, List.take_succ_cons, behind]

end Alike

namespace Moves

variable {count : Nat} {cursor last : Cursor}

theorem trans {more : Nat} {middle : Cursor} (first : Moves count cursor middle)
    (second : Moves more middle last) : Moves (count + more) cursor last := by
  induction first with
  | stay cursor => simpa using second
  | next inside later ih => simpa [Nat.add_right_comm] using Moves.next inside (ih second)

theorem length_stream (path : Moves count cursor last) :
    cursor.stream.length = count + last.stream.length := by
  induction path with
  | stay cursor => simp
  | next inside later ih =>
    obtain ⟨rest, split, -, left⟩ := stream_advance inside
    rw [left] at ih
    rw [split]
    simp only [List.length_cons] at ih ⊢
    omega

theorem count_unique {other : Nat} (path : Moves count cursor last)
    (again : Moves other cursor last) : other = count := by
  have first := path.length_stream
  have second := again.length_stream
  omega

theorem loads_eq (path : Moves count cursor last) :
    .ok cursor.current :: cursor.loads count = cursor.stream.take (count + 1) := by
  induction path with
  | stay cursor =>
    obtain ⟨rest, split⟩ := cursor.exists_stream_eq
    rw [split]
    rfl
  | @next count cursor last inside later ih =>
    obtain ⟨rest, split, -, left⟩ := stream_advance inside
    rw [left, List.take_succ_cons] at ih
    rw [split, loads, List.take_succ_cons, List.take_succ_cons, (List.cons.inj ih).2]

end Moves

end Cursor

end LineCalculator
