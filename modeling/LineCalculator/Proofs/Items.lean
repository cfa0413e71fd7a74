import LineCalculator.Calculator.Line

/-! The items of a text are the tokens and the faults that reading it comes to, in order and
without the end. Moving a cursor takes one item off those that are still to come. -/

namespace LineCalculator

/-- A token, or the fault that stands in place of one. -/
abbrev Item := Except ReadingFault Token

def ReadingFault.IsLexical : ReadingFault → Prop
  | invalidName _ | unexpectedCharacter _ => True
  | malformed _ | unexpectedToken _ | literalTooLarge _ => False

theorem items_eq_iff_of_error {earlier other : List Token} {fault another : ReadingFault}
    {later rest : List Item} :
    earlier.map .ok ++ .error fault :: later = other.map .ok ++ .error another :: rest ↔
      earlier = other ∧ fault = another ∧ later = rest := by
  induction earlier generalizing other with
  | nil => cases other <;> simp
  | cons token earlier ih =>
    cases other with
    | nil => simp
    | cons first other => simp [ih, and_assoc]

namespace Unread

/-- The items to come, up to the end. -/
def items (unread : Unread) : List Item :=
  match _ : unread.next with
  | (.ok token, rest) => if token = .finish then [] else .ok token :: rest.items
  | (.error fault, rest) => .error fault :: rest.items
termination_by unread.size
decreasing_by
  all_goals
    have smaller := unread.size_next.2
    simp_all

theorem items_of_finish {unread rest : Unread} (last : unread.next = (.ok .finish, rest)) :
    unread.items = [] := by
  rw [items]
  split <;> simp_all

theorem items_of_item {unread rest : Unread} {item : Item} (here : unread.next = (item, rest))
    (inside : item ≠ .ok .finish) : unread.items = item :: rest.items := by
  rw [items]
  cases item <;> split <;> simp_all

def itemsWithin : Nat → Unread → List Item
  | 0, _ => []
  | bound + 1, unread =>
    match unread.next with
    | (.ok token, rest) => if token = .finish then [] else .ok token :: itemsWithin bound rest
    | (.error fault, rest) => .error fault :: itemsWithin bound rest

theorem items_eq_itemsWithin {unread : Unread} {bound : Nat} (enough : unread.size < bound) :
    unread.items = itemsWithin bound unread := by
  induction bound generalizing unread with
  | zero => omega
  | succ bound ih =>
    obtain ⟨-, smaller⟩ := unread.size_next
    rw [itemsWithin]
    cases read : unread.next with
    | mk item rest =>
      by_cases last : item = .ok .finish
      · rw [last, items_of_finish (last ▸ read)]
        rfl
      · have less : rest.size < unread.size := by simpa [read, last] using smaller
        rw [items_of_item read last, ih (by omega)]
        cases item with
        | error fault => rfl
        | ok token => exact (if_neg (by simpa using last)).symm

theorem exists_next_of_mem_items {unread : Unread} {item : Item}
    (here : item ∈ unread.items) : ∃ place : Unread, place.next.1 = item := by
  fun_induction items unread with
  | case1 unread rest read => simp at here
  | case2 unread token rest read inside ih =>
    rcases List.mem_cons.1 here with rfl | later
    · exact ⟨unread, congrArg Prod.fst read⟩
    · exact ih later
  | case3 unread fault rest read ih =>
    rcases List.mem_cons.1 here with rfl | later
    · exact ⟨unread, congrArg Prod.fst read⟩
    · exact ih later

end Unread

def Text.items (source : Text) : List Item :=
  Unread.items ⟨source, []⟩

/-- The items of a text by recursion on a bound of their number, for evaluation. -/
theorem Text.items_eq (source : Text) :
    source.items = Unread.itemsWithin (source.length + 1) ⟨source, []⟩ :=
  Unread.items_eq_itemsWithin (by simp [Unread.size])

namespace Cursor

/-- The items from the current token on. There is none from the end on. -/
def items (cursor : Cursor) : List Item :=
  if cursor.current = .finish then [] else .ok cursor.current :: cursor.unread.items

theorem items_of_inside {cursor : Cursor} (inside : cursor.current ≠ .finish) :
    cursor.items = .ok cursor.current :: cursor.unread.items :=
  if_neg inside

theorem items_of_next {unread rest : Unread} {token : Token}
    (here : unread.next = (.ok token, rest)) : items ⟨token, rest⟩ = unread.items := by
  by_cases last : token = .finish
  · rw [items, if_pos last, Unread.items_of_finish (last ▸ here)]
  · rw [items, if_neg last, Unread.items_of_item here (by simpa using last)]

theorem current_of_items_cons {cursor : Cursor} {token : Token} {rest : List Item}
    (items : cursor.items = .ok token :: rest) : cursor.current = token := by
  rw [Cursor.items] at items
  split at items <;> simp_all

theorem start_cases (source : Text) :
    (∃ fault rest, source.items = .error fault :: rest ∧ start source = .error fault) ∨
      ∃ cursor, start source = .ok cursor ∧ cursor.items = source.items := by
  rw [start]
  split
  · next token unread here => exact .inr ⟨_, rfl, items_of_next here⟩
  · next fault unread here =>
    exact .inl ⟨fault, unread.items, Unread.items_of_item here (by simp), rfl⟩

theorem advance_cases {cursor : Cursor} {token : Token} {rest : List Item}
    (here : cursor.items = .ok token :: rest) :
    (∃ fault later, rest = .error fault :: later ∧ cursor.advance.1 = .error fault) ∨
      (cursor.advance.1 = .ok token ∧ cursor.advance.2.items = rest) := by
  have current := current_of_items_cons here
  have inside : cursor.current ≠ .finish := fun last => by simp [items, last] at here
  have unread : cursor.unread.items = rest := by
    rw [items_of_inside inside] at here
    exact (List.cons.inj here).2
  rw [advance]
  split
  · next following behind read =>
    exact .inr ⟨by rw [current], (items_of_next read).trans unread⟩
  · next fault behind read =>
    rw [Unread.items_of_item read (by simp)] at unread
    exact .inl ⟨fault, behind.items, unread.symm, rfl⟩

end Cursor

namespace Run

theorem start_cases (calculator : Calculator) (source : Text) :
    (∃ fault rest, source.items = .error fault :: rest ∧
      start calculator source = .error (.reading fault)) ∨
      ∃ run, start calculator source = .ok run ∧ run.values = calculator.values ∧
        run.cursor.items = source.items := by
  rw [start]
  rcases Cursor.start_cases source with ⟨fault, rest, items, failed⟩ | ⟨cursor, started, items⟩
  · exact .inl ⟨fault, rest, items, by rw [failed]⟩
  · exact .inr ⟨_, by rw [started], by simp, items⟩

theorem exists_start {source : Text} {tokens : List Token}
    (scanned : source.items = tokens.map .ok) (calculator : Calculator) :
    ∃ run, start calculator source = .ok run ∧ run.values = calculator.values ∧
      run.cursor.items = tokens.map .ok := by
  rcases start_cases calculator source with
    ⟨fault, rest, items, failed⟩ | ⟨run, started, kept, items⟩
  · rw [scanned] at items
    cases tokens <;> cases items
  · exact ⟨run, started, kept, items.trans scanned⟩

theorem advance_cases {run : Run} {token : Token} {rest : List Item}
    (here : run.cursor.items = .ok token :: rest) :
    (∃ fault later last, rest = .error fault :: later ∧
      advance run = (.error (.reading fault), last) ∧ last.values = run.values) ∨
      ∃ behind, advance run = (.ok token, behind) ∧ behind.values = run.values ∧
        behind.cursor.items = rest := by
  have moved := Cursor.advance_cases here
  rw [advance]
  split
  · next read cursor found =>
    rcases moved with ⟨fault, later, split, failed⟩ | ⟨taken, items⟩
    · simp [found] at failed
    · simp only [found] at taken items
      exact .inr ⟨_, by rw [Except.ok.inj taken], by simp, items⟩
  · next fault cursor found =>
    rcases moved with ⟨known, later, split, failed⟩ | ⟨taken, items⟩
    · simp only [found] at failed
      exact .inl ⟨fault, later, _, by rw [Except.error.inj failed, split], rfl, rfl⟩
    · simp [found] at taken

end Run

end LineCalculator
