import LineCalculator.Proofs.Lexeme

/-! The spelling of the tokens that are read off a text. Names among them are valid names, so an
expression can step no other variables, and numbers are runs of digits. -/

namespace LineCalculator

/-- How tokens are spelled: a number has digits only, at least one, and a name is valid. -/
def Token.WellSpelled : Token → Prop
  | number digits => digits ≠ [] ∧ ∀ c ∈ digits, c.isDigit = true
  | name text => Name.isValid text = true
  | operator _ | equals | stepBefore _ | stepAfter _ | finish => True

theorem Token.WellSpelled.text_eq_nil_iff {token : Token} (spelled : token.WellSpelled) :
    token.text = [] ↔ token = .finish := by
  cases token with
  | number digits => simpa [text] using spelled.1
  | name name =>
    have some : name ≠ [] := by
      rintro rfl
      cases spelled
    simpa [text] using some
  | operator op => simp [text]
  | equals => simp [text]
  | stepBefore step => simp [text, Step.text]
  | stepAfter step => simp [text, Step.text]
  | finish => simp [text]

theorem Lexeme.wellSpelled {text : Text} {token : Token} {behind : Unread}
    (lexeme : Lexeme text (.ok token) behind) : token.WellSpelled := by
  cases lexeme with
  | step | sign => exact trivial
  | symbol known rest =>
    rcases Token.ofSymbol?_cases known with ⟨-, rfl⟩ | ⟨-, rfl⟩ | ⟨-, rfl⟩ <;> exact trivial
  | number some only ends => exact ⟨some, only⟩
  | name valid ends => exact valid

theorem Unread.Reads.wellSpelled {unread behind : Unread} {token : Token}
    (reads : Reads unread (.ok token) behind) : token.WellSpelled := by
  cases reads with
  | waiting | finish => exact trivial
  | lexeme skipped lexeme => exact lexeme.wellSpelled

theorem Text.wellSpelled_of_mem_items {source : Text} {token : Token}
    (here : .ok token ∈ source.items) : token.WellSpelled := by
  obtain ⟨place, read⟩ := Unread.exists_next_of_mem_items here
  have reads := place.reads_next
  rw [read] at reads
  exact reads.wellSpelled

end LineCalculator
