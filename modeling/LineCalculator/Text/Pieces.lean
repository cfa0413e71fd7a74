import LineCalculator.Text.Blank

/-! Occurrences of one text in another, and the pieces that lie between them.
Occurrences are taken from left to right and do not overlap, so joining the pieces with the
separator gives the text back. The pieces are free of the separator, and if no character occurs
twice in it, they are the only texts of that kind that join to the text. -/

namespace LineCalculator.Text

def hasPart (part : Text) : Text → Bool
  | [] => part.isEmpty
  | c :: rest => part.isPrefixOf (c :: rest) || hasPart part rest

/-- The pieces behind the next `skip` characters, which belong to a separator already found. -/
def piecesAfter (separator : Text) : (skip : Nat) → Text → List Text
  | _, [] => [[]]
  | skip + 1, _ :: rest => piecesAfter separator skip rest
  | 0, c :: rest =>
    if separator.isPrefixOf (c :: rest) then
      [] :: piecesAfter separator (separator.length - 1) rest
    else
      match piecesAfter separator 0 rest with
      | [] => [[c]]
      | piece :: later => (c :: piece) :: later

/-- The pieces between the occurrences of `separator`. Separators at an end of the text, or
side by side, have an empty piece next to them. -/
def pieces (separator t : Text) : List Text :=
  piecesAfter separator 0 t

theorem hasPart_iff (part t : Text) : hasPart part t = true ↔ part <:+: t := by
  induction t with
  | nil => simp [hasPart]
  | cons c rest ih => simp [hasPart, ih, List.infix_cons_iff]

theorem piecesAfter_ne_nil (separator : Text) (skip : Nat) (t : Text) :
    piecesAfter separator skip t ≠ [] := by
  induction t generalizing skip with
  | nil => cases skip <;> simp [piecesAfter]
  | cons c rest ih =>
    cases skip with
    | zero =>
      rw [piecesAfter]
      split
      · simp
      · split <;> simp
    | succ skip => exact ih skip

theorem piecesAfter_eq_drop (separator : Text) (skip : Nat) (t : Text) :
    piecesAfter separator skip t = pieces separator (t.drop skip) := by
  induction t generalizing skip with
  | nil => cases skip <;> simp [pieces, piecesAfter]
  | cons c rest ih =>
    cases skip with
    | zero => rfl
    | succ skip => simpa [piecesAfter] using ih skip

@[simp] theorem pieces_nil (separator : Text) : pieces separator [] = [[]] := rfl

theorem pieces_append {separator : Text} (nonempty : separator ≠ []) (t : Text) :
    pieces separator (separator ++ t) = [] :: pieces separator t := by
  cases separator with
  | nil => exact absurd rfl nonempty
  | cons c rest =>
    rw [pieces, List.cons_append, piecesAfter, if_pos (by simp), piecesAfter_eq_drop]
    simp

theorem pieces_cons {separator : Text} {c : Char} {rest piece : Text} {later : List Text}
    (misplaced : ¬separator <+: c :: rest) (parts : pieces separator rest = piece :: later) :
    pieces separator (c :: rest) = (c :: piece) :: later := by
  rw [pieces, piecesAfter, if_neg (by simpa using misplaced)]
  change (match pieces separator rest with
    | [] => [[c]]
    | piece :: later => (c :: piece) :: later) = _
  rw [parts]

theorem exists_pieces_eq_cons (separator t : Text) :
    ∃ piece later, pieces separator t = piece :: later :=
  List.exists_cons_of_ne_nil (piecesAfter_ne_nil separator 0 t)

/-- Induction along the search for the separator: it is passed over as a whole where it begins,
and any other character by itself. -/
theorem separated_induction {separator : Text} (nonempty : separator ≠ [])
    {motive : Text → Prop} (nil : motive [])
    (found : ∀ later, motive later → motive (separator ++ later))
    (single : ∀ c rest, ¬separator <+: c :: rest → motive rest → motive (c :: rest))
    (t : Text) : motive t := by
  induction length : t.length using Nat.strongRecOn generalizing t with
  | ind n ih =>
    cases t with
    | nil => exact nil
    | cons c rest =>
      by_cases here : separator <+: c :: rest
      · obtain ⟨later, split⟩ := here
        have shorter : later.length < n := by
          have := List.length_pos_iff.2 nonempty
          have := congrArg List.length split
          simp only [List.length_append] at this
          omega
        exact split ▸ found later (ih later.length shorter later rfl)
      · exact single c rest here (ih rest.length (by simp at length; omega) rest rfl)

theorem intercalate_pieces {separator : Text} (nonempty : separator ≠ []) (t : Text) :
    separator.intercalate (pieces separator t) = t := by
  induction t using separated_induction nonempty with
  | nil => rfl
  | found later ih =>
    obtain ⟨piece, more, parts⟩ := exists_pieces_eq_cons separator later
    rw [pieces_append nonempty, parts, List.intercalate_cons_cons, ← parts, ih]
    rfl
  | single c rest misplaced ih =>
    obtain ⟨piece, later, parts⟩ := exists_pieces_eq_cons separator rest
    rw [pieces_cons misplaced parts]
    rw [parts] at ih
    cases later <;> simp_all

theorem prefix_of_pieces_eq_cons {separator t piece : Text} {later : List Text}
    (nonempty : separator ≠ []) (parts : pieces separator t = piece :: later) : piece <+: t := by
  have whole := intercalate_pieces nonempty t
  rw [parts] at whole
  cases later with
  | nil => exact ⟨[], by simpa using whole⟩
  | cons second later =>
    rw [List.intercalate_cons_cons] at whole
    exact ⟨_, by simpa using whole⟩

theorem not_infix_of_mem_pieces {separator t piece : Text} (nonempty : separator ≠ [])
    (member : piece ∈ pieces separator t) : ¬separator <:+: piece := by
  induction t using separated_induction nonempty generalizing piece with
  | nil =>
    rw [pieces_nil, List.mem_singleton] at member
    rwa [member, List.infix_nil]
  | found later ih =>
    rw [pieces_append nonempty] at member
    rcases List.mem_cons.1 member with rfl | member
    · rwa [List.infix_nil]
    · exact ih member
  | single c rest misplaced ih =>
    obtain ⟨first, later, parts⟩ := exists_pieces_eq_cons separator rest
    rw [pieces_cons misplaced parts] at member
    rcases List.mem_cons.1 member with rfl | member
    · intro inside
      rcases List.infix_cons_iff.1 inside with front | inside
      · have begins : c :: first <+: c :: rest :=
          List.cons_prefix_cons.2 ⟨rfl, prefix_of_pieces_eq_cons nonempty parts⟩
        exact misplaced (front.trans begins)
      · exact ih (parts ▸ List.mem_cons_self) inside
    · exact ih (parts ▸ List.mem_cons_of_mem first member)

theorem not_prefix_of_free {separator part : Text} {c : Char} (distinct : separator.Nodup)
    (free : ¬separator <:+: c :: part) (t : Text) :
    ¬separator <+: c :: part ++ (separator ++ t) := by
  intro front
  rcases List.prefix_or_prefix_of_prefix front (List.prefix_append (c :: part) _) with
    inside | ⟨overlap, rfl⟩
  · exact free inside.isInfix
  · have repeated : overlap <+: (c :: part ++ overlap) ++ t :=
      (List.prefix_append_right_inj (c :: part)).1 front
    cases overlap with
    | nil => exact free (by simp)
    | cons first overlap =>
      have same : first = c := (List.cons_prefix_cons.1 repeated).1
      simp [same] at distinct

theorem pieces_free_append {separator part : Text} (nonempty : separator ≠ [])
    (distinct : separator.Nodup) (free : ¬separator <:+: part) (t : Text) :
    pieces separator (part ++ (separator ++ t)) = part :: pieces separator t := by
  induction part with
  | nil => exact pieces_append nonempty t
  | cons c part ih =>
    have rest := ih fun inside => free (List.infix_cons inside)
    exact pieces_cons (not_prefix_of_free distinct free t) rest

theorem pieces_of_free {separator part : Text} (free : ¬separator <:+: part) :
    pieces separator part = [part] := by
  induction part with
  | nil => rfl
  | cons c part ih =>
    have rest := ih fun inside => free (List.infix_cons inside)
    exact pieces_cons (fun front => free front.isInfix) rest

theorem pieces_intercalate {separator : Text} (nonempty : separator ≠ [])
    (distinct : separator.Nodup) {parts : List Text} (some : parts ≠ [])
    (free : ∀ part ∈ parts, ¬separator <:+: part) :
    pieces separator (separator.intercalate parts) = parts := by
  induction parts with
  | nil => exact absurd rfl some
  | cons part parts ih =>
    cases parts with
    | nil => simpa using pieces_of_free (free part (by simp))
    | cons second parts =>
      rw [List.intercalate_cons_cons, List.append_assoc,
        pieces_free_append nonempty distinct (free part (by simp)),
        ih (by simp) fun other member => free other (List.mem_cons_of_mem part member)]

end LineCalculator.Text
