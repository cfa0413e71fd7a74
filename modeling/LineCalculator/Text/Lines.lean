import LineCalculator.Text.Blank

/-! Lines. A sequence is cut behind each element that ends a line; the last cut may lack its
end. The same cutting serves characters and bytes. -/

namespace LineCalculator

/-- Cuts a sequence behind each element that satisfies `ends`. No cut is empty. -/
def cutBehind {α : Type} (ends : α → Bool) : List α → List (List α)
  | [] => []
  | a :: rest =>
    if ends a then
      [a] :: cutBehind ends rest
    else
      match cutBehind ends rest with
      | [] => [[a]]
      | cut :: later => (a :: cut) :: later

@[simp] theorem flatten_cutBehind {α : Type} (ends : α → Bool) (l : List α) :
    (cutBehind ends l).flatten = l := by
  induction l with
  | nil => rfl
  | cons a rest ih =>
    rw [cutBehind]
    split
    · simp [ih]
    · split <;> simp_all

theorem ne_nil_of_mem_cutBehind {α : Type} {ends : α → Bool} {l cut : List α}
    (member : cut ∈ cutBehind ends l) : cut ≠ [] := by
  induction l generalizing cut with
  | nil => simp [cutBehind] at member
  | cons a rest ih =>
    rw [cutBehind] at member
    split at member
    · rcases List.mem_cons.1 member with rfl | later
      · simp
      · exact ih later
    · split at member
      · simp_all
      · next cuts =>
        rcases List.mem_cons.1 member with rfl | later
        · simp
        · exact ih (cuts ▸ List.mem_cons_of_mem _ later)

theorem cutBehind_append {α : Type} {ends : α → Bool} {front : List α} (some : front ≠ [])
    (inside : ∀ a ∈ front, ends a = false) (rest : List α) :
    cutBehind ends (front ++ rest) =
      match cutBehind ends rest with
      | [] => [front]
      | cut :: later => (front ++ cut) :: later := by
  induction front with
  | nil => exact absurd rfl some
  | cons a front ih =>
    have here : ends a = false := inside a List.mem_cons_self
    rw [List.cons_append, cutBehind, if_neg (by simp [here])]
    cases front with
    | nil => rfl
    | cons b front =>
      rw [ih (by simp) fun c member => inside c (List.mem_cons_of_mem a member)]
      cases cutBehind ends rest <;> rfl

/-- Cutting commutes with a code in which an end is one element and nothing else has an end. -/
theorem cutBehind_flatMap {α β : Type} {ends : α → Bool} {codeEnds : β → Bool} {code : α → List β}
    (whole : ∀ a, ends a = true → ∃ b, code a = [b] ∧ codeEnds b = true)
    (some : ∀ a, code a ≠ [])
    (inside : ∀ a, ends a = false → ∀ b ∈ code a, codeEnds b = false) (l : List α) :
    cutBehind codeEnds (l.flatMap code) = (cutBehind ends l).map (·.flatMap code) := by
  induction l with
  | nil => rfl
  | cons a rest ih =>
    rw [List.flatMap_cons, cutBehind]
    cases here : ends a with
    | true =>
      obtain ⟨b, single, final⟩ := whole a here
      simp [single, cutBehind, final, ih]
    | false =>
      rw [cutBehind_append (some a) (inside a here), ih]
      cases cutBehind ends rest <;> simp

theorem cutBehind_flatten_of_prefix {α : Type} {ends : α → Bool} {l : List α} {cuts : List (List α)}
    (begins : cuts <+: cutBehind ends l) : cutBehind ends cuts.flatten = cuts := by
  induction l generalizing cuts with
  | nil => rw [List.prefix_nil.1 begins]; rfl
  | cons a rest ih =>
    rw [cutBehind] at begins
    cases cuts with
    | nil => rfl
    | cons cut later =>
      split at begins
      · next here =>
        obtain ⟨rfl, more⟩ := List.cons_prefix_cons.1 begins
        rw [List.flatten_cons, List.singleton_append, cutBehind, if_pos here, ih more]
      · next here =>
        cases known : cutBehind ends rest with
        | nil =>
          rw [known] at begins
          obtain ⟨rfl, more⟩ := List.cons_prefix_cons.1 begins
          rw [List.prefix_nil.1 more]
          simp [cutBehind, here]
        | cons first others =>
          rw [known] at begins
          obtain ⟨rfl, more⟩ := List.cons_prefix_cons.1 begins
          have begins : first :: later <+: cutBehind ends rest :=
            known ▸ List.cons_prefix_cons.2 ⟨rfl, more⟩
          have behind := ih begins
          rw [List.flatten_cons] at behind
          rw [List.flatten_cons, List.cons_append, cutBehind, if_neg here, behind]

theorem cutBehind_append_of_ended {α : Type} {ends : α → Bool} {front : List α}
    (ended : ∀ a, front.getLast? = some a → ends a = true) (rest : List α) :
    cutBehind ends (front ++ rest) = cutBehind ends front ++ cutBehind ends rest := by
  induction front with
  | nil => rfl
  | cons a later ih =>
    cases later with
    | nil =>
      have last : ends a = true := ended a rfl
      simp [cutBehind, last]
    | cons b later =>
      have behind := ih fun c last => ended c (by rw [List.getLast?_cons_cons, last])
      have some : cutBehind ends (b :: later) ≠ [] := by
        intro none
        have whole := flatten_cutBehind ends (b :: later)
        rw [none] at whole
        cases whole
      obtain ⟨cut, others, cuts⟩ := List.exists_cons_of_ne_nil some
      rw [cuts] at behind
      rw [List.cons_append, cutBehind, behind, cutBehind, cuts]
      split <;> rfl

theorem ended_of_cutBehind_append {α : Type} {ends : α → Bool} {l : List α}
    {front later : List (List α)} {cut : List α} (cuts : cutBehind ends l = front ++ cut :: later) :
    later = [] ∨ ∃ a, cut.getLast? = some a ∧ ends a = true := by
  induction l generalizing front cut with
  | nil => simp [cutBehind] at cuts
  | cons a rest ih =>
    rw [cutBehind] at cuts
    split at cuts
    · next here =>
      cases front with
      | nil =>
        cases cuts
        exact .inr ⟨a, rfl, here⟩
      | cons first front => exact ih (List.cons.inj cuts).2
    · split at cuts
      · cases front with
        | nil => cases cuts; exact .inl rfl
        | cons first front => simp at cuts
      · next first others known =>
        cases front with
        -- The element is put in front of the first cut of the rest, which ends as before.
        | nil =>
          cases cuts
          have some : first ≠ [] := ne_nil_of_mem_cutBehind (known ▸ List.mem_cons_self)
          have whole : cutBehind ends rest = [] ++ first :: later := known
          rcases ih whole with done | ⟨b, last, here⟩
          · exact .inl done
          · obtain ⟨c, inner, rfl⟩ := List.exists_cons_of_ne_nil some
            exact .inr ⟨b, by rw [List.getLast?_cons_cons, last], here⟩
        | cons other front =>
          have tail : others = front ++ cut :: later := (List.cons.inj cuts).2
          have whole : cutBehind ends rest = (first :: front) ++ cut :: later := by
            rw [known, tail, List.cons_append]
          exact ih whole

def EndsLast {α : Type} (ends : α → Bool) (cut : List α) : Prop :=
  ∃ inner last, cut = inner ++ [last] ∧ ends last = true ∧ ∀ a ∈ inner, ends a = false

theorem cutBehind_of_endsLast {α : Type} {ends : α → Bool} {cut : List α}
    (once : EndsLast ends cut) : cutBehind ends cut = [cut] := by
  obtain ⟨inner, last, rfl, final, inside⟩ := once
  have here : cutBehind ends [last] = [[last]] := by simp [cutBehind, final]
  cases inner with
  | nil => exact here
  | cons a inner => rw [cutBehind_append (by simp) inside, here]

theorem cutBehind_flatten_of_endsLast {α : Type} {ends : α → Bool} {cuts : List (List α)}
    (once : ∀ cut ∈ cuts, EndsLast ends cut) : cutBehind ends cuts.flatten = cuts := by
  induction cuts with
  | nil => rfl
  | cons cut later ih =>
    have first := once cut List.mem_cons_self
    have ended (a : α) (last : cut.getLast? = some a) : ends a = true := by
      obtain ⟨inner, own, rfl, final, -⟩ := first
      rw [List.getLast?_concat] at last
      cases last
      exact final
    rw [List.flatten_cons, cutBehind_append_of_ended ended, cutBehind_of_endsLast first,
      ih fun other member => once other (List.mem_cons_of_mem cut member), List.singleton_append]

theorem not_ends_of_mem_dropLast {α : Type} {ends : α → Bool} {l cut : List α}
    (member : cut ∈ cutBehind ends l) {a : α} (inner : a ∈ cut.dropLast) : ends a = false := by
  induction l generalizing cut with
  | nil => cases member
  | cons first rest ih =>
    rw [cutBehind] at member
    split at member
    · rcases List.mem_cons.1 member with rfl | later
      · cases inner
      · exact ih later inner
    · next inside =>
      split at member
      · rw [List.mem_singleton.1 member] at inner
        cases inner
      · next cut others cuts =>
        rcases List.mem_cons.1 member with rfl | later
        · have known : cut ∈ cutBehind ends rest := cuts ▸ List.mem_cons_self
          rw [List.dropLast_cons_of_ne_nil (ne_nil_of_mem_cutBehind known)] at inner
          rcases List.mem_cons.1 inner with rfl | further
          · simpa using inside
          · exact ih known further
        · exact ih (cuts ▸ List.mem_cons_of_mem _ later) inner

namespace Text

/-- Drops a line feed at the end, together with one carriage return in front of it. A
carriage return that no line feed follows belongs to the line. -/
def withoutLineEnd (line : Text) : Text :=
  match line.reverse with
  | '\n' :: '\r' :: rest => rest.reverse
  | '\n' :: rest => rest.reverse
  | _ => line

def lines (t : Text) : List Text :=
  (cutBehind (· == '\n') t).map withoutLineEnd

theorem lines_append {front : Text} (ended : front = [] ∨ front.getLast? = some '\n')
    (rest : Text) : (front ++ rest).lines = front.lines ++ rest.lines := by
  have last (c : Char) (here : front.getLast? = some c) : (c == '\n') = true := by
    rcases ended with rfl | known
    · cases here
    · cases known.symm.trans here
      rfl
  rw [lines, cutBehind_append_of_ended last, List.map_append, lines, lines]

theorem exists_eq_withoutLineEnd_append (line : Text) :
    ∃ ending, line = withoutLineEnd line ++ ending ∧ allBlank ending = true := by
  rw [withoutLineEnd]
  split
  · next rest reversed =>
    exact ⟨['\r', '\n'], by simpa using congrArg List.reverse reversed, by decide⟩
  · next rest reversed => exact ⟨['\n'], by simpa using congrArg List.reverse reversed, by decide⟩
  · exact ⟨[], by simp, by decide⟩

theorem trim_withoutLineEnd (line : Text) : trim (withoutLineEnd line) = trim line := by
  obtain ⟨ending, split, blank⟩ := exists_eq_withoutLineEnd_append line
  have whole := congrArg trim split
  rw [trim_append blank] at whole
  exact whole.symm

theorem lineFeed_notMem_of_mem_lines {t line : Text} (member : line ∈ lines t) : '\n' ∉ line := by
  obtain ⟨cut, here, rfl⟩ := List.mem_map.1 member
  have inner : '\n' ∉ cut.dropLast := by
    intro inside
    cases not_ends_of_mem_dropLast here inside
  rw [withoutLineEnd]
  split
  · next rest reversed =>
    have split : cut = (rest.reverse ++ ['\r']) ++ ['\n'] := by
      simpa using congrArg List.reverse reversed
    rw [split, List.dropLast_concat] at inner
    exact fun feed => inner (List.mem_append_left _ feed)
  · next rest _ reversed =>
    have split : cut = rest.reverse ++ ['\n'] := by simpa using congrArg List.reverse reversed
    rwa [split, List.dropLast_concat] at inner
  · next _ other =>
    intro feed
    have some : cut ≠ [] := List.ne_nil_of_mem feed
    rw [← List.dropLast_concat_getLast some] at feed
    rcases List.mem_append.1 feed with inside | last
    · exact inner inside
    · refine other cut.dropLast.reverse ?_
      rw [← List.reverse_concat, List.mem_singleton.1 last, List.dropLast_concat_getLast]

end Text

end LineCalculator
