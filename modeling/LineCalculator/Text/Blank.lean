/-! Texts, blank characters and trimming. A text is a list of characters; a character is
blank when it has the Unicode property White_Space, which is wider than the gaps that may
stand between the tokens of an expression. -/

namespace LineCalculator

abbrev Text := List Char

namespace Text

/-- The code points with the property White_Space, as closed ranges in ascending order. -/
def blankRanges : List (Nat × Nat) :=
  [(0x9, 0xD), (0x20, 0x20), (0x85, 0x85), (0xA0, 0xA0), (0x1680, 0x1680),
    (0x2000, 0x200A), (0x2028, 0x2029), (0x202F, 0x202F), (0x205F, 0x205F),
    (0x3000, 0x3000)]

def isBlank (c : Char) : Bool :=
  blankRanges.any fun range => range.1 ≤ c.toNat && c.toNat ≤ range.2

def allBlank (t : Text) : Bool :=
  t.all isBlank

def trimEnd (t : Text) : Text :=
  (t.reverse.dropWhile isBlank).reverse

def trim (t : Text) : Text :=
  trimEnd (t.dropWhile isBlank)

@[simp] theorem trim_nil : trim [] = [] := rfl

theorem trimEnd_cons (c : Char) (t : Text) :
    trimEnd (c :: t) = if trimEnd t = [] ∧ isBlank c = true then [] else c :: trimEnd t := by
  simp only [trimEnd, List.reverse_cons, List.dropWhile_append, List.reverse_eq_nil_iff]
  by_cases done : t.reverse.dropWhile isBlank = []
  · cases hc : isBlank c <;> simp [done, hc]
  · simp [done]

theorem trimEnd_eq_nil_iff (t : Text) : trimEnd t = [] ↔ allBlank t = true := by
  induction t with
  | nil => simp [trimEnd, allBlank]
  | cons c t ih => cases hc : isBlank c <;> simp_all [trimEnd_cons, allBlank]

theorem trim_eq_nil_iff (t : Text) : trim t = [] ↔ allBlank t = true := by
  induction t with
  | nil => simp [allBlank]
  | cons c t ih =>
    cases hc : isBlank c with
    | true =>
      have drop : trim (c :: t) = trim t := by simp [trim, hc]
      simpa [drop, allBlank, hc] using ih
    | false =>
      have keep : trim (c :: t) = trimEnd (c :: t) := by simp [trim, hc]
      rw [keep, trimEnd_eq_nil_iff]

theorem mem_trimEnd_or_isBlank {c : Char} {t : Text} (member : c ∈ t) :
    c ∈ trimEnd t ∨ isBlank c = true := by
  induction t with
  | nil => cases member
  | cons first rest ih =>
    rw [trimEnd_cons]
    split
    · next dropped =>
      rcases List.mem_cons.1 member with rfl | later
      · exact .inr dropped.2
      · simpa [dropped.1] using ih later
    · rcases List.mem_cons.1 member with rfl | later
      · exact .inl List.mem_cons_self
      · exact (ih later).imp_left (List.mem_cons_of_mem first)

theorem mem_trim_or_isBlank {c : Char} {t : Text} (member : c ∈ t) :
    c ∈ trim t ∨ isBlank c = true := by
  rw [← List.takeWhile_append_dropWhile (p := isBlank) (l := t)] at member
  rcases List.mem_append.1 member with front | rest
  · exact .inr ((List.all_eq_true.1 List.all_takeWhile) c front)
  · exact mem_trimEnd_or_isBlank rest

theorem trimEnd_append {ending : Text} (blank : allBlank ending = true) (t : Text) :
    trimEnd (t ++ ending) = trimEnd t := by
  have dropped : ∀ c ∈ ending.reverse, isBlank c = true := by
    simpa [allBlank] using blank
  rw [trimEnd, List.reverse_append, List.dropWhile_append_of_pos dropped, trimEnd]

theorem trim_append {ending : Text} (blank : allBlank ending = true) (t : Text) :
    trim (t ++ ending) = trim t := by
  induction t with
  | nil => simpa using (trim_eq_nil_iff ending).2 blank
  | cons c t ih =>
    cases shown : isBlank c with
    | true => simpa [trim, shown] using ih
    | false => simpa [trim, shown] using trimEnd_append blank (c :: t)

end Text

end LineCalculator
