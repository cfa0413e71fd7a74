import LineCalculator.Arithmetic
import LineCalculator.Variables

/-! Changes of variables by steps. A change adds one to a variable or takes one from it, in the
unbounded integers, and the first change of a name makes an entry for it behind the others. -/

namespace LineCalculator

structure Change where
  step : Step
  name : Text
  deriving DecidableEq, Repr

namespace Variables

def change (values : Variables) (change : Change) : Variables :=
  values.set change.name (change.step.operator.exact (values.get change.name) 1)

def changeAll (values : Variables) (changes : List Change) : Variables :=
  changes.foldl change values

@[simp] theorem changeAll_nil (values : Variables) : values.changeAll [] = values := rfl

@[simp] theorem changeAll_cons (values : Variables) (first : Change) (later : List Change) :
    values.changeAll (first :: later) = (values.change first).changeAll later := rfl

theorem changeAll_append (values : Variables) (earlier later : List Change) :
    values.changeAll (earlier ++ later) = (values.changeAll earlier).changeAll later :=
  List.foldl_append

theorem get_change (values : Variables) (first : Change) (name : Text) :
    (values.change first).get name = values.get name +
      ((if first = ⟨.increment, name⟩ then 1 else 0) -
        if first = ⟨.decrement, name⟩ then 1 else 0) := by
  obtain ⟨step, changed⟩ := first
  have stepped : (values.change ⟨step, changed⟩).get name =
      if name = changed then step.operator.exact (values.get changed) 1 else values.get name :=
    get_set ..
  rw [stepped]
  by_cases same : name = changed
  · cases step <;> simp [same, Step.operator, Operator.exact]
    omega
  · simp [same, Ne.symm same]

theorem get_changeAll (values : Variables) (changes : List Change) (name : Text) :
    (values.changeAll changes).get name - values.get name =
      (changes.count ⟨.increment, name⟩ : Int) - changes.count ⟨.decrement, name⟩ := by
  induction changes generalizing values with
  | nil => simp
  | cons first later ih =>
    have rest := ih (values.change first)
    rw [get_change] at rest
    simp only [changeAll_cons, List.count_cons, beq_iff_eq]
    by_cases up : first = ⟨.increment, name⟩
    · have notDown : first ≠ ⟨.decrement, name⟩ := by simp [up]
      rw [if_pos up, if_neg notDown] at rest ⊢
      omega
    · rw [if_neg up] at rest ⊢
      by_cases down : first = ⟨.decrement, name⟩
      · rw [if_pos down] at rest ⊢
        omega
      · rw [if_neg down] at rest ⊢
        omega

theorem find?_changeAll_of_notMem {changes : List Change} {name : Text}
    (unchanged : name ∉ changes.map Change.name) (values : Variables) :
    (values.changeAll changes).find? name = values.find? name := by
  induction changes generalizing values with
  | nil => rfl
  | cons first later ih =>
    rw [List.map_cons, List.mem_cons, not_or] at unchanged
    rw [changeAll_cons, ih unchanged.2, change, find?_set, if_neg unchanged.1]

theorem names_foldl {α : Type} {update : Variables → α → Variables} {name : α → Text}
    (sets : ∀ values a, (update values a).names =
      if name a ∈ values.names then values.names else values.names ++ [name a])
    (values : Variables) (updates : List α) : (updates.foldl update values).names =
      values.names ++ ((updates.map name).filter (· ∉ values.names)).eraseDups := by
  induction updates generalizing values with
  | nil => simp
  | cons first later ih =>
    rw [List.foldl_cons, ih, sets, List.map_cons]
    by_cases known : name first ∈ values.names
    · rw [if_pos known, List.filter_cons_of_neg (by simpa using known)]
    · have others : (later.map name).filter (· ∉ values.names ++ [name first]) =
          ((later.map name).filter (· ∉ values.names)).filter (!· == name first) := by
        rw [List.filter_filter]
        congr 1
        funext other
        by_cases same : other = name first <;> simp [same]
      rw [if_neg known, List.filter_cons_of_pos (by simpa using known), List.eraseDups_cons, others,
        List.append_assoc, List.singleton_append]

theorem names_changeAll (values : Variables) (changes : List Change) :
    (values.changeAll changes).names =
      values.names ++ ((changes.map Change.name).filter (· ∉ values.names)).eraseDups :=
  names_foldl (fun values first => names_set values first.name _) values changes

end Variables

end LineCalculator
