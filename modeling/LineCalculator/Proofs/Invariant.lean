import LineCalculator.Proofs.Bounded
import LineCalculator.Proofs.Outcome
import LineCalculator.Proofs.Segment

/-! What holds of the variables of a calculator whatever lines it has evaluated. Names come from two
sources, the steps in expressions and the targets of assignments, and both yield valid names only.
No line takes a name away or moves it. -/

namespace LineCalculator

open Grammar

namespace Variables

structure Sound (values : Variables) : Prop where
  distinct : values.names.Nodup
  valid : ∀ name ∈ values.names, Name.isValid name = true
  bounded : values.Bounded

theorem sound_empty : empty.Sound where
  distinct := empty.nodup
  valid _ member := by cases member
  bounded := bounded_empty

theorem Sound.set {values : Variables} (sound : values.Sound) {name : Text} {value : Int}
    (valid : Name.isValid name = true) (inside : InRange value) :
    (values.set name value).Sound where
  distinct := (values.set name value).nodup
  valid := forall_names_set sound.valid valid value
  bounded := sound.bounded.set name inside

end Variables

theorem Text.sound_of_evaluate {source : Text} {values after : Variables}
    {result : Except Fault Int} (sound : values.Sound)
    (evaluated : source.reading.evaluate values = (result, after)) : after.Sound where
  distinct := after.nodup
  valid name member := by
    obtain ⟨consumed, made, leaves, -⟩ := Text.exists_leaves evaluated
    rw [leaves.names_eq] at member
    rcases List.mem_append.1 member with known | stepped
    · exact sound.valid name known
    · rw [List.mem_eraseDups] at stepped
      obtain ⟨change, here, rfl⟩ := List.mem_map.1 (List.mem_filter.1 stepped).1
      exact leaves.isValid_name here
  bounded := by
    have kept := (StaysInRange.reading source.reading values sound.bounded).1
    rwa [evaluated] at kept

theorem Assignment.Gives.inRange {assignment : Assignment} {values : Variables} {value new : Int}
    (gives : assignment.Gives values value new) (inside : InRange value) : InRange new := by
  rw [Gives] at gives
  split at gives
  · exact gives ▸ inside
  · exact Operator.inRange_of_apply gives

/-- How the names grow with a line. Behind those that were there come those of operands of steps in
its expression, in the order of the first steps. If the line succeeds, its target comes last, unless
it is there by then. A line that is no assignment leaves all as it was. -/
def Text.GrowsNames (line : Text) (before : Variables) (result : Except Fault Unit)
    (after : Variables) : Prop :=
  ((line.trim = [] ∨ ∃ fault, Assignment.ofLine line.trim = .error fault) ∧ after = before) ∨
  ∃ assignment consumed made stepped, Assignment.ofLine line.trim = .ok assignment ∧
    assignment.expression.Leaves before stepped consumed made ∧
    stepped.names = before.names ++
      ((made.map Change.name).filter (· ∉ before.names)).eraseDups ∧
    (∀ fault, result = .error fault → after = stepped) ∧
    (result = .ok () → after.names =
      if assignment.target ∈ stepped.names then stepped.names
      else stepped.names ++ [assignment.target])

namespace LineOutcome

variable {line : Text} {before after : Variables} {result : Except Fault Unit}

theorem sound (outcome : LineOutcome line before result after) (sound : before.Sound) :
    after.Sound := by
  cases outcome with
  | skipped blank | refused shown read => exact sound
  | failed shown read evaluated | overflowed shown read evaluated compound outside =>
    exact Text.sound_of_evaluate sound evaluated
  | @assigned assignment value new middle shown read evaluated gives =>
    have inside := (StaysInRange.reading assignment.expression.reading before sound.bounded).2
    rw [evaluated] at inside
    exact (Text.sound_of_evaluate sound evaluated).set (Assignment.isValid_target read)
      (gives.inRange inside)

theorem growsNames (outcome : LineOutcome line before result after) :
    line.GrowsNames before result after := by
  cases outcome with
  | skipped blank => exact Or.inl ⟨.inl blank, rfl⟩
  | refused shown read => exact Or.inl ⟨.inr ⟨_, read⟩, rfl⟩
  | failed shown read evaluated | overflowed shown read evaluated compound outside =>
    obtain ⟨consumed, made, leaves, -⟩ := Text.exists_leaves evaluated
    exact Or.inr ⟨_, consumed, made, _, read, leaves, leaves.names_eq, fun _ _ => rfl,
      fun done => by cases done⟩
  | assigned shown read evaluated gives =>
    obtain ⟨consumed, made, leaves, -⟩ := Text.exists_leaves evaluated
    exact Or.inr ⟨_, consumed, made, _, read, leaves, leaves.names_eq,
      fun _ failed => (by cases failed), fun _ => Variables.names_set _ _ _⟩

theorem names_prefix (outcome : LineOutcome line before result after) :
    before.names <+: after.names := by
  rcases outcome.growsNames with ⟨-, rfl⟩ | ⟨assignment, -, made, stepped, -, -, grown, failed, done⟩
  · exact List.prefix_rfl
  · have front : before.names <+: stepped.names := grown ▸ List.prefix_append _ _
    cases result with
    | error fault => exact failed fault rfl ▸ front
    | ok nothing =>
      rw [done rfl]
      split
      · exact front
      · exact front.trans (List.prefix_append _ _)

end LineOutcome

namespace Calculator

def evaluateAll (lines : List Text) (calculator : Calculator) : Calculator :=
  lines.foldl (fun calculator line => (evaluate line calculator).2) calculator

theorem sound_evaluateAll (lines : List Text) {calculator : Calculator}
    (sound : calculator.values.Sound) : (evaluateAll lines calculator).values.Sound := by
  induction lines generalizing calculator with
  | nil => exact sound
  | cons line later ih => exact ih ((outcome_of_evaluate line calculator).sound sound)

/-- Whatever lines a new calculator has evaluated, its variables are sound, and they stay so with
the next line. The names that were there stay in front, and the new ones are those of operands of
steps and of the target. -/
theorem evaluateAll_sound (lines : List Text) (line : Text) :
    let calculator := evaluateAll lines new
    let before := calculator.values
    let result := evaluate line calculator
    let after := result.2.values
    before.Sound ∧ after.Sound ∧ before.names <+: after.names ∧
      line.GrowsNames before result.1 after := by
  intro calculator before result after
  have sound : before.Sound := sound_evaluateAll lines Variables.sound_empty
  have outcome : LineOutcome line before result.1 after := outcome_of_evaluate line calculator
  exact ⟨sound, outcome.sound sound, outcome.names_prefix, outcome.growsNames⟩

theorem evaluateAll_sound_behind_assignment :
    let line : Text := "b = a++".toList
    let result := evaluate line (evaluateAll [[' ']] new)
    result.1 = .ok () ∧ result.2.values.Sound ∧ ['b'] ∈ result.2.values.names := by
  intro line result
  let assignment : Assignment := ⟨['b'], .replace, "a++".toList⟩
  have shown : line.trim ≠ [] := by decide
  have read : Assignment.ofLine line.trim = .ok assignment := rfl
  have scanned : Text.items "a++".toList = [.ok (.name ['a']), .ok (.stepAfter .increment)] :=
    Text.items_eq _
  have evaluated : (Text.reading "a++".toList).evaluate .empty =
      (.ok 0, Variables.empty.set ['a'] 1) := by
    rw [Text.reading, scanned]
    rfl
  have succeeded : result.1 = .ok () := by
    obtain ⟨last, done, -⟩ := evaluateExpression_eq_mk
      ((evaluateAll [[' ']] new).record (.lineStarted line.trim)) evaluated
    have given : assignedValue assignment 0 last = (.ok 0, last) := rfl
    change (evaluate line (evaluateAll [[' ']] new)).1 = _
    rw [evaluate_of_assignment shown read, carryOut, Action.apply_bind_of_ok done,
      Action.apply_bind_of_ok given]
    rfl
  obtain ⟨-, sound, -, ⟨blank | ⟨fault, refused⟩, -⟩ |
    ⟨other, consumed, made, stepped, again, -, -, -, done⟩⟩ := evaluateAll_sound [[' ']] line
  · exact absurd blank shown
  · cases read.symm.trans refused
  · cases read.symm.trans again
    refine ⟨succeeded, sound, ?_⟩
    rw [done succeeded]
    split
    · assumption
    · exact List.mem_append_right _ (List.mem_singleton_self _)

end Calculator

end LineCalculator
