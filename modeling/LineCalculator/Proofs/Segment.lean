import LineCalculator.Proofs.Evaluation
import LineCalculator.Proofs.Spelling

/-! The changes that an expression leaves behind, whether it has a value or not: those of an initial
segment of the steps that stand in it. -/

namespace LineCalculator

open Grammar

/-- The variables differ by the first changes that stand in tokens with which the expression of a
text begins. -/
structure Text.Leaves (source : Text) (before after : Variables) (consumed : List Token)
    (made : List Change) : Prop where
  begins : ∃ rest, source.items = consumed.map .ok ++ rest
  viable : Viable consumed
  segment : made <+: changes consumed
  values : after = before.changeAll made

theorem Reading.makes_evaluate (reading : Reading) :
    Makes (reading.trees.flatMap Tree.changes) reading.evaluate := by
  cases reading with
  | whole tree rest =>
    rw [trees, List.flatMap_singleton]
    exact tree.makes_evaluate
  | refused parts token rest | faulty parts fault =>
    rw [← List.append_nil (List.flatMap _ _)]
    exact (Tree.makes_evaluateAll parts).bind fun _ => .ofExcept _

/-- What the trees of a reading change is an initial segment of what the tokens before its end
change. If the reading is whole, those tokens are a sentence, and it is all that they change. -/
theorem Text.exists_consumed (source : Text) :
    ∃ consumed rest, source.items = consumed.map .ok ++ rest ∧ Viable consumed ∧
      source.reading.trees.flatMap Tree.changes <+: changes consumed ∧
      ∀ tree left, source.reading = .whole tree left →
        Sentence consumed tree ∧ changes consumed = tree.changes := by
  obtain ⟨consumed, rest, progress, items, fit, outcome⟩ := Progress.read_cases {} source.items
  -- The last token may complete a step whose factor still waits to be evaluated.
  have parts : progress.parts.flatMap Tree.changes <+: changes consumed := by
    rw [← (Progress.reached_of_behind fit).changes_dropLast]
    exact changes_prefix (List.dropLast_prefix consumed)
  refine ⟨consumed, rest, items, viable_of_behind fit, ?_⟩
  rw [Text.reading]
  rcases outcome with ⟨token, same⟩ | ⟨fault, later, -, same⟩
  · rw [same, Progress.ended]
    cases finished : progress.tree? with
    | none => exact ⟨parts, fun tree left whole => by cases whole⟩
    | some tree =>
      have sentence : Sentence consumed tree := sentence_iff.2 ⟨progress, fit, finished⟩
      have all : [tree].flatMap Tree.changes = changes consumed := by
        rw [List.flatMap_singleton, sentence.changes_eq]
      refine ⟨all ▸ List.prefix_rfl, fun other left whole => ?_⟩
      cases whole
      exact ⟨sentence, sentence.changes_eq⟩
  · rw [same]
    exact ⟨parts, fun tree left whole => by cases whole⟩

theorem Reading.eq_whole_of_evaluate {reading : Reading} {values after : Variables} {value : Int}
    (done : reading.evaluate values = (.ok value, after)) :
    ∃ tree rest, reading = .whole tree rest ∧ tree.evaluate values = (.ok value, after) := by
  cases reading with
  | whole tree rest => exact ⟨tree, rest, rfl, done⟩
  | refused parts token rest | faulty parts fault =>
    obtain ⟨nothing, middle, -, thrown⟩ := Action.apply_bind_eq_ok_iff.1 done
    cases thrown

theorem Text.exists_leaves {source : Text} {values after : Variables} {result : Except Fault Int}
    (evaluated : source.reading.evaluate values = (result, after)) :
    ∃ consumed made, source.Leaves values after consumed made ∧
      ∀ value, result = .ok value → made = changes consumed ∧
        ∃ tree, Sentence consumed tree ∧ tree.evaluate values = (.ok value, after) := by
  obtain ⟨consumed, rest, items, viable, segment, whole⟩ := source.exists_consumed
  cases result with
  | ok value =>
    obtain ⟨tree, left, reading, done⟩ := Reading.eq_whole_of_evaluate evaluated
    obtain ⟨sentence, same⟩ := whole tree left reading
    refine ⟨consumed, changes consumed, ⟨⟨rest, items⟩, viable, List.prefix_rfl, ?_⟩, ?_⟩
    · rw [same]
      exact Tree.eq_changeAll_of_evaluate done
    · intro again same
      cases same
      exact ⟨rfl, tree, sentence, done⟩
  | error fault =>
    obtain ⟨made, first, changed⟩ := source.reading.makes_evaluate.exists_prefix values
    rw [evaluated] at changed
    exact ⟨consumed, made, ⟨⟨rest, items⟩, viable, first.trans segment, changed⟩,
      fun value done => by cases done⟩

theorem Text.Leaves.find?_eq {source : Text} {before after : Variables} {consumed : List Token}
    {made : List Change} (leaves : source.Leaves before after consumed made) {name : Text}
    (unchanged : name ∉ made.map Change.name) : after.find? name = before.find? name := by
  rw [leaves.values, Variables.find?_changeAll_of_notMem unchanged]

theorem Text.Leaves.names_eq {source : Text} {before after : Variables} {consumed : List Token}
    {made : List Change} (leaves : source.Leaves before after consumed made) :
    after.names =
      before.names ++ ((made.map Change.name).filter (· ∉ before.names)).eraseDups := by
  rw [leaves.values, Variables.names_changeAll]

theorem Text.Leaves.isValid_name {source : Text} {before after : Variables}
    {consumed : List Token} {made : List Change} (leaves : source.Leaves before after consumed made)
    {change : Change} (here : change ∈ made) : Name.isValid change.name = true := by
  obtain ⟨rest, items⟩ := leaves.begins
  have named := name_mem_of_mem_changes (leaves.segment.subset here)
  have read : .ok (.name change.name) ∈ source.items := by
    rw [items]
    exact List.mem_append_left rest (List.mem_map_of_mem named)
  exact Text.wellSpelled_of_mem_items read

end LineCalculator
