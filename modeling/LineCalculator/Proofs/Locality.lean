import LineCalculator.Proofs.Segment

/-! What an expression depends on and what it can change. Its value, its fault and its changes
depend on the variables that it mentions, a name without a value counting as zero. It changes only
those that stand at a step. -/

namespace LineCalculator

open Grammar

def Text.Mentions (source name : Text) : Prop :=
  .ok (.name name) ∈ source.items

def Text.Steps (source name : Text) : Prop :=
  ∃ step, [.ok (.stepBefore step), .ok (.name name)] <:+: source.items ∨
    [.ok (.name name), .ok (.stepAfter step)] <:+: source.items

/-- Variables that have the same values at some names, where no value is zero. -/
def Variables.AgreeOn (known : Text → Prop) (left right : Variables) : Prop :=
  ∀ name, known name → left.get name = right.get name

/-- An action that depends on the variables at some names only. From variables that agree on them it
comes to the same result, and what it leaves agrees on them again. -/
def DependsOn {α : Type} (known : Text → Prop) (action : Action Variables Fault α) : Prop :=
  ∀ left right : Variables, left.AgreeOn known right →
    (action left).1 = (action right).1 ∧ (action left).2.AgreeOn known (action right).2

namespace Variables

/-- A relation under which some names have the values that other names have on the right, and that
stays when both are set. -/
structure Correspondence (known : Text → Prop) (rename : Text → Text)
    (relation : Variables → Variables → Prop) : Prop where
  get : ∀ {left right name}, relation left right → known name →
    left.get name = right.get (rename name)
  set : ∀ {left right name}, relation left right → known name → ∀ value,
    relation (left.set name value) (right.set (rename name) value)

structure Congruence (known : Text → Prop) (relation : Variables → Variables → Prop) : Prop where
  get : ∀ {left right name}, relation left right → known name → left.get name = right.get name
  set : ∀ {left right name}, relation left right → known name → ∀ value,
    relation (left.set name value) (right.set name value)

theorem Congruence.correspondence {known : Text → Prop}
    {relation : Variables → Variables → Prop} (congruence : Congruence known relation) :
    Correspondence known id relation where
  get := congruence.get
  set := congruence.set

theorem congruence_agreeOn (known : Text → Prop) : Congruence known (AgreeOn known) where
  get agree here := agree _ here
  set agree _ value other here := by rw [get_set, get_set, agree other here]

end Variables

namespace Tree

def Within (known : Text → Prop) : Tree → Prop
  | literal _ => True
  | read name | stepped _ _ name => known name
  | opposite operand => operand.Within known
  | binary _ left right => left.Within known ∧ right.Within known

def mapNames (rename : Text → Text) : Tree → Tree
  | literal digits => literal digits
  | read name => read (rename name)
  | stepped side step name => stepped side step (rename name)
  | opposite operand => opposite (operand.mapNames rename)
  | binary op left right => binary op (left.mapNames rename) (right.mapNames rename)

theorem mapNames_id : mapNames id = id := by
  funext tree
  induction tree with
  | literal | read | stepped => rfl
  | opposite operand ih => rw [mapNames, ih]; rfl
  | binary op left right leftIh rightIh => rw [mapNames, leftIh, rightIh]; rfl

variable {known : Text → Prop} {relation : Variables → Variables → Prop}

section Corresponding

variable {rename : Text → Text} (correspondence : Variables.Correspondence known rename relation)

include correspondence

theorem Within.matches {tree : Tree} (within : tree.Within known) :
    Action.Matches relation tree.evaluate (tree.mapNames rename).evaluate := by
  induction tree with
  | literal digits => exact .ofExcept _
  | read name =>
    intro left right related
    exact ⟨congrArg Except.ok (correspondence.get related within), related⟩
  | stepped side step name =>
    intro left right related
    rw [mapNames, evaluate_stepped, evaluate_stepped, correspondence.get related within]
    cases step.operator.apply (right.get (rename name)) 1 with
    | ok new => exact ⟨rfl, correspondence.set related within new⟩
    | error fault => exact ⟨rfl, related⟩
  | opposite operand ih => exact (ih within).bind fun value => .ofExcept _
  | binary op left right leftIh rightIh =>
    exact (leftIh within.1).bind fun first => (rightIh within.2).bind fun second => .ofExcept _

theorem matches_evaluateAll {trees : List Tree} (within : ∀ tree ∈ trees, tree.Within known) :
    Action.Matches relation (evaluateAll trees) (evaluateAll (trees.map (mapNames rename))) := by
  induction trees with
  | nil => exact .ofExcept (.ok ())
  | cons tree later ih =>
    obtain ⟨first, rest⟩ := List.forall_mem_cons.1 within
    exact (first.matches correspondence).bind fun _ => ih rest

end Corresponding

variable (congruence : Variables.Congruence known relation)

include congruence

theorem Within.relates {tree : Tree} (within : tree.Within known) :
    tree.evaluate.Relates relation := by
  have same := within.matches congruence.correspondence
  rwa [mapNames_id] at same

theorem relates_evaluateAll {trees : List Tree} (within : ∀ tree ∈ trees, tree.Within known) :
    (evaluateAll trees).Relates relation := by
  have same := matches_evaluateAll congruence.correspondence within
  rwa [mapNames_id, List.map_id] at same

end Tree

theorem Reading.relates_evaluate {known : Text → Prop}
    {relation : Variables → Variables → Prop} (congruence : Variables.Congruence known relation)
    {reading : Reading} (within : ∀ tree ∈ reading.trees, tree.Within known) :
    reading.evaluate.Relates relation := by
  cases reading with
  | whole tree rest => exact (within tree List.mem_cons_self).relates congruence
  | refused parts token rest | faulty parts fault =>
    exact (Tree.relates_evaluateAll congruence within).bind fun _ => .ofExcept _

namespace Progress

variable {known : Text → Prop}

structure Within (known : Text → Prop) (progress : Progress) : Prop where
  parts : ∀ tree ∈ progress.parts, tree.Within known
  factor : ∀ tree, progress.place.tree? = some tree → tree.Within known

theorem within_fresh : Progress.Within known {} where
  parts _ member := by cases member
  factor _ finished := by cases finished

theorem within_signed {tree : Tree} (within : tree.Within known) (signs : Nat) :
    (signed signs tree).Within known := by
  induction signs generalizing tree with
  | zero => exact within
  | succ signs ih => exact ih within

theorem within_joined {waiting : Option (Tree × Operator)} {tree : Tree}
    (left : ∀ tree ∈ (waiting.map Prod.fst).toList, tree.Within known)
    (within : tree.Within known) :
    (joined waiting tree).Within known := by
  cases waiting with
  | none => exact within
  | some pending => exact ⟨left pending.1 (by simp), within⟩

variable {progress : Progress} (within : progress.Within known)

include within

theorem Within.term {factor : Tree} (here : factor.Within known) :
    (progress.term factor).Within known :=
  within_joined (fun tree member => within.parts tree (List.mem_append_right _ member))
    (within_signed here _)

theorem Within.expression {factor : Tree} (here : factor.Within known) :
    (progress.expression factor).Within known :=
  within_joined (fun tree member => within.parts tree (List.mem_append_left _ member))
    (within.term here)

theorem Within.behindFactor {factor : Tree} (here : factor.Within known) (op : Operator) :
    (progress.behindFactor factor op).Within known where
  parts tree member := by
    rw [Progress.behindFactor] at member
    split at member
    · rcases List.mem_append.1 member with waiting | last
      · exact within.parts tree (List.mem_append_left _ waiting)
      · exact List.mem_singleton.1 last ▸ within.term here
    · exact List.mem_singleton.1 member ▸ within.expression here
  factor tree finished := by simp [Place.tree?] at finished

theorem Within.factor_of_next {following : Progress} {token : Token}
    (named : ∀ name, token = .name name → known name)
    (fits : progress.next token = some following) {factor : Tree}
    (finished : following.place.tree? = some factor) : factor.Within known := by
  obtain ⟨sum, product, signs, place⟩ := progress
  cases place with
  | operand =>
    cases token with
    | operator op => cases op <;> cases fits; cases finished
    | number digits => cases fits; cases finished; exact trivial
    | stepBefore step => cases fits; cases finished
    | name name => cases fits; cases finished; exact named name rfl
    | equals | stepAfter step | finish => cases fits
  | behindStep step =>
    cases token <;> cases fits
    cases finished
    exact named _ rfl
  | behindName name =>
    cases token with
    | operator op => cases fits; simp [Place.tree?] at finished
    | stepAfter step => cases fits; cases finished; exact within.factor (.read name) rfl
    | equals | stepBefore _ | number _ | name _ | finish => cases fits
  | complete known =>
    cases token <;> cases fits
    simp [Place.tree?] at finished

theorem Within.next {following : Progress} {token : Token}
    (named : ∀ name, token = .name name → known name)
    (fits : progress.next token = some following) : following.Within known where
  parts tree member := by
    rcases next_cases fits with ⟨sum, product⟩ | ⟨factor, op, -, finished, rfl⟩
    · rw [Progress.parts, sum, product] at member
      exact within.parts tree member
    · exact (within.behindFactor (within.factor factor finished) op).parts tree member
  factor _ finished := within.factor_of_next named fits finished

theorem Within.ended (token : Token) (rest : List Item) :
    ∀ tree ∈ (progress.ended token rest).trees, tree.Within known := by
  intro tree member
  rw [Progress.ended, tree?] at member
  cases finished : progress.place.tree? with
  | none =>
    rw [finished] at member
    exact within.parts tree member
  | some factor =>
    rw [finished] at member
    exact List.mem_singleton.1 member ▸ within.expression (within.factor factor finished)

theorem Within.read {items : List Item} (named : ∀ name, .ok (.name name) ∈ items → known name) :
    ∀ tree ∈ (progress.read items).trees, tree.Within known := by
  induction items generalizing progress with
  | nil => exact within.ended .finish []
  | cons item rest ih =>
    cases item with
    | error fault => exact within.parts
    | ok token =>
      rw [Progress.read]
      split
      · next following fits =>
        exact ih (within.next (fun name same => named name (by simp [same])) fits)
          fun name here => named name (List.mem_cons_of_mem _ here)
      · exact within.ended token (.ok token :: rest)

end Progress

theorem Text.relates_reading {source : Text} {known : Text → Prop}
    {relation : Variables → Variables → Prop} (congruence : Variables.Congruence known relation)
    (mentioned : ∀ name, source.Mentions name → known name) :
    source.reading.evaluate.Relates relation :=
  Reading.relates_evaluate congruence (Progress.within_fresh.read mentioned)

theorem Text.dependsOn_reading (source : Text) :
    DependsOn source.Mentions source.reading.evaluate :=
  relates_reading (Variables.congruence_agreeOn _) fun _ here => here

theorem Grammar.infix_of_mem_changes {tokens : List Token} {change : Change}
    (here : change ∈ changes tokens) :
    [.stepBefore change.step, .name change.name] <:+: tokens ∨
      [.name change.name, .stepAfter change.step] <:+: tokens := by
  fun_induction changes tokens with
  | case1 step name rest ih =>
    rcases List.mem_cons.1 here with rfl | later
    · exact .inl (List.prefix_append [_, _] rest).isInfix
    · exact (ih later).imp (List.infix_cons ∘ List.infix_cons) (List.infix_cons ∘ List.infix_cons)
  | case2 name step rest ih =>
    rcases List.mem_cons.1 here with rfl | later
    · exact .inr (List.prefix_append [_, _] rest).isInfix
    · exact (ih later).imp (List.infix_cons ∘ List.infix_cons) (List.infix_cons ∘ List.infix_cons)
  | case3 token rest single touched ih =>
    exact (ih here).imp List.infix_cons List.infix_cons
  | case4 => cases here

namespace Text.Leaves

variable {source : Text} {before after : Variables} {consumed : List Token} {made : List Change}
  (leaves : source.Leaves before after consumed made)

include leaves

theorem steps_of_mem {change : Change} (here : change ∈ made) : source.Steps change.name := by
  obtain ⟨rest, items⟩ := leaves.begins
  have within {part : List Token} (inside : part <:+: consumed) :
      part.map .ok <:+: source.items := by
    rw [items]
    exact (inside.map _).trans (List.prefix_append _ rest).isInfix
  exact ⟨change.step, (infix_of_mem_changes (leaves.segment.subset here)).imp within within⟩

theorem index?_eq {name : Text} (unchanged : name ∉ made.map Change.name) :
    after.index? name = before.index? name := by
  have absent : name ∉ ((made.map Change.name).filter (· ∉ before.names)).eraseDups := by
    rw [List.mem_eraseDups, List.mem_filter]
    exact fun new => unchanged new.1
  rw [Variables.index?, leaves.names_eq, List.idxOf?, List.findIdx?_append]
  have none := List.idxOf?_eq_none_iff.2 absent
  rw [List.idxOf?] at none
  rw [none]
  simp [Variables.index?, List.idxOf?]

end Text.Leaves

namespace Calculator

/-- Evaluating an expression has the same result whenever the variables have the same values at the
names that it mentions, and they agree on these names again behind it. Any other variable than
those at its steps keeps its value and its place, and stays away if it was away. All this holds also
when the expression fails. -/
theorem evaluateExpression_local (source : Text) :
    (∀ left right : Calculator, left.values.AgreeOn source.Mentions right.values →
      (evaluateExpression source left).1 = (evaluateExpression source right).1 ∧
        (evaluateExpression source left).2.values.AgreeOn source.Mentions
          (evaluateExpression source right).2.values) ∧
      ∀ (calculator : Calculator) (name : Text), ¬source.Steps name →
        (evaluateExpression source calculator).2.values.find? name =
            calculator.values.find? name ∧
          (evaluateExpression source calculator).2.values.index? name =
            calculator.values.index? name := by
  constructor
  · intro left right agree
    have same := source.dependsOn_reading left.values right.values agree
    rwa [evaluateExpression_eq_reading, evaluateExpression_eq_reading] at same
  · intro calculator name apart
    obtain ⟨consumed, made, leaves, -⟩ :=
      Text.exists_leaves (evaluateExpression_eq_reading source calculator)
    have unchanged : name ∉ made.map Change.name := by
      intro member
      obtain ⟨change, here, rfl⟩ := List.mem_map.1 member
      exact apart (leaves.steps_of_mem here)
    exact ⟨leaves.find?_eq unchanged, leaves.index?_eq unchanged⟩

theorem evaluateExpression_local_at_zero :
    let source : Text := "i++ / x".toList
    let left : Calculator := ⟨⟨[(['x'], 0), (['i'], 4), (['z'], 9)], by simp⟩, .empty⟩
    let right : Calculator := ⟨⟨[(['i'], 4)], by simp⟩, .empty⟩
    (evaluateExpression source left).1 = .error (.arithmetic .divisionByZero) ∧
      (evaluateExpression source right).1 = .error (.arithmetic .divisionByZero) ∧
      (evaluateExpression source left).2.values.get ['i'] =
        (evaluateExpression source right).2.values.get ['i'] ∧
      (evaluateExpression source left).2.values.index? ['z'] = some 2 ∧
      (evaluateExpression source right).2.values.find? ['x'] = none := by
  intro source left right
  have scanned : source.items = [.ok (.name ['i']), .ok (.stepAfter .increment),
      .ok (.operator .divide), .ok (.name ['x'])] :=
    Text.items_eq _
  obtain ⟨depends, keeps⟩ := evaluateExpression_local source
  have agree : left.values.AgreeOn source.Mentions right.values := by
    intro name here
    rw [Text.Mentions, scanned] at here
    have known : name = ['i'] ∨ name = ['x'] := by simpa using here
    rcases known with rfl | rfl <;> rfl
  have apart {name : Text} (other : name ≠ ['i']) : ¬source.Steps name := by
    rintro ⟨step, inside⟩
    rw [scanned] at inside
    simp [List.infix_cons_iff, other] at inside
  obtain ⟨same, kept⟩ := depends left right agree
  have failed : (evaluateExpression source left).1 = .error (.arithmetic .divisionByZero) := by
    have reading := evaluateExpression_eq_reading source left
    rw [Text.reading, scanned] at reading
    exact (congrArg Prod.fst reading).symm
  refine ⟨failed, same ▸ failed, kept ['i'] (by simp [Text.Mentions, scanned]), ?_, ?_⟩
  · rw [(keeps left ['z'] (apart (by simp))).2]
    rfl
  · rw [(keeps right ['x'] (apart (by simp))).1]
    rfl

end Calculator

end LineCalculator
