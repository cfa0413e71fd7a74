import LineCalculator.Proofs.Progress

/-! Which tokens make a sentence. What waits in a progress was built from the tokens that led to
it, and so the progress behind some tokens decides whether they are a sentence, whether they can
begin one, and which changes lie within them. -/

namespace LineCalculator

open Grammar

inductive Waiting (belongs : Operator → Bool) (Operand : List Token → Tree → Prop) :
    List Token → Option (Tree × Operator) → Prop
  | nothing : Waiting belongs Operand [] none
  | operand {tokens : List Token} {tree : Tree} {op : Operator} (whole : Operand tokens tree)
    (here : belongs op = true) :
    Waiting belongs Operand (tokens ++ [.operator op]) (some (tree, op))

inductive Place.Reached : List Token → Place → Prop
  | operand : Reached [] operand
  | behindStep (step : Step) : Reached [.stepBefore step] (behindStep step)
  | behindName (name : Text) : Reached [.name name] (behindName name)
  | complete {tokens : List Token} {tree : Tree} (factor : Factor tokens tree) :
    Reached tokens (complete tree)

theorem Place.Reached.factor {tokens : List Token} {place : Place} {factor : Tree}
    (reached : place.Reached tokens) (finished : place.tree? = some factor) :
    Factor tokens factor := by
  cases reached with
  | operand => cases finished
  | behindStep step => cases finished
  | behindName name =>
    cases finished
    exact .read name
  | complete whole =>
    cases finished
    exact whole

theorem Waiting.joined {belongs : Operator → Bool} {Operand : List Token → Tree → Prop}
    {earlier later : List Token} {pending : Option (Tree × Operator)} {tree : Tree}
    (waiting : Waiting belongs (Chain belongs Operand) earlier pending)
    (last : Operand later tree) :
    Chain belongs Operand (earlier ++ later) (Progress.joined pending tree) := by
  cases waiting with
  | nothing => exact .operand last
  | operand whole here =>
    rw [List.append_assoc]
    exact .binary whole here last

theorem Waiting.closed {belongs : Operator → Bool} {Operand : List Token → Tree → Prop}
    {tokens : List Token} {pending : Option (Tree × Operator)}
    (waiting : Waiting belongs Operand tokens pending) : Closed tokens := by
  cases waiting with
  | nothing => exact .nil
  | operand whole here => exact .operator _ _

theorem Waiting.changes_eq {belongs : Operator → Bool} {Operand : List Token → Tree → Prop}
    {tokens : List Token} {pending : Option (Tree × Operator)}
    (waiting : Waiting belongs Operand tokens pending)
    (operand : ∀ {tokens tree}, Operand tokens tree → changes tokens = tree.changes) :
    changes tokens = (pending.map Prod.fst).toList.flatMap Tree.changes := by
  cases waiting with
  | nothing => rfl
  | operand whole here => simp [changes_append_operator, operand whole]

theorem Place.Reached.changes_dropLast {tokens : List Token} {place : Place}
    (reached : place.Reached tokens) : changes tokens.dropLast = [] := by
  cases reached with
  | operand => rfl
  | behindStep step => rfl
  | behindName name => rfl
  | complete factor => exact factor.changes_dropLast

theorem Grammar.Factor.signed {tokens : List Token} {tree : Tree} (factor : Factor tokens tree)
    (signs : Nat) :
    Factor (List.replicate signs (.operator .subtract) ++ tokens)
      (Progress.signed signs tree) := by
  induction signs generalizing tokens tree with
  | zero => exact factor
  | succ signs ih =>
    rw [List.replicate_succ', List.append_assoc]
    exact ih (.opposite factor)

namespace Progress

/-- The tokens that lead to a progress: a sum that waits, a product that waits, signs, and the
tokens of the place. -/
def Reached (tokens : List Token) (progress : Progress) : Prop :=
  ∃ sumTokens productTokens placeTokens,
    tokens = sumTokens ++ (productTokens ++
      (List.replicate progress.signs (.operator .subtract) ++ placeTokens)) ∧
    Waiting Operator.inSum Sentence sumTokens progress.sum ∧
    Waiting Operator.inProduct Term productTokens progress.product ∧
    progress.place.Reached placeTokens

theorem reached_nil : Reached [] {} :=
  ⟨[], [], [], rfl, .nothing, .nothing, .operand⟩

theorem Reached.sentence {tokens : List Token} {progress : Progress} {factor : Tree}
    (reached : Reached tokens progress) (finished : progress.place.tree? = some factor) :
    Sentence tokens (progress.expression factor) := by
  obtain ⟨sumTokens, productTokens, placeTokens, rfl, sum, product, place⟩ := reached
  exact sum.joined (product.joined ((place.factor finished).signed progress.signs))

theorem Reached.behindFactor {tokens : List Token} {progress : Progress} {factor : Tree}
    (reached : Reached tokens progress) (finished : progress.place.tree? = some factor)
    (op : Operator) :
    Reached (tokens ++ [.operator op]) (progress.behindFactor factor op) := by
  have sentence := reached.sentence finished
  obtain ⟨sumTokens, productTokens, placeTokens, rfl, sum, product, place⟩ := reached
  have term := product.joined ((place.factor finished).signed progress.signs)
  by_cases here : op.inProduct = true
  · rw [Progress.behindFactor, if_pos here]
    exact ⟨sumTokens, _, [], by simp, sum, .operand term here, .operand⟩
  · rw [Progress.behindFactor, if_neg here]
    refine ⟨_, [], [], by simp, .operand sentence ?_, .nothing, .operand⟩
    simpa [Operator.inSum] using here

theorem Reached.next {tokens : List Token} {progress following : Progress} {token : Token}
    (reached : Reached tokens progress) (fits : progress.next token = some following) :
    Reached (tokens ++ [token]) following := by
  have operator (factor : Tree) (finished : progress.place.tree? = some factor) :=
    reached.behindFactor finished
  obtain ⟨sumTokens, productTokens, placeTokens, rfl, sum, product, place⟩ := reached
  obtain ⟨pendingSum, pendingProduct, signs, here⟩ := progress
  -- An operator behind a finished factor joins what waits. Any other token only leads on from the
  -- place, and the tokens of what waits stay as they are.
  cases place with
  | operand =>
    cases token with
    | operator op =>
      cases op with
      | subtract =>
        cases fits
        exact ⟨_, _, [], by simp [List.replicate_succ'], sum, product, .operand⟩
      | add | multiply | divide => cases fits
    | number digits =>
      cases fits
      exact ⟨_, _, _, by simp, sum, product, .complete (.literal digits)⟩
    | stepBefore step =>
      cases fits
      exact ⟨_, _, _, by simp, sum, product, .behindStep step⟩
    | name name =>
      cases fits
      exact ⟨_, _, _, by simp, sum, product, .behindName name⟩
    | equals | stepAfter _ | finish => cases fits
  | behindStep step =>
    cases token with
    | name name =>
      cases fits
      exact ⟨_, _, _, by simp, sum, product, .complete (.stepBefore step name)⟩
    | operator _ | equals | stepBefore _ | stepAfter _ | number _ | finish => cases fits
  | behindName name =>
    cases token with
    | stepAfter step =>
      cases fits
      exact ⟨_, _, _, by simp, sum, product, .complete (.stepAfter name step)⟩
    | operator op =>
      cases fits
      exact operator _ rfl op
    | equals | stepBefore _ | number _ | name _ | finish => cases fits
  | complete factor =>
    cases token with
    | operator op =>
      cases fits
      exact operator _ rfl op
    | equals | stepBefore _ | stepAfter _ | number _ | name _ | finish => cases fits

theorem Reached.behind {earlier later : List Token} {start progress : Progress}
    (reached : Reached earlier start) (fit : start.behind later = some progress) :
    Reached (earlier ++ later) progress := by
  induction later generalizing earlier start with
  | nil =>
    cases fit
    simpa using reached
  | cons token later ih =>
    rw [Progress.behind] at fit
    split at fit
    · next following here => simpa using ih (reached.next here) fit
    · cases fit

theorem reached_of_behind {tokens : List Token} {progress : Progress}
    (fit : behind {} tokens = some progress) : Reached tokens progress :=
  reached_nil.behind fit

theorem Reached.changes_dropLast {tokens : List Token} {progress : Progress}
    (reached : Reached tokens progress) :
    changes tokens.dropLast = progress.parts.flatMap Tree.changes := by
  obtain ⟨sumTokens, productTokens, placeTokens, rfl, sum, product, place⟩ := reached
  have closed : Closed (sumTokens ++ (productTokens ++
      List.replicate progress.signs (.operator .subtract))) :=
    sum.closed.append (product.closed.append (closed_replicate _ _))
  have parts : changes (sumTokens ++ (productTokens ++
      List.replicate progress.signs (.operator .subtract))) =
        progress.parts.flatMap Tree.changes := by
    rw [sum.closed.changes_append, product.closed.changes_append, changes_replicate,
      List.append_nil, sum.changes_eq Sentence.changes_eq, product.changes_eq Term.changes_eq,
      Progress.parts, List.flatMap_append]
  rw [← List.append_assoc productTokens, ← List.append_assoc]
  by_cases none : placeTokens = []
  · rw [none, List.append_nil, closed.changes_dropLast, parts]
  · rw [List.dropLast_append_of_ne_nil none, closed.changes_append, place.changes_dropLast,
      List.append_nil, parts]

end Progress

namespace Grammar

theorem sentence_iff {tokens : List Token} {tree : Tree} :
    Sentence tokens tree ↔
      ∃ progress, Progress.behind {} tokens = some progress ∧ progress.tree? = some tree := by
  constructor
  · intro sentence
    obtain ⟨progress, inner, reached, finished, same⟩ := Progress.behind_sentence sentence
    exact ⟨progress, reached, by rw [Progress.tree?, finished, Option.map_some, same]⟩
  · rintro ⟨progress, fit, ended⟩
    obtain ⟨factor, finished, rfl⟩ := Option.map_eq_some_iff.1 ended
    exact (Progress.reached_of_behind fit).sentence finished

theorem Sentence.unique {tokens : List Token} {tree other : Tree} (sentence : Sentence tokens tree)
    (again : Sentence tokens other) : other = tree := by
  obtain ⟨progress, fit, ended⟩ := sentence_iff.1 sentence
  obtain ⟨same, fitSame, endedSame⟩ := sentence_iff.1 again
  cases fit.symm.trans fitSame
  exact Option.some.inj (endedSame.symm.trans ended)

theorem viable_of_behind {tokens : List Token} {progress : Progress}
    (fit : Progress.behind {} tokens = some progress) : Viable tokens := by
  have complete (later : List Token) {last : Progress} {tree : Tree}
      (ahead : progress.behind later = some last) (ended : last.tree? = some tree) :
      Viable tokens :=
    ⟨later, tree, sentence_iff.2 ⟨last, by rw [Progress.behind_append, fit, Option.bind_some, ahead],
      ended⟩⟩
  obtain ⟨sum, product, signs, place⟩ := progress
  cases place with
  | operand => exact complete [.number ['0']] rfl rfl
  | behindStep step => exact complete [.name ['a']] rfl rfl
  | behindName name => exact complete [] rfl rfl
  | complete factor => exact complete [] rfl rfl

theorem viable_iff {tokens : List Token} :
    Viable tokens ↔ ∃ progress, Progress.behind {} tokens = some progress := by
  constructor
  · rintro ⟨later, tree, sentence⟩
    obtain ⟨progress, fit, -⟩ := sentence_iff.1 sentence
    rw [Progress.behind_append] at fit
    obtain ⟨middle, reached, -⟩ := Option.bind_eq_some_iff.1 fit
    exact ⟨middle, reached⟩
  · rintro ⟨progress, fit⟩
    exact viable_of_behind fit

theorem Sentence.length_le_of_misfit {tokens earlier later : List Token} {token : Token}
    {tree : Tree} (sentence : Sentence tokens tree)
    (misfit : Progress.behind {} (earlier ++ [token]) = none)
    (begins : tokens <+: earlier ++ token :: later) : tokens.length ≤ earlier.length := by
  refine Nat.le_of_not_lt fun beyond => ?_
  have whole : earlier ++ [token] <+: tokens := by
    refine List.prefix_of_prefix_length_le ⟨later, by simp⟩ begins ?_
    simp only [List.length_append, List.length_singleton]
    omega
  obtain ⟨rest, rfl⟩ := whole
  obtain ⟨progress, fit, -⟩ := sentence_iff.1 sentence
  rw [Progress.behind_append, misfit] at fit
  cases fit

end Grammar

end LineCalculator
