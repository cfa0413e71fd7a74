import LineCalculator.Proofs.Grammar

/-! How far an expression has been read. Tokens take one progress to the next, as long as they
fit, and the trees of the finished parts wait for the operands behind them.

The main statements are that the tokens of a sentence lead to its tree and no others do, and that
some tokens can begin a sentence exactly when they all fit. A sentence therefore has one tree. -/

namespace LineCalculator

open Grammar

inductive Place where
  /-- A factor must begin. -/
  | operand
  /-- A name must come. -/
  | behindStep (step : Step)
  /-- A step may touch the name. -/
  | behindName (name : Text)
  /-- Behind a factor that nothing can touch. -/
  | complete (factor : Tree)
  deriving DecidableEq, Repr

/-- The factor that is finished here, without the signs in front of it. -/
def Place.tree? : Place → Option Tree
  | behindName name => some (.read name)
  | complete factor => some factor
  | operand | behindStep _ => none

/-- An expression up to some token: the operands that wait for one on their right, the number of
signs that wait for their factor, and the place. -/
structure Progress where
  sum : Option (Tree × Operator) := none
  product : Option (Tree × Operator) := none
  signs : Nat := 0
  place : Place := .operand
  deriving DecidableEq, Repr

namespace Progress

def signed : Nat → Tree → Tree
  | 0, tree => tree
  | signs + 1, tree => signed signs (.opposite tree)

def joined : Option (Tree × Operator) → Tree → Tree
  | none, tree => tree
  | some (left, op), tree => .binary op left tree

def term (progress : Progress) (factor : Tree) : Tree :=
  joined progress.product (signed progress.signs factor)

def expression (progress : Progress) (factor : Tree) : Tree :=
  joined progress.sum (progress.term factor)

def behindFactor (progress : Progress) (factor : Tree) (op : Operator) : Progress :=
  if op.inProduct then
    { sum := progress.sum, product := some (progress.term factor, op) }
  else
    { sum := some (progress.expression factor, op) }

def next (progress : Progress) (token : Token) : Option Progress :=
  match progress.place, token with
  | .operand, .operator .subtract => some { progress with signs := progress.signs + 1 }
  | .operand, .number digits => some { progress with place := .complete (.literal digits) }
  | .operand, .stepBefore step => some { progress with place := .behindStep step }
  | .operand, .name name => some { progress with place := .behindName name }
  | .behindStep step, .name name =>
    some { progress with place := .complete (.stepped .before step name) }
  | .behindName name, .stepAfter step =>
    some { progress with place := .complete (.stepped .after step name) }
  | .behindName name, .operator op => some (progress.behindFactor (.read name) op)
  | .complete factor, .operator op => some (progress.behindFactor factor op)
  | _, _ => none

def behind : Progress → List Token → Option Progress
  | progress, [] => some progress
  | progress, token :: later =>
    match progress.next token with
    | some next => next.behind later
    | none => none

def tree? (progress : Progress) : Option Tree :=
  progress.place.tree?.map progress.expression

def parts (progress : Progress) : List Tree :=
  (progress.sum.map Prod.fst).toList ++ (progress.product.map Prod.fst).toList

@[simp] theorem place_behindFactor (progress : Progress) (factor : Tree) (op : Operator) :
    (progress.behindFactor factor op).place = .operand := by
  rw [behindFactor]
  split <;> rfl

@[simp] theorem signs_behindFactor (progress : Progress) (factor : Tree) (op : Operator) :
    (progress.behindFactor factor op).signs = 0 := by
  rw [behindFactor]
  split <;> rfl

theorem behind_append (progress : Progress) (earlier later : List Token) :
    progress.behind (earlier ++ later) =
      (progress.behind earlier).bind fun middle => middle.behind later := by
  induction earlier generalizing progress with
  | nil => rfl
  | cons token earlier ih =>
    rw [List.cons_append, behind, behind]
    cases progress.next token with
    | none => rfl
    | some next => exact ih next

theorem next_operator {progress : Progress} {factor : Tree}
    (finished : progress.place.tree? = some factor) (op : Operator) :
    progress.next (.operator op) = some (progress.behindFactor factor op) := by
  obtain ⟨sum, product, signs, place⟩ := progress
  cases place <;> simp_all [Place.tree?, next]

theorem next_cases {progress following : Progress} {token : Token}
    (fits : progress.next token = some following) :
    (following.sum = progress.sum ∧ following.product = progress.product) ∨
      ∃ factor op, token = .operator op ∧ progress.place.tree? = some factor ∧
        following = progress.behindFactor factor op := by
  obtain ⟨sum, product, signs, place⟩ := progress
  cases place with
  | operand =>
    cases token with
    | operator op =>
      cases op <;> cases fits
      exact .inl ⟨rfl, rfl⟩
    | number _ | stepBefore _ | name _ => cases fits; exact .inl ⟨rfl, rfl⟩
    | equals | stepAfter _ | finish => cases fits
  | behindStep step =>
    cases token <;> cases fits
    exact .inl ⟨rfl, rfl⟩
  | behindName name =>
    cases token with
    | operator op => cases fits; exact .inr ⟨_, op, rfl, rfl, rfl⟩
    | stepAfter step => cases fits; exact .inl ⟨rfl, rfl⟩
    | equals | stepBefore _ | number _ | name _ | finish => cases fits
  | complete factor =>
    cases token <;> cases fits
    exact .inr ⟨_, _, rfl, rfl, rfl⟩

theorem next_of_complete {progress following : Progress} {factor : Tree} {token : Token}
    (complete : progress.place = .complete factor) (fits : progress.next token = some following) :
    ∃ op, token = .operator op := by
  rw [next.eq_def, complete] at fits
  cases token <;> simp_all

theorem next_of_finished {progress following : Progress} {factor : Tree} {token : Token}
    (finished : progress.place.tree? = some factor) (fits : progress.next token = some following) :
    (∃ op, token = .operator op) ∨ ∃ tree, following.tree? = some tree := by
  obtain ⟨sum, product, signs, place⟩ := progress
  cases place with
  | operand | behindStep _ => cases finished
  | behindName name =>
    cases token with
    | operator op => exact .inl ⟨op, rfl⟩
    | stepAfter step => cases fits; exact .inr ⟨_, rfl⟩
    | equals | stepBefore _ | number _ | name _ | finish => cases fits
  | complete known => exact .inl (next_of_complete rfl fits)

theorem behind_append_operator {start progress : Progress} {earlier : List Token}
    {factor : Tree} (reached : start.behind earlier = some progress)
    (finished : progress.place.tree? = some factor) (op : Operator) (later : List Token) :
    start.behind (earlier ++ .operator op :: later) =
      (progress.behindFactor factor op).behind later := by
  rw [behind_append, reached, Option.bind_some, behind, next_operator finished]

theorem behind_factor {tokens : List Token} {tree : Tree} (factor : Factor tokens tree)
    (start : Progress) (fresh : start.place = .operand) :
    ∃ progress inner, start.behind tokens = some progress ∧
      progress.place.tree? = some inner ∧ progress.sum = start.sum ∧
      progress.product = start.product ∧
      signed progress.signs inner = signed start.signs tree := by
  obtain ⟨sum, product, signs, place⟩ := start
  cases fresh
  induction factor generalizing signs with
  | literal digits => exact ⟨_, _, rfl, rfl, rfl, rfl, rfl⟩
  | read name => exact ⟨_, _, rfl, rfl, rfl, rfl, rfl⟩
  | stepBefore step name => exact ⟨_, _, rfl, rfl, rfl, rfl, rfl⟩
  | stepAfter name step => exact ⟨_, _, rfl, rfl, rfl, rfl, rfl⟩
  | opposite inner ih => exact ih (signs + 1)

theorem behind_term {tokens : List Token} {tree : Tree} (term : Term tokens tree)
    (start : Progress) (fresh : start = { sum := start.sum }) :
    ∃ progress inner, start.behind tokens = some progress ∧
      progress.place.tree? = some inner ∧ progress.sum = start.sum ∧
      progress.term inner = tree := by
  induction term with
  | operand only =>
    obtain ⟨progress, inner, reached, finished, sum, product, same⟩ :=
      behind_factor only start (by rw [fresh])
    refine ⟨progress, inner, reached, finished, sum, ?_⟩
    rw [Progress.term, product, same, fresh]
    rfl
  | @binary earlier later left right op chain here last ih =>
    obtain ⟨middle, inner, reached, finished, sum, rfl⟩ := ih
    obtain ⟨progress, final, ahead, ended, sameSum, product, same⟩ :=
      behind_factor last (middle.behindFactor inner op) (by rw [behindFactor, if_pos here])
    rw [behindFactor, if_pos here] at sameSum product same
    refine ⟨progress, final, ?_, ended, sameSum.trans sum, ?_⟩
    · rw [behind_append_operator reached finished, ahead]
    · rw [Progress.term, product, same]
      rfl

theorem behind_sentence {tokens : List Token} {tree : Tree} (sentence : Sentence tokens tree) :
    ∃ progress inner, behind {} tokens = some progress ∧
      progress.place.tree? = some inner ∧ progress.expression inner = tree := by
  induction sentence with
  | operand only =>
    obtain ⟨progress, inner, reached, finished, sum, same⟩ := behind_term only {} rfl
    refine ⟨progress, inner, reached, finished, ?_⟩
    rw [expression, sum, same]
    rfl
  | @binary earlier later left right op chain here last ih =>
    obtain ⟨middle, inner, reached, finished, rfl⟩ := ih
    have outside : ¬op.inProduct = true := by simpa [Operator.inSum] using here
    obtain ⟨progress, final, ahead, ended, sum, same⟩ :=
      behind_term last (middle.behindFactor inner op) (by rw [behindFactor, if_neg outside])
    rw [behindFactor, if_neg outside] at sum
    refine ⟨progress, final, ?_, ended, ?_⟩
    · rw [behind_append_operator reached finished, ahead]
    · rw [expression, sum, same]
      rfl

end Progress

end LineCalculator
