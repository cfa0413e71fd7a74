import LineCalculator.Proofs.Items
import LineCalculator.Proofs.Progress

/-! Readings of expressions. Items are read as long as they fit, without evaluating anything. What
comes of it is the tree of the longest expression, or the trees of the parts that were finished
when a token did not fit or a fault was found.

Evaluating a reading means to evaluate its trees from left to right and then, if the expression
was not read to its end, to fail for that reason. Values of parts that wait are computed first,
so a fault in one of them is the fault of every reading that goes on from there. -/

namespace LineCalculator

/-- What reading an expression comes to, with the items that are left. -/
inductive Reading where
  | whole (tree : Tree) (rest : List Item)
  | refused (parts : List Tree) (token : Token) (rest : List Item)
  | faulty (parts : List Tree) (fault : ReadingFault)

namespace Reading

def trees : Reading → List Tree
  | whole tree _ => [tree]
  | refused parts _ _ => parts
  | faulty parts _ => parts

def evaluate : Reading → Action Variables Fault Int
  | whole tree _ => tree.evaluate
  | refused parts token _ => do
    Tree.evaluateAll parts
    throw (.reading (.unexpectedToken token.text))
  | faulty parts fault => do
    Tree.evaluateAll parts
    throw (.reading fault)

theorem evaluate_error_cases {reading : Reading} {values after : Variables} {fault : Fault}
    (failed : reading.evaluate values = (.error fault, after)) :
    fault.InValues ∨
      (∃ parts token rest, reading = .refused parts token rest ∧
        fault = .reading (.unexpectedToken token.text)) ∨
      ∃ parts flaw, reading = .faulty parts flaw ∧ fault = .reading flaw ∧
        Tree.evaluateAll parts values = (.ok (), after) := by
  cases reading with
  | whole tree rest => exact .inl (tree.failsOnly_evaluate _ _ _ failed)
  | refused parts token rest =>
    rcases Action.apply_bind_eq_error_iff.1 failed with early | ⟨nothing, middle, done, thrown⟩
    · exact .inl (Tree.failsOnly_evaluateAll parts _ _ _ early)
    · cases thrown
      exact .inr (.inl ⟨parts, token, rest, rfl, rfl⟩)
  | faulty parts flaw =>
    rcases Action.apply_bind_eq_error_iff.1 failed with early | ⟨nothing, middle, done, thrown⟩
    · exact .inl (Tree.failsOnly_evaluateAll parts _ _ _ early)
    · cases thrown
      exact .inr (.inr ⟨parts, flaw, rfl, rfl, done⟩)

end Reading

namespace Progress

def ended (progress : Progress) (token : Token) (rest : List Item) : Reading :=
  match progress.tree? with
  | some tree => .whole tree rest
  | none => .refused progress.parts token rest

def read (progress : Progress) : List Item → Reading
  | [] => progress.ended .finish []
  | .error fault :: _ => .faulty progress.parts fault
  | .ok token :: rest =>
    match progress.next token with
    | some following => following.read rest
    | none => progress.ended token (.ok token :: rest)

theorem read_append {start progress : Progress} {tokens : List Token}
    (fit : start.behind tokens = some progress) (rest : List Item) :
    start.read (tokens.map .ok ++ rest) = progress.read rest := by
  induction tokens generalizing start with
  | nil =>
    cases fit
    rfl
  | cons token later ih =>
    rw [behind] at fit
    split at fit
    · next following fits =>
      rw [List.map_cons, List.cons_append, read, fits]
      exact ih fit
    · cases fit

theorem read_cases (start : Progress) (items : List Item) :
    ∃ tokens rest progress, items = tokens.map .ok ++ rest ∧ start.behind tokens = some progress ∧
      ((∃ token, start.read items = progress.ended token rest) ∨
        ∃ fault later, rest = .error fault :: later ∧
          start.read items = .faulty progress.parts fault) := by
  induction items generalizing start with
  | nil => exact ⟨[], [], start, rfl, rfl, .inl ⟨.finish, rfl⟩⟩
  | cons item items ih =>
    cases item with
    | error fault => exact ⟨[], .error fault :: items, start, rfl, rfl, .inr ⟨fault, items, rfl, rfl⟩⟩
    | ok token =>
      cases fits : start.next token with
      | none =>
        refine ⟨[], .ok token :: items, start, rfl, rfl, .inl ⟨token, ?_⟩⟩
        rw [read, fits]
      | some following =>
        obtain ⟨tokens, rest, progress, rfl, fit, outcome⟩ := ih following
        have reached : start.behind (token :: tokens) = some progress := by
          rw [behind, fits]
          exact fit
        refine ⟨token :: tokens, rest, progress, rfl, reached, ?_⟩
        rw [read, fits]
        exact outcome

theorem read_eq_whole {start : Progress} {items rest : List Item} {tree : Tree}
    (whole : start.read items = .whole tree rest) :
    ∃ tokens progress, items = tokens.map .ok ++ rest ∧ start.behind tokens = some progress ∧
      progress.tree? = some tree := by
  obtain ⟨tokens, left, progress, split, fit, ⟨token, same⟩ | ⟨fault, later, -, same⟩⟩ :=
    read_cases start items
  · rw [same, ended] at whole
    split at whole
    · next found =>
      cases whole
      exact ⟨tokens, progress, split, fit, found⟩
    · cases whole
  · cases same.symm.trans whole

theorem read_eq_faulty {start : Progress} {items : List Item} {parts : List Tree}
    {fault : ReadingFault} (faulty : start.read items = .faulty parts fault) :
    ∃ tokens rest progress, items = tokens.map .ok ++ .error fault :: rest ∧
      start.behind tokens = some progress ∧ progress.parts = parts := by
  obtain ⟨tokens, left, progress, split, fit, ⟨token, same⟩ | ⟨found, later, rfl, same⟩⟩ :=
    read_cases start items
  · rw [same, ended] at faulty
    split at faulty <;> cases faulty
  · cases same.symm.trans faulty
    exact ⟨tokens, later, progress, split, fit, rfl⟩

def evaluateWaiting : Option (Tree × Operator) → Action Variables Fault (Option (Int × Operator))
  | none => pure none
  | some (tree, op) => do return some (← tree.evaluate, op)

def evaluate (progress : Progress) :
    Action Variables Fault (Option (Int × Operator) × Option (Int × Operator)) := do
  let sum ← evaluateWaiting progress.sum
  let product ← evaluateWaiting progress.product
  return (sum, product)

def signedValue : Nat → Int → Except Fault Int
  | 0, value => .ok value
  | signs + 1, value => (negate value).mapError .arithmetic >>= signedValue signs

def joinedValue : Option (Int × Operator) → Int → Except Fault Int
  | none, value => .ok value
  | some (left, op), value => (op.apply left value).mapError .arithmetic

def termValue (product : Option (Int × Operator)) (signs : Nat) (value : Int) :
    Except Fault Int :=
  signedValue signs value >>= joinedValue product

/-- The values that wait behind a factor and an operator. -/
def behindValue (sum product : Option (Int × Operator)) (signs : Nat) (op : Operator)
    (value : Int) : Except Fault (Option (Int × Operator) × Option (Int × Operator)) := do
  let value ← termValue product signs value
  if op.inProduct then
    return (sum, some (value, op))
  else
    return (some (← joinedValue sum value, op), none)

theorem evaluate_signed (signs : Nat) (tree : Tree) :
    (signed signs tree).evaluate =
      tree.evaluate >>= fun value => .ofExcept (signedValue signs value) := by
  induction signs generalizing tree with
  | zero => exact (bind_pure tree.evaluate).symm
  | succ signs ih =>
    rw [signed, ih, Tree.evaluate, bind_assoc]
    congr
    funext value
    exact (Action.ofExcept_bind _ _).symm

theorem evaluate_joined (pending : Option (Tree × Operator)) (tree : Tree) :
    (joined pending tree).evaluate = evaluateWaiting pending >>= fun left =>
      tree.evaluate >>= fun value => .ofExcept (joinedValue left value) := by
  cases pending with
  | none => exact (bind_pure tree.evaluate).symm
  | some left =>
    obtain ⟨left, op⟩ := left
    simp only [joined, Tree.evaluate, evaluateWaiting, bind_assoc, pure_bind, joinedValue]

theorem evaluate_term (progress : Progress) (factor : Tree) :
    (progress.term factor).evaluate = evaluateWaiting progress.product >>= fun product =>
      factor.evaluate >>= fun value => .ofExcept (termValue product progress.signs value) := by
  simp only [term, evaluate_joined, evaluate_signed, bind_assoc, termValue, Action.ofExcept_bind]

theorem evaluate_expression (progress : Progress) (factor : Tree) :
    (progress.expression factor).evaluate = progress.evaluate >>= fun waiting =>
      factor.evaluate >>= fun value =>
        .ofExcept (termValue waiting.2 progress.signs value >>= joinedValue waiting.1) := by
  simp only [expression, evaluate_joined, evaluate_term, evaluate, bind_assoc, pure_bind,
    Action.ofExcept_bind]

theorem evaluate_behindFactor (progress : Progress) (factor : Tree) (op : Operator) :
    (progress.behindFactor factor op).evaluate = progress.evaluate >>= fun waiting =>
      factor.evaluate >>= fun value =>
        .ofExcept (behindValue waiting.1 waiting.2 progress.signs op value) := by
  by_cases here : op.inProduct = true
  · simp only [behindFactor, if_pos here, behindValue]
    simp only [evaluate, evaluateWaiting, evaluate_term, bind_assoc, pure_bind,
      Action.ofExcept_bind]
    rfl
  · simp only [behindFactor, if_neg here, behindValue]
    simp only [evaluate, evaluateWaiting, evaluate_expression, bind_assoc, pure_bind,
      Action.ofExcept_bind]
    rfl

theorem evaluateAll_parts (progress : Progress) :
    Tree.evaluateAll progress.parts = progress.evaluate >>= fun _ => pure () := by
  obtain ⟨sum, product, signs, place⟩ := progress
  cases sum <;> cases product <;>
    simp [parts, evaluate, evaluateWaiting, Tree.evaluateAll]

theorem evaluateAll_parts_of_ok {progress : Progress} {start after : Variables}
    {waiting : Option (Int × Operator) × Option (Int × Operator)}
    (evaluated : progress.evaluate start = (.ok waiting, after)) :
    Tree.evaluateAll progress.parts start = (.ok (), after) := by
  rw [evaluateAll_parts, Action.apply_bind_of_ok evaluated]
  rfl

end Progress

end LineCalculator
