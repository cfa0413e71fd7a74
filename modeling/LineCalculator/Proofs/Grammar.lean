import LineCalculator.Proofs.Tree

/-! The grammar of expressions over their tokens. A sentence is a chain of terms with the
operators of a sum, a term is a chain of factors with the operators of a product, and chains
group to the left. -/

namespace LineCalculator.Grammar

inductive Factor : List Token → Tree → Prop
  | literal (digits : Text) : Factor [.number digits] (.literal digits)
  | read (name : Text) : Factor [.name name] (.read name)
  | stepBefore (step : Step) (name : Text) :
    Factor [.stepBefore step, .name name] (.stepped .before step name)
  | stepAfter (name : Text) (step : Step) :
    Factor [.name name, .stepAfter step] (.stepped .after step name)
  | opposite {tokens : List Token} {operand : Tree} (inner : Factor tokens operand) :
    Factor (.operator .subtract :: tokens) (.opposite operand)

/-- Operands with operators between them, grouped to the left. -/
inductive Chain (belongs : Operator → Bool) (Operand : List Token → Tree → Prop) :
    List Token → Tree → Prop
  | operand {tokens : List Token} {tree : Tree} (only : Operand tokens tree) :
    Chain belongs Operand tokens tree
  | binary {earlier later : List Token} {left right : Tree} {op : Operator}
    (chain : Chain belongs Operand earlier left) (here : belongs op = true)
    (last : Operand later right) :
    Chain belongs Operand (earlier ++ .operator op :: later) (.binary op left right)

def Term : List Token → Tree → Prop :=
  Chain Operator.inProduct Factor

def Sentence : List Token → Tree → Prop :=
  Chain Operator.inSum Term

/-- Tokens with which a sentence can begin. -/
def Viable (tokens : List Token) : Prop :=
  ∃ later tree, Sentence (tokens ++ later) tree

/-- The changes whose factors lie within some tokens: a step and the name behind it, or a name
and the step that touches it. -/
def changes : List Token → List Change
  | .stepBefore step :: .name name :: later => ⟨step, name⟩ :: changes later
  | .name name :: .stepAfter step :: later => ⟨step, name⟩ :: changes later
  | _ :: later => changes later
  | [] => []

@[simp] theorem changes_nil : changes [] = [] := rfl

@[simp] theorem changes_operator_cons (op : Operator) (later : List Token) :
    changes (.operator op :: later) = changes later := by
  simp [changes]

theorem changes_append_operator (earlier : List Token) (op : Operator) (later : List Token) :
    changes (earlier ++ .operator op :: later) = changes earlier ++ changes later := by
  fun_induction changes earlier with
  | case1 step name rest ih => simpa [changes] using ih
  | case2 name step rest ih => simpa [changes] using ih
  | case3 token rest single touched ih =>
    cases rest with
    | nil => cases token <;> simp [changes]
    | cons following rest =>
      simp only [List.cons_append] at ih ⊢
      rw [changes.eq_3 _ _ (by simp_all) (by simp_all), ih]
  | case4 => simp

theorem changes_prefix {earlier tokens : List Token} (begins : earlier <+: tokens) :
    changes earlier <+: changes tokens := by
  obtain ⟨later, rfl⟩ := begins
  fun_induction changes earlier with
  | case1 step name rest ih => simpa [changes] using ih
  | case2 name step rest ih => simpa [changes] using ih
  | case3 token rest single touched ih =>
    cases rest with
    | nil => exact List.nil_prefix
    | cons following rest =>
      simp only [List.cons_append] at ih ⊢
      rwa [changes.eq_3 token (following :: (rest ++ later)) (by simp_all) (by simp_all)]
  | case4 => exact List.nil_prefix

theorem name_mem_of_mem_changes {tokens : List Token} {change : Change}
    (here : change ∈ changes tokens) : .name change.name ∈ tokens := by
  fun_induction changes tokens with
  | case1 step name rest ih =>
    rcases List.mem_cons.1 here with rfl | later
    · simp
    · simp [ih later]
  | case2 name step rest ih =>
    rcases List.mem_cons.1 here with rfl | later
    · simp
    · simp [ih later]
  | case3 token rest single touched ih => exact List.mem_cons_of_mem token (ih here)
  | case4 => cases here

inductive Closed : List Token → Prop
  | nil : Closed []
  | operator (earlier : List Token) (op : Operator) : Closed (earlier ++ [.operator op])

theorem Closed.append {earlier later : List Token} (first : Closed earlier)
    (second : Closed later) : Closed (earlier ++ later) := by
  cases second with
  | nil => simpa using first
  | operator middle op =>
    rw [← List.append_assoc]
    exact .operator _ op

theorem closed_replicate (count : Nat) (op : Operator) :
    Closed (List.replicate count (.operator op)) := by
  cases count with
  | zero => exact .nil
  | succ count =>
    rw [List.replicate_succ']
    exact .operator _ op

theorem Closed.changes_append {earlier : List Token} (closed : Closed earlier)
    (later : List Token) : changes (earlier ++ later) = changes earlier ++ changes later := by
  cases closed with
  | nil => rfl
  | operator earlier op => simp [changes_append_operator]

theorem Closed.changes_dropLast {tokens : List Token} (closed : Closed tokens) :
    changes tokens.dropLast = changes tokens := by
  cases closed with
  | nil => rfl
  | operator earlier op => simp [changes_append_operator]

theorem changes_replicate (count : Nat) (op : Operator) :
    changes (List.replicate count (.operator op)) = [] := by
  induction count with
  | zero => rfl
  | succ count ih => rw [List.replicate_succ, changes_operator_cons, ih]

theorem Factor.ne_nil {tokens : List Token} {tree : Tree} (factor : Factor tokens tree) :
    tokens ≠ [] := by
  cases factor <;> simp

theorem Factor.changes_eq {tokens : List Token} {tree : Tree} (factor : Factor tokens tree) :
    changes tokens = tree.changes := by
  induction factor with
  | literal digits => rfl
  | read name => rfl
  | stepBefore step name => rfl
  | stepAfter name step => rfl
  | opposite inner ih => simpa [Tree.changes] using ih

theorem Factor.changes_dropLast {tokens : List Token} {tree : Tree}
    (factor : Factor tokens tree) : changes tokens.dropLast = [] := by
  induction factor with
  | literal digits => rfl
  | read name => rfl
  | stepBefore step name => rfl
  | stepAfter name step => rfl
  | opposite inner ih => rw [List.dropLast_cons_of_ne_nil inner.ne_nil, changes_operator_cons, ih]

theorem Chain.changes_eq {belongs : Operator → Bool} {Operand : List Token → Tree → Prop}
    (operand : ∀ {tokens tree}, Operand tokens tree → changes tokens = tree.changes)
    {tokens : List Token} {tree : Tree} (chain : Chain belongs Operand tokens tree) :
    changes tokens = tree.changes := by
  induction chain with
  | operand only => exact operand only
  | binary chain here last ih => rw [changes_append_operator, ih, operand last, Tree.changes]

theorem Term.changes_eq {tokens : List Token} {tree : Tree} (term : Term tokens tree) :
    changes tokens = tree.changes :=
  Chain.changes_eq Factor.changes_eq term

theorem Sentence.changes_eq {tokens : List Token} {tree : Tree}
    (sentence : Sentence tokens tree) : changes tokens = tree.changes :=
  Chain.changes_eq Term.changes_eq sentence

end LineCalculator.Grammar
