/-! Actions change a state and end with a value or with a fault. What was changed before a fault
stays changed. -/

namespace LineCalculator

abbrev Action (σ ε α : Type) :=
  ExceptT ε (StateM σ) α

namespace Action

variable {σ ε α β : Type}

def ofExcept (result : Except ε α) : Action σ ε α :=
  fun state => (result, state)

@[simp] theorem apply_pure (a : α) (state : σ) : (pure a : Action σ ε α) state = (.ok a, state) :=
  rfl

theorem apply_bind (first : Action σ ε α) (next : α → Action σ ε β) (state : σ) :
    (first >>= next) state =
      match first state with
      | (.ok a, after) => next a after
      | (.error fault, after) => (.error fault, after) := by
  change (match (first state).1 with
    | .ok a => next a
    | .error fault => (pure (.error fault) : StateM σ (Except ε β))) (first state).2 = _
  rcases first state with ⟨_ | _, after⟩ <;> rfl

theorem apply_bind_of_ok {first : Action σ ε α} {next : α → Action σ ε β} {state after : σ} {a : α}
    (done : first state = (.ok a, after)) : (first >>= next) state = next a after := by
  rw [apply_bind, done]

theorem apply_bind_of_error {first : Action σ ε α} {next : α → Action σ ε β} {state after : σ}
    {fault : ε} (failed : first state = (.error fault, after)) :
    (first >>= next) state = (.error fault, after) := by
  rw [apply_bind, failed]

theorem apply_bind_congr {first other : Action σ ε α} {state : σ}
    (same : first state = other state) (next : α → Action σ ε β) :
    (first >>= next) state = (other >>= next) state := by
  rw [apply_bind, apply_bind, same]

theorem apply_bind_eq_ok_iff {first : Action σ ε α} {next : α → Action σ ε β} {state last : σ}
    {b : β} : (first >>= next) state = (.ok b, last) ↔
      ∃ a after, first state = (.ok a, after) ∧ next a after = (.ok b, last) := by
  constructor
  · intro done
    rw [apply_bind] at done
    split at done
    · next a after here => exact ⟨a, after, here, done⟩
    · cases done
  · rintro ⟨a, after, here, done⟩
    rw [apply_bind_of_ok here, done]

theorem apply_bind_eq_error_iff {first : Action σ ε α} {next : α → Action σ ε β}
    {state last : σ} {fault : ε} : (first >>= next) state = (.error fault, last) ↔
      first state = (.error fault, last) ∨
        ∃ a after, first state = (.ok a, after) ∧ next a after = (.error fault, last) := by
  constructor
  · intro failed
    rw [apply_bind] at failed
    split at failed
    · next a after here => exact .inr ⟨a, after, here, failed⟩
    · next found after here =>
      cases failed
      exact .inl here
  · rintro (here | ⟨a, after, here, failed⟩)
    · exact apply_bind_of_error here
    · rw [apply_bind_of_ok here, failed]

@[simp] theorem apply_get (state : σ) : (get : Action σ ε σ) state = (.ok state, state) :=
  rfl

@[simp] theorem apply_modify (f : σ → σ) (state : σ) :
    (modify f : Action σ ε PUnit) state = (.ok ⟨⟩, f state) :=
  rfl

@[simp] theorem apply_ofExcept (result : Except ε α) (state : σ) :
    (ofExcept result : Action σ ε α) state = (result, state) :=
  rfl

@[simp] theorem ofExcept_ok (a : α) : (ofExcept (.ok a) : Action σ ε α) = pure a := rfl

theorem apply_bind_eq_ofExcept_bind {first : Action σ ε α} {state after : σ} {result : Except ε α}
    (done : first state = (result, after)) (next : α → Action σ ε β) :
    (first >>= next) state = (ofExcept result >>= next) after := by
  rw [apply_bind, apply_bind, done, apply_ofExcept]

theorem ofExcept_bind (result : Except ε α) (next : α → Except ε β) :
    (ofExcept (result >>= next) : Action σ ε β) =
      ofExcept result >>= fun a => ofExcept (next a) := by
  cases result <;> rfl

def Respects (relation : σ → σ → Prop) (action : Action σ ε α) : Prop :=
  ∀ state, relation state (action state).2

def fault? : Except ε α → Option ε
  | .ok _ => none
  | .error fault => some fault

/-- An action ensures a relation between the state before, the fault with which it ends, if it
fails, and the state after. -/
def Ensures (relation : σ → Option ε → σ → Prop) (action : Action σ ε α) : Prop :=
  ∀ state, relation state (fault? (action state).1) (action state).2

/-- A relation that holds where nothing is done, and of what is done in two parts if it holds of
each of them. -/
structure Sequential (relation : σ → Option ε → σ → Prop) : Prop where
  refl : ∀ state, relation state none state
  trans : ∀ {first second third fault}, relation first none second → relation second fault third →
    relation first fault third

theorem Ensures.pure {relation : σ → Option ε → σ → Prop} (sequential : Sequential relation)
    (a : α) : Ensures relation (pure a : Action σ ε α) :=
  sequential.refl

theorem Ensures.get {relation : σ → Option ε → σ → Prop} (sequential : Sequential relation) :
    Ensures relation (get : Action σ ε σ) :=
  sequential.refl

theorem Ensures.ofExcept {relation : σ → Option ε → σ → Prop} (sequential : Sequential relation)
    {result : Except ε α}
    (failing : ∀ state fault, result = .error fault → relation state (some fault) state) :
    Ensures relation (ofExcept result) := by
  intro state
  cases result with
  | ok a => exact sequential.refl state
  | error fault => exact failing state fault rfl

theorem Sequential.bind {relation : σ → Option ε → σ → Prop} (sequential : Sequential relation)
    {first : Action σ ε α} {next : α → Action σ ε β} {state : σ}
    (start : relation state (fault? (first state).1) (first state).2)
    (rest : ∀ a after, first state = (.ok a, after) →
      relation after (fault? (next a after).1) (next a after).2) :
    relation state (fault? ((first >>= next) state).1) ((first >>= next) state).2 := by
  rw [apply_bind]
  split
  · next a after done =>
    rw [done] at start
    exact sequential.trans start (rest a after done)
  · next fault after failed =>
    rw [failed] at start
    exact start

theorem Ensures.bind {relation : σ → Option ε → σ → Prop} (sequential : Sequential relation)
    {first : Action σ ε α} {next : α → Action σ ε β} (start : Ensures relation first)
    (rest : ∀ a, Ensures relation (next a)) : Ensures relation (first >>= next) :=
  fun state => sequential.bind (start state) fun a after _ => rest a after

/-- From related states two actions come to the same result, and they leave related states. -/
def Matches {τ : Type} (relation : σ → τ → Prop) (action : Action σ ε α) (other : Action τ ε α) :
    Prop :=
  ∀ left right, relation left right →
    (action left).1 = (other right).1 ∧ relation (action left).2 (other right).2

theorem Matches.ofExcept {τ : Type} {relation : σ → τ → Prop} (result : Except ε α) :
    Matches relation (ofExcept result) (ofExcept result) :=
  fun _ _ related => ⟨rfl, related⟩

theorem Matches.bind {τ : Type} {relation : σ → τ → Prop} {first : Action σ ε α}
    {other : Action τ ε α} {next : α → Action σ ε β} {further : α → Action τ ε β}
    (start : Matches relation first other) (rest : ∀ a, Matches relation (next a) (further a)) :
    Matches relation (first >>= next) (other >>= further) := by
  intro left right related
  obtain ⟨same, kept⟩ := start left right related
  rw [apply_bind, apply_bind]
  -- The results are equal, so the second action runs on both sides or on neither.
  cases here : first left with
  | mk result middle =>
    cases there : other right with
    | mk outcome after =>
      rw [here, there] at same kept
      cases same
      cases result with
      | ok a => exact rest a middle after kept
      | error fault => exact ⟨rfl, kept⟩

def Relates (relation : σ → σ → Prop) (action : Action σ ε α) : Prop :=
  ∀ left right, relation left right →
    (action left).1 = (action right).1 ∧ relation (action left).2 (action right).2

theorem Relates.ofExcept {relation : σ → σ → Prop} (result : Except ε α) :
    Relates relation (ofExcept result) :=
  fun _ _ related => ⟨rfl, related⟩

theorem Relates.bind {relation : σ → σ → Prop} {first : Action σ ε α}
    {next : α → Action σ ε β} (start : Relates relation first)
    (rest : ∀ a, Relates relation (next a)) : Relates relation (first >>= next) :=
  Matches.bind start rest

def FailsOnly (expected : ε → Prop) (action : Action σ ε α) : Prop :=
  ∀ state fault after, action state = (.error fault, after) → expected fault

theorem FailsOnly.pure {expected : ε → Prop} (a : α) :
    FailsOnly expected (pure a : Action σ ε α) := by
  intro state fault after failed
  cases failed

theorem FailsOnly.ofExcept {expected : ε → Prop} {result : Except ε α}
    (only : ∀ fault, result = .error fault → expected fault) :
    FailsOnly expected (ofExcept result : Action σ ε α) :=
  fun _ fault _ failed => only fault (congrArg Prod.fst failed)

theorem FailsOnly.bind {expected : ε → Prop} {first : Action σ ε α} {next : α → Action σ ε β}
    (start : FailsOnly expected first) (rest : ∀ a, FailsOnly expected (next a)) :
    FailsOnly expected (first >>= next) := by
  intro state fault after failed
  rcases apply_bind_eq_error_iff.1 failed with here | ⟨a, middle, -, later⟩
  · exact start state fault after here
  · exact rest a middle fault after later

end Action

end LineCalculator
