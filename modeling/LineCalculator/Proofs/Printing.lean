import LineCalculator.Proofs.Coverage
import LineCalculator.Proofs.Spelling

/-! Printing tokens and reading them back. A space in front of every token keeps it from growing
together with the one before it; only a step behind a name has none, since it must touch.

The main statement is that the lists of tokens that can be read off some text are those whose steps
are placed well, and that each of them is read off what it prints as. -/

namespace LineCalculator

/-- The steps that may touch the last of some tokens, which are given from the last one backwards:
both behind a name, and a decrement behind a name with an increment. -/
def mayTouch : List Token → List Step
  | .name _ :: _ => [.increment, .decrement]
  | .stepAfter .increment :: .name _ :: _ => [.decrement]
  | _ => []

/-- The steps within some tokens touch what they may, when others, from the last one backwards, come
before the first. -/
def WellPlaced (before tokens : List Token) : Prop :=
  ∀ earlier step later, tokens = earlier ++ .stepAfter step :: later →
    step ∈ mayTouch (earlier.reverse ++ before)

/-- Tokens that can come from one text: the end is not among them, each is spelled as its kind asks
for, and steps touch what they may. -/
structure WellFormed (tokens : List Token) : Prop where
  unfinished : .finish ∉ tokens
  spelled : ∀ token ∈ tokens, token.WellSpelled
  placed : WellPlaced [] tokens

def Token.printed : Token → Text
  | stepAfter step => step.text
  | token => ' ' :: token.text

def printed (tokens : List Token) : Text :=
  tokens.flatMap Token.printed

theorem wellPlaced_nil (before : List Token) : WellPlaced before [] := by
  intro earlier step later split
  simp at split

theorem wellPlaced_cons {before later : List Token} {token : Token} :
    WellPlaced before (token :: later) ↔
      (∀ step, token = .stepAfter step → step ∈ mayTouch before) ∧
        WellPlaced (token :: before) later := by
  constructor
  · refine fun placed => ⟨fun step same => placed [] step later (by rw [same]; rfl), ?_⟩
    intro earlier step rest split
    simpa using placed (token :: earlier) step rest (by rw [split]; rfl)
  · rintro ⟨here, placed⟩ earlier step rest split
    cases earlier with
    | nil => exact here step (List.cons.inj split).1
    | cons first earlier =>
      obtain ⟨rfl, behind⟩ := List.cons.inj split
      simpa using placed earlier step rest behind

theorem mayTouch_stepAfter {before : List Token} {step : Step} (here : step ∈ mayTouch before) :
    ∃ passed, mayTouch before = passed ++ step :: mayTouch (.stepAfter step :: before) ∧
      step ∉ passed := by
  rw [mayTouch.eq_def] at here
  split at here
  · cases step
    · exact ⟨[], rfl, by simp⟩
    · exact ⟨[.increment], rfl, by simp⟩
  · rw [List.mem_singleton.1 here]
    exact ⟨[], rfl, by simp⟩
  · cases here

theorem sublist_mayTouch_stepAfter {before : List Token} {step : Step} {later : List Step}
    (may : (step :: later).Sublist (mayTouch before)) :
    later.Sublist (mayTouch (.stepAfter step :: before)) := by
  obtain ⟨passed, split, fresh⟩ := mayTouch_stepAfter (may.subset List.mem_cons_self)
  obtain ⟨front, back, cut, within, behind⟩ := List.sublist_append_iff.1 (split ▸ may)
  cases front with
  | nil =>
    rw [List.nil_append] at cut
    rw [← cut] at behind
    exact List.cons_sublist_cons.1 behind
  | cons first front =>
    rw [← (List.cons.inj cut).1] at within
    exact absurd (within.subset List.mem_cons_self) fresh

theorem mayTouch_of_other {token : Token} (unnamed : ∀ name, token ≠ .name name)
    (detached : ∀ step, token ≠ .stepAfter step) (before : List Token) :
    mayTouch (token :: before) = [] := by
  cases token with
  | name name => exact absurd rfl (unnamed name)
  | stepAfter step => exact absurd rfl (detached step)
  | operator | equals | stepBefore | number | finish => rfl

namespace Unread

theorem Reads.touching {unread behind : Unread} {token : Token} {before : List Token}
    (reads : Reads unread (.ok token) behind) (may : unread.waiting.Sublist (mayTouch before)) :
    (∀ step, token = .stepAfter step → step ∈ mayTouch before) ∧
      behind.waiting.Sublist (mayTouch (token :: before)) := by
  cases reads with
  | waiting text step later =>
    have here : step ∈ mayTouch before := may.subset List.mem_cons_self
    exact ⟨fun other same => Token.stepAfter.inj same ▸ here, sublist_mayTouch_stepAfter may⟩
  | finish skipped => exact ⟨by simp, List.nil_sublist _⟩
  | lexeme skipped here =>
    cases here with
    | @name word rest valid ends =>
      obtain ⟨steps, more, -, same, sublist⟩ := behindName_cases rest
      rw [same]
      exact ⟨by simp, sublist⟩
    | step | sign | number => exact ⟨by simp, List.nil_sublist _⟩
    | @symbol c token known rest =>
      rcases Token.ofSymbol?_cases known with ⟨-, rfl⟩ | ⟨-, rfl⟩ | ⟨-, rfl⟩ <;>
        exact ⟨by simp, List.nil_sublist _⟩

theorem wellPlaced_of_items {unread : Unread} {tokens before : List Token}
    (scanned : unread.items = tokens.map .ok) (may : unread.waiting.Sublist (mayTouch before)) :
    WellPlaced before tokens := by
  fun_induction items unread generalizing tokens before with
  | case1 unread rest read =>
    rw [List.map_eq_nil_iff.1 scanned.symm]
    exact wellPlaced_nil before
  | case2 unread token rest read inside ih =>
    obtain ⟨first, later, rfl, same, left⟩ := List.map_eq_cons_iff.1 scanned.symm
    cases same
    obtain ⟨here, kept⟩ := (reads_iff.2 read).touching may
    exact wellPlaced_cons.2 ⟨here, ih left.symm kept⟩
  | case3 unread fault rest read ih =>
    obtain ⟨first, later, -, same, -⟩ := List.map_eq_cons_iff.1 scanned.symm
    cases same

end Unread

theorem Text.wellFormed_of_items {source : Text} {tokens : List Token}
    (scanned : source.items = tokens.map .ok) : WellFormed tokens where
  unfinished here :=
    Unread.finish_notMem_items _ (scanned ▸ List.mem_map_of_mem here : .ok .finish ∈ source.items)
  spelled token here :=
    Text.wellSpelled_of_mem_items (scanned ▸ List.mem_map_of_mem here : .ok token ∈ source.items)
  placed := Unread.wellPlaced_of_items scanned (List.nil_sublist _)

theorem mem_mayTouch_of_append {behind before : List Token} {step : Step} (some : behind ≠ [])
    (detached : ∀ other, behind.getLast? ≠ Option.some (.stepAfter other))
    (here : step ∈ mayTouch (behind ++ before)) : step ∈ mayTouch behind := by
  cases behind with
  | nil => exact absurd rfl some
  | cons token behind =>
    cases token with
    | name name => exact here
    | stepAfter step =>
      cases behind with
      | nil => exact absurd rfl (detached step)
      | cons second behind => cases step <;> cases second <;> exact here
    | operator | equals | stepBefore | number | finish => exact here

theorem WellFormed.of_append {front tokens : List Token} (formed : WellFormed (front ++ tokens))
    (detached : ∀ step, tokens.head? ≠ some (.stepAfter step)) : WellFormed tokens where
  unfinished here := formed.unfinished (List.mem_append_right front here)
  spelled token here := formed.spelled token (List.mem_append_right front here)
  placed earlier step later split := by
    have here := formed.placed (front ++ earlier) step later (by rw [split, List.append_assoc])
    rw [List.reverse_append, List.append_assoc] at here
    rw [List.append_nil]
    have first : earlier ≠ [] := by
      rintro rfl
      exact detached step (by rw [split]; rfl)
    refine mem_mayTouch_of_append (by simpa using first) (fun other last => ?_) here
    rw [List.getLast?_reverse] at last
    exact detached other (by rw [split, List.head?_append, last]; rfl)

def leadingSteps : List Token → List Step
  | .stepAfter step :: later => step :: leadingSteps later
  | _ => []

def behindSteps : List Token → List Token
  | .stepAfter _ :: later => behindSteps later
  | tokens => tokens

theorem printed_eq (tokens : List Token) :
    printed tokens = (leadingSteps tokens).flatMap Step.text ++ printed (behindSteps tokens) := by
  fun_induction leadingSteps tokens with
  | case1 step later ih =>
    rw [behindSteps, List.flatMap_cons, List.append_assoc, ← ih]
    rfl
  | case2 tokens other => rw [behindSteps.eq_2 tokens other]; rfl

theorem leadingSteps_sublist {before tokens : List Token} (placed : WellPlaced before tokens) :
    (leadingSteps tokens).Sublist (mayTouch before) := by
  fun_induction leadingSteps tokens generalizing before with
  | case1 step later ih =>
    obtain ⟨here, placed⟩ := wellPlaced_cons.1 placed
    obtain ⟨passed, split, -⟩ := mayTouch_stepAfter (here step rfl)
    rw [split]
    exact ((ih placed).cons_cons step).trans (List.sublist_append_right passed _)
  | case2 tokens other => exact List.nil_sublist _

namespace Text

theorem StopsAt.mono {kind other : Char → Bool} {rest : Text} (stops : rest.StopsAt other)
    (within : ∀ c, kind c = true → other c = true) : rest.StopsAt kind := by
  intro c first
  have outside := stops c first
  cases inside : kind c with
  | false => rfl
  | true => exact absurd (within c inside) (by simp [outside])

end Text

theorem stopsAt_printed (tokens : List Token) : (printed tokens).StopsAt Name.isPart := by
  cases tokens with
  | nil => exact Text.stopsAt_nil _
  | cons token later => cases token with
    | stepAfter step => cases step <;> exact Text.stopsAt_cons rfl _
    | operator | equals | stepBefore | number | name | finish => exact Text.stopsAt_cons rfl _

theorem stopsAt_printed_behindSteps (tokens : List Token) :
    (printed (behindSteps tokens)).StopsAt (fun c => !isGap c) := by
  fun_induction behindSteps tokens with
  | case1 step later ih => exact ih
  | case2 tokens other =>
    cases tokens with
    | nil => exact Text.stopsAt_nil _
    | cons token later =>
      cases token with
      | stepAfter step => exact absurd rfl (other step later)
      | operator | equals | stepBefore | number | name | finish =>
        exact Text.stopsAt_cons rfl _

theorem Unread.behindName_append {steps : List Step}
    (sublist : steps.Sublist [.increment, .decrement]) {rest : Text}
    (ends : rest.StopsAt (fun c => !isGap c)) :
    behindName (steps.flatMap Step.text ++ rest) = ⟨rest, steps⟩ := by
  simp only [List.sublist_cons_iff, List.sublist_nil] at sublist
  cases rest with
  | nil => rcases sublist with (rfl | ⟨_, rfl, rfl⟩) | ⟨_, rfl, rfl | ⟨_, rfl, rfl⟩⟩ <;> rfl
  | cons c rest =>
    have gap : isGap c = true := by simpa using ends c rfl
    simp only [isGap, Bool.or_eq_true, beq_iff_eq] at gap
    rcases gap with (((rfl | rfl) | rfl) | rfl) | rfl <;>
      rcases sublist with (rfl | ⟨_, rfl, rfl⟩) | ⟨_, rfl, rfl | ⟨_, rfl, rfl⟩⟩ <;> rfl

theorem Lexeme.of_token {token : Token} (spelled : token.WellSpelled)
    (unfinished : token ≠ .finish) (unnamed : ∀ name, token ≠ .name name)
    (detached : ∀ step, token ≠ .stepAfter step) {rest : Text}
    (ends : rest.StopsAt (fun c => !isGap c)) :
    Lexeme (token.text ++ rest) (.ok token) ⟨rest, []⟩ := by
  have single (step : Step) : rest.StopsAt (· == step.operator.symbol) := by
    refine ends.mono fun c same => ?_
    rw [beq_iff_eq.1 same]
    cases step <;> rfl
  cases token with
  | operator op => cases op with
    | add => exact .sign .increment (single .increment)
    | subtract => exact .sign .decrement (single .decrement)
    | multiply | divide => exact .symbol rfl rest
  | equals => exact .symbol rfl rest
  | stepBefore step => exact .step step rest
  | number digits =>
    refine .number spelled.1 spelled.2 (ends.mono fun c digit => ?_)
    rw [Name.isGap_of_isPart (Name.isPart_of_isDigit digit), Bool.not_false]
  | name name => exact absurd rfl (unnamed name)
  | stepAfter step => exact absurd rfl (detached step)
  | finish => exact absurd rfl unfinished

theorem Unread.reads_printed {token : Token} {before later : List Token}
    (spelled : token.WellSpelled) (unfinished : token ≠ .finish)
    (detached : ∀ step, token ≠ .stepAfter step) (placed : WellPlaced (token :: before) later) :
    Reads ⟨printed (token :: later), []⟩ (.ok token)
      ⟨printed (behindSteps later), leadingSteps later⟩ := by
  have split : printed (token :: later) = [' '] ++ (token.text ++ printed later) := by
    cases token with
    | stepAfter step => exact absurd rfl (detached step)
    | operator | equals | stepBefore | number | name | finish => rfl
  have sublist := leadingSteps_sublist placed
  have ends := stopsAt_printed_behindSteps later
  rw [split]
  refine .lexeme (by simp [Text.AllGaps, isGap]) ?_
  by_cases named : ∃ name, token = .name name
  · obtain ⟨name, rfl⟩ := named
    have found :
        behindName (printed later) = ⟨printed (behindSteps later), leadingSteps later⟩ := by
      rw [printed_eq, behindName_append sublist ends]
    rw [← found]
    exact .name spelled (stopsAt_printed later)
  · rw [mayTouch_of_other (not_exists.1 named) detached] at sublist
    rw [printed_eq, List.sublist_nil.1 sublist]
    exact .of_token spelled unfinished (not_exists.1 named) detached ends

/-- Well-formed tokens are read off what they print as. The steps at the front wait already, since
they were found with what comes before. -/
theorem items_printed_behindSteps {before tokens : List Token} (unfinished : .finish ∉ tokens)
    (spelled : ∀ token ∈ tokens, token.WellSpelled) (placed : WellPlaced before tokens) :
    Unread.items ⟨printed (behindSteps tokens), leadingSteps tokens⟩ = tokens.map .ok := by
  induction tokens generalizing before with
  | nil => exact Unread.items_of_finish rfl
  | cons token later ih =>
    rw [List.mem_cons, not_or] at unfinished
    have placedLater := (wellPlaced_cons.1 placed).2
    have rest := ih unfinished.2 (fun token here => spelled token (by simp [here])) placedLater
    have inside : (.ok token : Item) ≠ .ok .finish := by simpa using Ne.symm unfinished.1
    rw [List.map_cons, ← rest]
    -- A step that touches waits already, so that reading takes nothing off the text.
    by_cases touching : ∃ step, token = .stepAfter step
    · obtain ⟨step, rfl⟩ := touching
      exact Unread.items_of_item rfl inside
    · have detached := not_exists.1 touching
      have reads := Unread.reads_printed (spelled token (by simp)) (Ne.symm unfinished.1) detached
        placedLater
      rw [leadingSteps.eq_2 _ fun step _ same => detached step (List.cons.inj same).1,
        behindSteps.eq_2 _ fun step _ same => detached step (List.cons.inj same).1]
      exact Unread.items_of_item (Unread.reads_iff.1 reads) inside

theorem WellFormed.items_readBack {tokens : List Token} (formed : WellFormed tokens) :
    Text.items (printed tokens) = tokens.map .ok := by
  have none : leadingSteps tokens = [] := List.sublist_nil.1 (leadingSteps_sublist formed.placed)
  have read := items_printed_behindSteps formed.unfinished formed.spelled formed.placed
  have whole := printed_eq tokens
  rw [none] at read whole
  rw [whole]
  exact read

/-- Tokens can be read off some text exactly when they are well formed, and then they are read off
what they print as. So printing and reading gives every text without faults its tokens back. -/
theorem items_printed :
    (∀ tokens, WellFormed tokens ↔ ∃ source : Text, source.items = tokens.map .ok) ∧
      (∀ tokens, WellFormed tokens → Text.items (printed tokens) = tokens.map .ok) ∧
      ∀ (source : Text) tokens, source.items = tokens.map .ok →
        Text.items (printed tokens) = source.items := by
  refine ⟨fun tokens => ⟨fun formed => ⟨_, formed.items_readBack⟩, ?_⟩,
    fun tokens formed => formed.items_readBack, fun source tokens scanned => ?_⟩
  · rintro ⟨source, scanned⟩
    exact Text.wellFormed_of_items scanned
  · rw [(Text.wellFormed_of_items scanned).items_readBack, scanned]

theorem items_printed_between_names :
    let source : Text := "i++-- ++b--++-7=12ab".toList
    let tokens : List Token := [.name ['i'], .stepAfter .increment, .stepAfter .decrement,
      .stepBefore .increment, .name ['b'], .stepAfter .decrement, .stepBefore .increment,
      .operator .subtract, .number ['7'], .equals, .number ['1', '2'], .name ['a', 'b']]
    WellFormed tokens ∧ printed tokens = " i++-- ++ b-- ++ - 7 = 12 ab".toList ∧
      Text.items (printed tokens) = source.items := by
  intro source tokens
  have scanned : source.items = tokens.map .ok := Text.items_eq _
  exact ⟨(items_printed.1 tokens).2 ⟨source, scanned⟩, rfl, items_printed.2.2 source tokens scanned⟩

end LineCalculator
