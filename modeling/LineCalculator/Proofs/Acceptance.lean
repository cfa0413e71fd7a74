import LineCalculator.Proofs.Evaluation
import LineCalculator.Proofs.Spelling

/-! Which tokens are accepted as an expression. Reading stops at the first token that does not fit.
If the tokens before it are a sentence, they are the longest one, and no operator follows it.
Otherwise that token is refused, and it is the first one up to which the tokens cannot begin a
sentence. -/

namespace LineCalculator

open Grammar

/-- The tokens fit up to some place, and not beyond it. The end of the tokens never fits. -/
structure Progress.Stops (start : Progress) (tokens earlier rest : List Token)
    (progress : Progress) : Prop where
  split : tokens = earlier ++ rest
  fit : start.behind earlier = some progress
  misfit : progress.next (rest.headD .finish) = none

/-- The tokens begin with a sentence that is the longest one, and no operator follows it. -/
structure Grammar.BeginWith (tokens sentence suffix : List Token) : Prop where
  split : tokens = sentence ++ suffix
  derived : ∃ tree, Sentence sentence tree
  longest : ∀ longer tree, longer <+: tokens → Sentence longer tree →
    longer.length ≤ sentence.length
  ends : ∀ op, suffix.head? ≠ some (.operator op)

/-- The first token, or the end, up to which the tokens cannot begin a sentence. -/
structure Grammar.FirstMisfit (tokens earlier : List Token) (token : Token) (later : List Token) :
    Prop where
  split : tokens ++ [.finish] = earlier ++ token :: later
  before : Viable earlier
  here : ¬Viable (earlier ++ [token])

namespace Progress

@[simp] theorem next_finish (progress : Progress) : progress.next .finish = none := by
  obtain ⟨sum, product, signs, place⟩ := progress
  cases place <;> rfl

theorem behind_concat {start progress : Progress} {tokens : List Token}
    (fit : start.behind tokens = some progress) (token : Token) :
    start.behind (tokens ++ [token]) = progress.next token := by
  rw [behind_append, fit, Option.bind_some, behind]
  cases progress.next token <;> rfl

theorem exists_stops (start : Progress) (tokens : List Token) :
    ∃ earlier rest progress, start.Stops tokens earlier rest progress ∧
      start.read (tokens.map .ok) = progress.ended (rest.headD .finish) (rest.map .ok) := by
  induction tokens generalizing start with
  | nil => exact ⟨[], [], start, ⟨rfl, rfl, start.next_finish⟩, rfl⟩
  | cons token tokens ih =>
    cases fits : start.next token with
    | none =>
      refine ⟨[], token :: tokens, start, ⟨rfl, rfl, fits⟩, ?_⟩
      rw [List.map_cons, read, fits]
      rfl
    | some following =>
      obtain ⟨earlier, rest, progress, ⟨split, fit, misfit⟩, same⟩ := ih following
      refine ⟨token :: earlier, rest, progress, ⟨by rw [split]; rfl, ?_, misfit⟩, ?_⟩
      · rw [behind, fits]
        exact fit
      · rw [List.map_cons, read, fits]
        exact same

namespace Stops

variable {start progress : Progress} {tokens earlier rest : List Token}

theorem eq_nil_of_beyond (stops : start.Stops tokens earlier rest progress) {more after : List Token}
    {reached : Progress} (fit : start.behind (earlier ++ more) = some reached)
    (split : rest = more ++ after) : more = [] := by
  cases more with
  | nil => rfl
  | cons token more =>
    have misfit := stops.misfit
    rw [split, List.cons_append, List.headD_cons] at misfit
    rw [behind_append, stops.fit, Option.bind_some, behind, misfit] at fit
    cases fit

theorem unique (stops : start.Stops tokens earlier rest progress) {earlier' rest' : List Token}
    {progress' : Progress} (also : start.Stops tokens earlier' rest' progress') :
    earlier' = earlier ∧ rest' = rest ∧ progress' = progress := by
  have same : earlier' = earlier := by
    rcases List.append_eq_append_iff.1 (stops.split.symm.trans also.split) with
      ⟨more, rfl, split⟩ | ⟨more, rfl, split⟩
    · rw [stops.eq_nil_of_beyond also.fit split, List.append_nil]
    · rw [also.eq_nil_of_beyond stops.fit split, List.append_nil]
  subst same
  exact ⟨rfl, List.append_cancel_left (also.split.symm.trans stops.split),
    Option.some.inj (also.fit.symm.trans stops.fit)⟩

theorem beginWith {tree : Tree} (stops : Stops {} tokens earlier rest progress)
    (ended : progress.tree? = some tree) : BeginWith tokens earlier rest where
  split := stops.split
  derived := ⟨tree, sentence_iff.2 ⟨progress, stops.fit, ended⟩⟩
  longest longer other begins sentence := by
    rw [stops.split] at begins
    cases rest with
    | nil => simpa using begins.length_le
    | cons token rest =>
      refine sentence.length_le_of_misfit ?_ begins
      rw [behind_concat stops.fit]
      exact stops.misfit
  ends op here := by
    obtain ⟨factor, finished, -⟩ := Option.map_eq_some_iff.1 ended
    have misfit := stops.misfit
    rw [List.headD_eq_head?_getD, here, Option.getD_some, next_operator finished] at misfit
    cases misfit

theorem firstMisfit (stops : Stops {} tokens earlier rest progress) :
    FirstMisfit tokens earlier (rest.headD .finish) (rest ++ [Token.finish]).tail where
  split := by
    rw [stops.split, List.append_assoc]
    cases rest <;> rfl
  before := viable_iff.2 ⟨progress, stops.fit⟩
  here viable := by
    obtain ⟨following, fit⟩ := viable_iff.1 viable
    rw [behind_concat stops.fit, stops.misfit] at fit
    cases fit

end Stops

end Progress

theorem Grammar.BeginWith.stops {tokens sentence suffix : List Token}
    (begins : BeginWith tokens sentence suffix) :
    ∃ progress tree, Progress.Stops {} tokens sentence suffix progress ∧
      progress.tree? = some tree := by
  obtain ⟨tree, derived⟩ := begins.derived
  obtain ⟨progress, fit, ended⟩ := sentence_iff.1 derived
  obtain ⟨factor, finished, -⟩ := Option.map_eq_some_iff.1 ended
  refine ⟨progress, tree, ⟨begins.split, fit, ?_⟩, ended⟩
  cases suffix with
  | nil => exact progress.next_finish
  | cons token suffix =>
    rw [List.headD_cons]
    cases fits : progress.next token with
    | none => rfl
    | some following =>
      rcases Progress.next_of_finished finished fits with ⟨op, rfl⟩ | ⟨longer, more⟩
      · exact absurd rfl (begins.ends op)
      · have reached := (Progress.behind_concat fit token).trans fits
        have bound := begins.longest (sentence ++ [token]) longer
          ⟨suffix, by rw [begins.split, List.append_assoc]; rfl⟩
          (sentence_iff.2 ⟨following, reached, more⟩)
        simp only [List.length_append, List.length_singleton] at bound
        omega

namespace Run

theorem expression_of_stops {run : Run} {tokens earlier rest : List Token} {progress : Progress}
    (items : run.cursor.items = tokens.map .ok)
    (stops : Progress.Stops {} tokens earlier rest progress)
    (unspoilt : ∀ fault, (expression run).1 = .error fault → ¬fault.InValues) :
    (expression run).2.cursor.items = rest.map .ok ∧
      match progress.tree? with
      | some _ => ∃ value, (expression run).1 = .ok value
      | none => (expression run).1 =
          .error (.reading (.unexpectedToken (rest.headD .finish).text)) := by
  obtain ⟨earlier', rest', progress', also, reading⟩ := Progress.exists_stops {} tokens
  obtain ⟨-, rfl, rfl⟩ := stops.unique also
  have ended := result_expression run
  rw [items, reading, Progress.ended] at ended
  cases outcome : expression run with
  | mk result last =>
    rw [outcome] at ended unspoilt
    cases finished : progress'.tree? with
    | some tree =>
      rw [finished] at ended
      cases ended with
      | value evaluated left => exact ⟨left, _, rfl⟩
      | failed evaluated =>
        exact absurd (Tree.failsOnly_evaluateAll _ _ _ _ evaluated) (unspoilt _ rfl)
    | none =>
      rw [finished] at ended
      cases ended with
      | refused evaluated left => exact ⟨left, rfl⟩
      | failed evaluated =>
        exact absurd (Tree.failsOnly_evaluateAll _ _ _ _ evaluated) (unspoilt _ rfl)

end Run

namespace Cursor

theorem current_of_items_map {cursor : Cursor} {tokens : List Token}
    (items : cursor.items = tokens.map .ok) : cursor.current = tokens.headD .finish := by
  cases tokens with
  | nil =>
    by_cases last : cursor.current = .finish
    · exact last
    · rw [items_of_inside last] at items
      cases items
  | cons token tokens => exact current_of_items_cons items

end Cursor

theorem Text.wellSpelled_headD {source : Text} {earlier rest : List Token}
    (scanned : source.items = (earlier ++ rest).map .ok) : (rest.headD .finish).WellSpelled := by
  cases rest with
  | nil => exact trivial
  | cons token later =>
    have member : .ok token ∈ source.items := by simp [scanned]
    exact Text.wellSpelled_of_mem_items member

theorem Token.dropLast_withFinish (tokens : List Token) :
    (tokens.headD .finish :: (tokens ++ [finish]).tail).dropLast = tokens := by
  cases tokens with
  | nil => rfl
  | cons token later =>
    change (token :: later ++ [finish]).dropLast = token :: later
    exact List.dropLast_concat

namespace Calculator

/-- A text that has tokens only, and whose values and literals cause no fault, has a value exactly
when the longest sentence with which its tokens begin has no operator behind it, and then the
tokens of that sentence are used up. Otherwise the first token up to which the tokens cannot begin
a sentence is refused, and it stays the current token. -/
theorem expression_accepts_sentences {source : Text} {tokens : List Token}
    (scanned : source.items = tokens.map .ok) (calculator : Calculator) :
    ∃ run, Run.start calculator source = .ok run ∧
      ((∀ fault, (Run.expression run).1 = .error fault → ¬fault.InValues) →
        ((∃ value, (Run.expression run).1 = .ok value) ↔
          ∃ sentence suffix, BeginWith tokens sentence suffix) ∧
        (∀ sentence suffix, BeginWith tokens sentence suffix →
          (Run.expression run).2.cursor.items = suffix.map .ok) ∧
        ((¬∃ sentence suffix, BeginWith tokens sentence suffix) →
          ∃ earlier token later, FirstMisfit tokens earlier token later ∧
            (Run.expression run).1 = .error (.reading (.unexpectedToken token.text)) ∧
            (token.text = [] ↔ token = .finish) ∧
            (Run.expression run).2.cursor.current = token ∧
            (Run.expression run).2.cursor.items = (token :: later).dropLast.map .ok)) := by
  rcases Run.start_cases calculator source with
    ⟨fault, rest, items, failed⟩ | ⟨run, started, -, items⟩
  · rw [scanned] at items
    cases tokens <;> cases items
  refine ⟨run, started, fun unspoilt => ?_⟩
  obtain ⟨earlier, rest, progress, stops, -⟩ := Progress.exists_stops {} tokens
  obtain ⟨left, outcome⟩ := Run.expression_of_stops (items.trans scanned) stops unspoilt
  -- Where the tokens stop to fit does not depend on the sentence, so the longest one ends there.
  have ended {sentence suffix : List Token} (begins : BeginWith tokens sentence suffix) :
      suffix = rest ∧ ∃ tree, progress.tree? = some tree := by
    obtain ⟨reached, tree, also, finished⟩ := begins.stops
    obtain ⟨-, rfl, rfl⟩ := stops.unique also
    exact ⟨rfl, tree, finished⟩
  refine ⟨⟨?_, ?_⟩, fun sentence suffix begins => (ended begins).1 ▸ left, fun none => ?_⟩
  · rintro ⟨value, done⟩
    cases finished : progress.tree? with
    | some tree => exact ⟨earlier, rest, stops.beginWith finished⟩
    | none =>
      rw [finished] at outcome
      cases done.symm.trans outcome
  · rintro ⟨sentence, suffix, begins⟩
    obtain ⟨-, tree, finished⟩ := ended begins
    rw [finished] at outcome
    exact outcome
  · have unfinished : progress.tree? = Option.none := by
      cases finished : progress.tree? with
      | none => rfl
      | some tree => exact absurd ⟨earlier, rest, stops.beginWith finished⟩ none
    rw [unfinished] at outcome
    have spelled := Text.wellSpelled_headD (scanned.trans (congrArg _ stops.split))
    exact ⟨earlier, _, _, stops.firstMisfit, outcome, spelled.text_eq_nil_iff,
      Cursor.current_of_items_map left, by rw [left, Token.dropLast_withFinish]⟩

theorem expression_ends_at_second_step :
    let source : Text := "- i++-- + 1".toList
    ∃ run, Run.start new source = .ok run ∧ (∃ value, (Run.expression run).1 = .ok value) ∧
      (Run.expression run).2.cursor.items =
        [.ok (.stepAfter .decrement), .ok (.operator .add), .ok (.number ['1'])] := by
  intro source
  let tokens : List Token := [.operator .subtract, .name ['i'], .stepAfter .increment,
    .stepAfter .decrement, .operator .add, .number ['1']]
  have scanned : Text.items "- i++-- + 1".toList = tokens.map .ok := Text.items_eq _
  obtain ⟨run, started, accepts⟩ := expression_accepts_sentences scanned new
  have done : (Run.expression run).1 = .ok 0 := by
    have same := evaluateExpression_eq_reading "- i++-- + 1".toList new
    rw [Text.reading, scanned, evaluateExpression, started] at same
    exact (congrArg Prod.fst same).symm
  have begins : BeginWith tokens (tokens.take 3) (tokens.drop 3) :=
    Progress.Stops.beginWith ⟨rfl, rfl, rfl⟩ rfl
  obtain ⟨accepted, left, -⟩ := accepts fun fault failed => by cases done.symm.trans failed
  exact ⟨run, started, accepted.2 ⟨_, _, begins⟩, left _ _ begins⟩

end Calculator

end LineCalculator
