import LineCalculator.Proofs.Acceptance
import LineCalculator.Proofs.Moves
import LineCalculator.Proofs.Stability

/-! How far evaluating looks ahead. The items that it reads decide what it comes to: a run that has
the same variables and the same items up to there ends in the same way, whatever comes behind.

The main statement is about texts. Of a text that has a value, the last item read is the first token
that cannot continue the expression, and what stands behind it does not count. -/

namespace LineCalculator

open Grammar

namespace Run

def Alike (ahead : Nat) (left right : Run) : Prop :=
  left.values = right.values ∧ Cursor.Alike ahead left.cursor right.cursor

/-- From the given run, an action makes some moves and looks at nothing behind the items that it
reads with them. -/
def Looks {α : Type} (action : Action Run Fault α) (run : Run) : Prop :=
  ∃ count, run.cursor.Moves count (action run).2.cursor ∧
    ∀ other ahead, Alike (count + ahead) run other →
      other.cursor.Moves count (action other).2.cursor ∧ (action run).1 = (action other).1 ∧
        Alike ahead (action run).2 (action other).2

namespace Looks

variable {α β : Type}

/-- What does not move may look at the variables and at the current token. -/
theorem of_still {action : Action Run Fault α} {run : Run}
    (still : ∀ other, (action other).2.cursor = other.cursor)
    (same : ∀ other : Run, run.values = other.values →
      run.cursor.current = other.cursor.current →
      (action run).1 = (action other).1 ∧ (action run).2.values = (action other).2.values) :
    Looks action run := by
  refine ⟨0, still run ▸ .stay _, fun other ahead alike => ?_⟩
  rw [Nat.zero_add] at alike
  obtain ⟨result, values⟩ := same other alike.1 alike.2.current_eq
  refine ⟨still other ▸ .stay _, result, values, ?_⟩
  rw [still, still]
  exact alike.2

theorem ofExcept (result : Except Fault α) (run : Run) : Looks (.ofExcept result) run :=
  of_still (fun _ => rfl) fun _ values _ => ⟨rfl, values⟩

theorem refuse (run : Run) : Looks (refuse (α := α)) run := by
  refine of_still (fun _ => rfl) fun other values current => ⟨?_, values⟩
  rw [Run.refuse, Run.refuse, current]

theorem takeStep (side : Side) (step : Step) (name : Text) (run : Run) :
    Looks (takeStep side step name) run := by
  refine of_still (cursor_takeStep side step name) fun other values _ => ?_
  rw [Run.takeStep, Run.takeStep, values]
  cases step.operator.apply (other.values.get name) 1 with
  | ok value => exact ⟨rfl, rfl⟩
  | error fault => exact ⟨rfl, values⟩

theorem fst_advance (run : Run) : (Run.advance run).1 = run.cursor.advance.1.mapError .reading := by
  rw [Run.advance]
  split
  · next moved => rw [moved]; rfl
  · next moved => rw [moved]; rfl

theorem advance {run : Run} (inside : run.cursor.current ≠ .finish) : Looks Run.advance run := by
  refine ⟨1, cursor_advance run ▸ .next inside (.stay _), fun other ahead alike => ?_⟩
  rw [Nat.add_comm] at alike
  obtain ⟨result, further⟩ := alike.2.advance inside
  refine ⟨cursor_advance other ▸ .next (alike.2.current_eq ▸ inside) (.stay _), ?_, ?_, ?_⟩
  · rw [fst_advance, fst_advance, result]
  · rw [values_advance, values_advance, alike.1]
  · rw [cursor_advance, cursor_advance]
    exact further

theorem bind {first : Action Run Fault α} {next : α → Action Run Fault β} {run : Run}
    (start : Looks first run)
    (rest : ∀ a middle, first run = (.ok a, middle) → Looks (next a) middle) :
    Looks (first >>= next) run := by
  obtain ⟨count, moved, same⟩ := start
  cases done : first run with
  | mk result middle =>
    rw [done] at moved same
    cases result with
    | error fault =>
      rw [Looks, Action.apply_bind_of_error done]
      refine ⟨count, moved, fun other ahead alike => ?_⟩
      have again := same other ahead alike
      cases there : first other with
      | mk outcome after =>
        rw [there] at again
        obtain ⟨path, rfl, further⟩ := again
        rw [Action.apply_bind_of_error there]
        exact ⟨path, rfl, further⟩
    | ok a =>
      obtain ⟨more, later, onward⟩ := rest a middle done
      rw [Looks, Action.apply_bind_of_ok done]
      refine ⟨count + more, moved.trans later, fun other ahead alike => ?_⟩
      rw [Nat.add_assoc] at alike
      have again := same other (more + ahead) alike
      cases there : first other with
      | mk outcome after =>
        rw [there] at again
        obtain ⟨path, rfl, further⟩ := again
        rw [Action.apply_bind_of_ok there]
        obtain ⟨behind, ended, last⟩ := onward after ahead further
        exact ⟨path.trans behind, ended, last⟩

theorem congr {action chosen : Action Run Fault α} {run : Run}
    (same : ∀ other : Run, run.values = other.values →
      run.cursor.current = other.cursor.current → action other = chosen other)
    (looks : Looks chosen run) : Looks action run := by
  obtain ⟨count, moved, again⟩ := looks
  rw [Looks, same run rfl rfl]
  refine ⟨count, moved, fun other ahead alike => ?_⟩
  rw [same other alike.1 alike.2.current_eq]
  exact again other ahead alike

theorem of_get {next : Run → Action Run Fault α} {run : Run}
    (same : ∀ other : Run, run.values = other.values →
      run.cursor.current = other.cursor.current → next other = next run)
    (looks : Looks (next run) run) : Looks (get >>= next) run := by
  refine congr (fun other values current => ?_) looks
  rw [Action.apply_bind_of_ok (Action.apply_get other), same other values current]

theorem stepThenRead {run : Run} {step : Step} (inside : run.cursor.current ≠ .finish) :
    Looks (stepThenRead step) run := by
  refine bind (advance inside) fun _ behind _ => ?_
  refine of_get (fun other _ current => by simp only [current]) ?_
  split
  · next name current =>
    exact bind (advance (by simp [current])) fun _ final _ => takeStep .before step name final
  · exact refuse behind

theorem readThenStep {run : Run} {name : Text} (inside : run.cursor.current ≠ .finish) :
    Looks (readThenStep name) run := by
  refine bind (advance inside) fun _ behind _ => ?_
  refine of_get (fun other values current => by simp only [current, values]) ?_
  split
  · next step current =>
    exact bind (advance (by simp [current])) fun _ final _ =>
      bind (takeStep .after step name final) fun _ last _ => ofExcept (.ok _) last
  · exact ofExcept (.ok _) behind

theorem factor (run : Run) : Looks factor run := by
  have fresh : ({} : Progress).place = .operand := rfl
  induction size : run.size using Nat.strongRecOn generalizing run with
  | ind n ih =>
    subst size
    cases current : run.cursor.current with
    | number digits =>
      refine congr (fun other _ same => factor_of_number (same.symm.trans current)) ?_
      exact bind (advance (by simp [current])) fun _ behind _ => ofExcept _ behind
    | stepBefore step =>
      refine congr (fun other _ same => factor_of_stepBefore (same.symm.trans current)) ?_
      exact stepThenRead (by simp [current])
    | name name =>
      refine congr (fun other _ same => factor_of_name (same.symm.trans current)) ?_
      exact readThenStep (by simp [current])
    | operator op =>
      cases op with
      | subtract =>
        refine congr (fun other _ same => factor_of_sign (same.symm.trans current)) ?_
        have inside : run.cursor.current ≠ .finish := by simp [current]
        refine bind (advance inside) fun token behind read => ?_
        have smaller := size_advance_lt inside
        rw [read] at smaller
        exact bind (ih _ smaller behind rfl) fun value last _ => ofExcept _ last
      | add | multiply | divide =>
        refine congr (fun other _ same => ?_) (refuse run)
        exact factor_of_misfit fresh (by rw [← same, current]; rfl)
    | equals | stepAfter _ | finish =>
      refine congr (fun other _ same => ?_) (refuse run)
      exact factor_of_misfit fresh (by rw [← same, current]; rfl)

theorem chain {belongs : Operator → Bool} {operand : Operand}
    (each : ∀ run, Looks operand.evaluate run) (value : Int) (run : Run) :
    Looks (chain belongs operand value) run := by
  induction size : run.size using Nat.strongRecOn generalizing run value with
  | ind n ih =>
    subst size
    rcases belongs_or_ends belongs run with ⟨op, current, here⟩ | ends
    · refine congr (fun other _ same => chain_of_belongs (same.symm.trans current) here) ?_
      have inside : run.cursor.current ≠ .finish := by simp [current]
      refine bind (advance inside) fun token behind read => ?_
      refine bind (each behind) fun right last evaluated => ?_
      refine bind (ofExcept _ last) fun result final given => ?_
      have smaller := size_advance_lt inside
      have rest := operand.consumes behind
      rw [read] at smaller
      rw [evaluated] at rest
      obtain ⟨-, rfl⟩ := Prod.mk.inj given
      exact ih _ (Nat.lt_of_le_of_lt rest smaller) result last rfl
    · refine congr (fun other _ same => ?_) (ofExcept (.ok value) run)
      exact chain_of_ends fun op current => ends op (same.trans current)

theorem term (run : Run) : Looks term run :=
  bind (factor run) fun value behind _ => chain factor value behind

theorem expression (run : Run) : Looks expression run :=
  bind (term run) fun value behind _ => chain term value behind

end Looks

theorem start_stream_cases (calculator : Calculator) (source : Text) :
    (∃ fault rest, source.stream = .error fault :: rest ∧
      start calculator source = .error (.reading fault)) ∨
      ∃ run, start calculator source = .ok run ∧ run.values = calculator.values ∧
        run.cursor.stream = source.stream := by
  rcases start_cases calculator source with
    ⟨fault, rest, items, failed⟩ | ⟨run, started, kept, items⟩
  · exact .inl ⟨fault, _, by rw [Text.stream, items]; rfl, failed⟩
  · exact .inr ⟨run, started, kept, by rw [Cursor.stream, items, Text.stream]⟩

end Run

theorem Progress.misfit_of_whole {progress : Progress} {cursor : Cursor} {tree : Tree}
    (whole : progress.read cursor.items = .whole tree cursor.items) :
    progress.next cursor.current = none := by
  by_cases last : cursor.current = .finish
  · rw [last, next_finish]
  · cases fits : progress.next cursor.current with
    | none => rfl
    | some following =>
      rw [Cursor.items_of_inside last, read, fits] at whole
      -- Reading on from a token that fits leaves fewer items than there were.
      obtain ⟨tokens, reached, split, -, -⟩ := read_eq_whole whole
      have size := congrArg List.length split
      simp only [List.length_append, List.length_cons] at size
      omega

theorem Run.exists_sentence {run : Run} {value : Int} {count : Nat}
    (moved : run.cursor.Moves count (expression run).2.cursor)
    (done : (expression run).1 = .ok value) :
    ∃ sentence tree token, run.cursor.stream.take (count + 1) = (sentence ++ [token]).map .ok ∧
      Sentence sentence tree ∧ ¬Viable (sentence ++ [token]) := by
  have ended := result_expression run
  cases outcome : expression run with
  | mk result last =>
    rw [outcome] at ended moved done
    subst done
    generalize reading : Progress.read {} run.cursor.items = reading at ended
    cases ended with
    | @value tree rest start value last evaluated left =>
      subst left
      obtain ⟨sentence, progress, split, fit, finished⟩ := Progress.read_eq_whole reading
      rw [split, Progress.read_append fit] at reading
      have stream : run.cursor.stream = sentence.map .ok ++ last.cursor.stream := by
        rw [Cursor.stream, split, List.append_assoc, Cursor.stream]
      refine ⟨sentence, tree, last.cursor.current, ?_,
        sentence_iff.2 ⟨progress, fit, finished⟩, fun viable => ?_⟩
      · have length : run.cursor.stream.length = count + last.cursor.stream.length :=
          moved.length_stream
        obtain ⟨rest, behind⟩ := last.cursor.exists_stream_eq
        rw [stream, List.length_append, List.length_map] at length
        have reached : count = (sentence.map (Except.ok : Token → Item)).length := by simp; omega
        rw [stream, behind, reached, List.map_append, List.take_length_add_append]
        rfl
      · obtain ⟨following, beyond⟩ := viable_iff.1 viable
        rw [Progress.behind_concat fit, Progress.misfit_of_whole reading] at beyond
        cases beyond

namespace Calculator

/-- The items that evaluating a text reads: the first one, and one with every move. -/
def Loads (calculator : Calculator) (source : Text) (loaded : List Item) : Prop :=
  match Run.start calculator source with
  | .error fault => ∃ flaw, fault = .reading flaw ∧ loaded = [.error flaw]
  | .ok run => ∃ count, run.cursor.Moves count (Run.expression run).2.cursor ∧
      loaded = .ok run.cursor.current :: run.cursor.loads count

/-- With the same variables, the other text has the same value or the same fault, and it leaves the
same variables. -/
def SameOutcome (calculator : Calculator) (source other : Text) : Prop :=
  ∀ again : Calculator, again.values = calculator.values →
    (evaluateExpression source calculator).1 = (evaluateExpression other again).1 ∧
      (evaluateExpression source calculator).2.values = (evaluateExpression other again).2.values

theorem exists_loads (calculator : Calculator) (source : Text) :
    ∃ loaded, calculator.Loads source loaded := by
  rcases Run.start_stream_cases calculator source with
    ⟨fault, rest, stream, failed⟩ | ⟨run, started, kept, stream⟩
  · refine ⟨[.error fault], ?_⟩
    rw [Loads, failed]
    exact ⟨fault, rfl, rfl⟩
  · obtain ⟨count, moved, -⟩ := Run.Looks.expression run
    refine ⟨.ok run.cursor.current :: run.cursor.loads count, ?_⟩
    rw [Loads, started]
    exact ⟨count, moved, rfl⟩

section Loaded

variable {calculator : Calculator} {source : Text} {loaded : List Item}
  (loads : calculator.Loads source loaded)

include loads

theorem Loads.unique {again : List Item} (other : calculator.Loads source again) :
    again = loaded := by
  rw [Loads] at loads other
  cases started : Run.start calculator source with
  | error fault =>
    rw [started] at loads other
    obtain ⟨flaw, rfl, rfl⟩ := loads
    obtain ⟨same, found, rfl⟩ := other
    cases found
    rfl
  | ok run =>
    rw [started] at loads other
    obtain ⟨count, moved, rfl⟩ := loads
    obtain ⟨more, path, rfl⟩ := other
    rw [moved.count_unique path]

theorem Loads.begins : loaded <+: source.stream := by
  rw [Loads] at loads
  rcases Run.start_stream_cases calculator source with
    ⟨fault, rest, stream, failed⟩ | ⟨run, started, kept, stream⟩
  · rw [failed] at loads
    obtain ⟨flaw, same, rfl⟩ := loads
    cases same
    exact ⟨rest, stream.symm⟩
  · rw [started] at loads
    obtain ⟨count, moved, rfl⟩ := loads
    rw [moved.loads_eq, stream]
    exact List.take_prefix ..

theorem Loads.sameOutcome {other : Text} (begins : loaded <+: other.stream) :
    calculator.SameOutcome source other := by
  intro again equal
  rw [Loads] at loads
  rw [evaluateExpression, evaluateExpression]
  rcases Run.start_stream_cases calculator source with
    ⟨fault, rest, -, failed⟩ | ⟨run, started, kept, -⟩
  · rw [failed] at loads ⊢
    obtain ⟨flaw, same, rfl⟩ := loads
    cases same
    rcases Run.start_stream_cases again other with
      ⟨found, later, stream, stopped⟩ | ⟨begun, here, -, stream⟩
    · rw [stream] at begins
      cases (List.cons_prefix_cons.1 begins).1
      rw [stopped]
      exact ⟨rfl, equal.symm⟩
    · obtain ⟨later, split⟩ := begun.cursor.exists_stream_eq
      rw [← stream, split] at begins
      cases (List.cons_prefix_cons.1 begins).1
  · rw [started] at loads ⊢
    obtain ⟨count, moved, rfl⟩ := loads
    rcases Run.start_stream_cases again other with
      ⟨found, later, stream, stopped⟩ | ⟨begun, here, held, stream⟩
    · rw [stream] at begins
      cases (List.cons_prefix_cons.1 begins).1
    · obtain ⟨known, path, same⟩ := Run.Looks.expression run
      cases moved.count_unique path
      -- The loaded items are all that the evaluation looks at, so no more of them have to be alike.
      have alike : Run.Alike (count + 0) run begun := by
        refine ⟨kept.trans (equal.symm.trans held.symm), ?_⟩
        rw [Cursor.Alike, stream, Nat.add_zero, ← moved.loads_eq,
          List.prefix_iff_eq_take.1 begins, List.length_cons, Cursor.length_loads]
      obtain ⟨-, result, values, -⟩ := same begun 0 alike
      rw [here]
      exact ⟨result, values⟩

theorem Loads.exists_sentence {value : Int}
    (done : (evaluateExpression source calculator).1 = .ok value) :
    ∃ sentence tree token, loaded = (sentence ++ [token]).map .ok ∧ Sentence sentence tree ∧
      ¬Viable (sentence ++ [token]) := by
  rw [Loads] at loads
  rw [evaluateExpression] at done
  cases started : Run.start calculator source with
  | error fault =>
    rw [started] at done
    cases done
  | ok run =>
    rw [started] at loads done
    obtain ⟨count, moved, rfl⟩ := loads
    rw [moved.loads_eq]
    exact Run.exists_sentence moved done

section Replaced

variable {earlier : List Item} {item : Item} (split : loaded = earlier ++ [item])
  (inside : item ≠ .ok .finish)

include split inside

theorem Loads.begins_items : loaded <+: source.items := by
  subst split
  rcases List.prefix_concat_iff.1 loads.begins with all | begins
  · exact absurd (List.cons.inj (List.append_inj' all rfl).2).1 inside
  · exact begins

theorem Loads.exists_front :
    ∃ front behind, source = front ++ behind ∧
      front.withoutGaps = loaded.flatMap Item.text := by
  obtain ⟨later, scanned⟩ := loads.begins_items split inside
  have covered : source.withoutGaps = loaded.flatMap Item.text ++ later.flatMap Item.text := by
    rw [← List.flatMap_append, scanned]
    exact (Unread.flatMap_text_items ⟨source, []⟩).symm
  obtain ⟨front, behind, whole, shown, -⟩ := List.filter_eq_append_iff.1 covered
  exact ⟨front, behind, whole, shown⟩

theorem Loads.sameOutcome_of_front {front behind other : Text} (whole : source = front ++ behind)
    (covers : front.withoutGaps = loaded.flatMap Item.text)
    (same : (front ++ other).items[earlier.length]? = some item) :
    calculator.SameOutcome source (front ++ other) := by
  obtain ⟨later, scanned⟩ := loads.begins_items split inside
  subst whole split
  rw [List.append_assoc] at scanned
  have kept : earlier <+: Text.items (front ++ other) := Unread.prefix_items scanned.symm covers
  obtain ⟨more, again⟩ := kept
  rw [← again, List.getElem?_append_right (Nat.le_refl _), Nat.sub_self] at same
  obtain ⟨rest, rfl⟩ := List.head?_eq_some_iff.1 (List.head?_eq_getElem?.trans same)
  refine loads.sameOutcome ⟨rest ++ [.ok .finish], ?_⟩
  rw [Text.stream, ← again]
  simp

end Replaced

end Loaded

/-- The items that evaluating a text reads are the first ones of it, and a text with the same ones
has the same outcome. If there is a value, the last item read is the first token that cannot
continue the expression. Unless that is the end, whatever stands behind it may be replaced by a text
with which it is still read as the same token. -/
theorem evaluateExpression_reads_ahead (calculator : Calculator) (source : Text) :
    ∃ loaded, calculator.Loads source loaded ∧
      (∀ again, calculator.Loads source again → again = loaded) ∧ loaded <+: source.stream ∧
      (∀ other : Text, loaded <+: other.stream → calculator.SameOutcome source other) ∧
      ∀ value, (evaluateExpression source calculator).1 = .ok value →
        ∃ sentence tree token, loaded = (sentence ++ [token]).map .ok ∧ Sentence sentence tree ∧
          ¬Viable (sentence ++ [token]) ∧
          (token ≠ .finish →
            (∃ front behind, source = front ++ behind ∧
              front.withoutGaps = loaded.flatMap Item.text) ∧
            ∀ front behind other : Text, source = front ++ behind →
              front.withoutGaps = loaded.flatMap Item.text →
              (front ++ other).items[sentence.length]? = some (.ok token) →
              calculator.SameOutcome source (front ++ other)) := by
  obtain ⟨loaded, loads⟩ := calculator.exists_loads source
  refine ⟨loaded, loads, fun again => loads.unique, loads.begins, fun other => loads.sameOutcome, ?_⟩
  intro value done
  obtain ⟨sentence, tree, token, items, derived, misfit⟩ := loads.exists_sentence done
  refine ⟨sentence, tree, token, items, derived, misfit, fun unfinished => ?_⟩
  have inside : (.ok token : Item) ≠ .ok .finish := by simpa using unfinished
  have split : loaded = sentence.map .ok ++ [.ok token] := by rw [items, List.map_append]; rfl
  refine ⟨loads.exists_front split inside, fun front behind other whole covers same => ?_⟩
  exact loads.sameOutcome_of_front split inside whole covers (by simpa using same)

theorem evaluateExpression_reads_second_step :
    (evaluateExpression "i++--@ b_".toList new).1 = .ok 0 ∧
      (evaluateExpression "i++--@ b_".toList new).2.values.entries = [(['i'], 1)] := by
  let tokens : List Token := [.name ['i'], .stepAfter .increment, .stepAfter .decrement]
  have scanned : Text.items "i++-- + 1".toList =
      tokens.map .ok ++ [.ok (.operator .add), .ok (.number ['1'])] := Text.items_eq _
  have replaced : Text.items "i++--@ b_".toList = tokens.map .ok ++
      [.error (.unexpectedCharacter '@'), .error (.invalidName ['b', '_'])] := Text.items_eq _
  obtain ⟨loaded, -, -, first, same, succeeds⟩ :=
    evaluateExpression_reads_ahead new "i++-- + 1".toList
  have reading := evaluateExpression_eq_reading "i++-- + 1".toList new
  rw [Text.reading, scanned] at reading
  have done : (evaluateExpression "i++-- + 1".toList new).1 = .ok 0 :=
    (congrArg Prod.fst reading).symm
  obtain ⟨sentence, tree, token, items, derived, -⟩ := succeeds 0 done
  have within : sentence ++ [token] <+: tokens ++ [.operator .add, .number ['1'], .finish] := by
    rw [← List.prefix_map_iff_of_injective (fun _ _ => Except.ok.inj), ← items]
    rwa [Text.stream, scanned] at first
  have misfit : Progress.behind {} (tokens.take 2 ++ [.stepAfter .decrement]) = none := rfl
  have short : sentence.length ≤ 2 :=
    derived.length_le_of_misfit misfit ((List.prefix_append sentence [token]).trans within)
  have front : sentence ++ [token] <+: tokens := by
    refine List.prefix_of_prefix_length_le within (List.prefix_append tokens _) ?_
    rw [List.length_append]
    exact Nat.succ_le_succ short
  have again : loaded <+: Text.stream "i++--@ b_".toList := by
    rw [items, Text.stream, replaced, List.append_assoc]
    exact (front.map _).trans (List.prefix_append _ _)
  obtain ⟨result, values⟩ := same _ again new rfl
  exact ⟨result.symm.trans done,
    congrArg Variables.entries (values.symm.trans (congrArg Prod.snd reading).symm)⟩

end Calculator

end LineCalculator
