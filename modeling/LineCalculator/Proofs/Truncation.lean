import LineCalculator.Session.Dialogue
import LineCalculator.Session.Script

/-! What a limit of the output does to a session. All that is done in a session is made of a few
actions, and each of them writes with a limit as it does without one, up to the limit. There it
fails, and the session ends. -/

namespace LineCalculator.Session

variable {α β : Type}

def written (session : Session) : List UInt8 :=
  session.output.bytes.toList

def limitedTo (limit : Nat) (session : Session) : Session :=
  { session with output := { session.output with limit := some limit } }

@[simp] theorem written_limitedTo (limit : Nat) (session : Session) :
    (session.limitedTo limit).written = session.written := rfl

/-- How a run ends with a limit, when this is how it ends without one: in the same way if no more
bytes are written than the limit allows, and otherwise at the limit, because the output takes no
more. -/
inductive EndsWithin (limit : Nat) :
    Except StreamFault α × Session → Except StreamFault α × Session → Prop
  | whole {result : Except StreamFault α} {session : Session}
    (fits : session.written.length ≤ limit) :
    EndsWithin limit (result, session) (result, session.limitedTo limit)
  | cut {result : Except StreamFault α} {session stopped : Session}
    (beyond : limit < session.written.length)
    (bytes : stopped.written = session.written.take limit) :
    EndsWithin limit (result, session) (.error .full, stopped)

structure Truncates (action : Action Session StreamFault α) : Prop where
  grows : ∀ session : Session, session.output.limit = none →
    (action session).2.output.limit = none ∧ session.written <+: (action session).2.written
  within : ∀ limit session, session.output.limit = none → session.written.length ≤ limit →
    EndsWithin limit (action session) (action (session.limitedTo limit))

namespace Truncates

theorem pure (a : α) : Truncates (pure a) where
  grows _ unlimited := ⟨unlimited, List.prefix_rfl⟩
  within _ _ _ fits := .whole fits

theorem throw (fault : StreamFault) : Truncates (throw fault : Action Session StreamFault α) where
  grows _ unlimited := ⟨unlimited, List.prefix_rfl⟩
  within _ _ _ fits := .whole fits

theorem bind {first : Action Session StreamFault α} {next : α → Action Session StreamFault β}
    (start : Truncates first) (rest : ∀ a, Truncates (next a)) : Truncates (first >>= next) where
  grows session unlimited := by
    have begun := start.grows session unlimited
    rw [Action.apply_bind]
    split
    · next a after done =>
      rw [done] at begun
      have further := (rest a).grows after begun.1
      exact ⟨further.1, begun.2.trans further.2⟩
    · next fault after failed =>
      rw [failed] at begun
      exact begun
  within limit session unlimited fits := by
    have begun := start.grows session unlimited
    have ended := start.within limit session unlimited fits
    rw [Action.apply_bind, Action.apply_bind]
    generalize first session = full at begun ended
    generalize first (session.limitedTo limit) = limited at ended
    cases ended with
    | @whole result after fits =>
      cases result with
      | ok a => exact (rest a).within limit after begun.1 fits
      | error fault => exact .whole fits
    | @cut result after stopped beyond bytes =>
      cases result with
      | ok a =>
        -- What comes later is not written, and it would come behind the limit.
        obtain ⟨more, behind⟩ := ((rest a).grows after begun.1).2
        refine .cut ?_ ?_
        · rw [← behind, List.length_append]
          omega
        · rw [← behind, List.take_append_of_le_length (Nat.le_of_lt beyond), bytes]
      | error fault => exact .cut beyond bytes

theorem get_bind {next : Calculator → Action Session StreamFault α}
    (rest : ∀ calculator, Truncates (next calculator)) :
    Truncates ((get : Action Session StreamFault Session) >>= fun session =>
      next session.calculator) where
  grows session unlimited := (rest session.calculator).grows session unlimited
  within limit session unlimited fits :=
    (rest session.calculator).within limit session unlimited fits

theorem forM {action : β → Action Session StreamFault PUnit} (each : ∀ b, Truncates (action b))
    (items : List β) : Truncates (items.forM action) := by
  induction items with
  | nil => exact .pure _
  | cons item later ih => exact .bind (each item) fun _ => ih

end Truncates

theorem written_append (session : Session) (limit : Option Nat) (more : List UInt8) :
    written ⟨session.calculator, ⟨limit, session.output.bytes ++ more⟩⟩ = session.written ++ more :=
  Array.toList_appendList

theorem say_of_unlimited {session : Session} (unlimited : session.output.limit = none) (t : Text) :
    say t session =
      (.ok (), ⟨session.calculator, ⟨none, session.output.bytes ++ t.toUtf8⟩⟩) := by
  rw [say, Output.write_of_unlimited unlimited, unlimited]

theorem truncates_say (t : Text) : Truncates (say t) where
  grows session unlimited := by
    rw [say_of_unlimited unlimited, written_append]
    exact ⟨rfl, List.prefix_append _ _⟩
  within limit session unlimited fits := by
    have limited : (session.limitedTo limit).output.limit = some limit := rfl
    have size : (session.limitedTo limit).output.bytes.size = session.written.length :=
      Array.length_toList.symm
    rw [say_of_unlimited unlimited, say]
    by_cases room : t.toUtf8.length ≤ limit - session.written.length
    · rw [Output.write_of_room limited (size ▸ room)]
      refine .whole ?_
      rw [written_append, List.length_append]
      omega
    · rw [Output.write_of_full limited (by rw [size]; omega), size]
      refine .cut ?_ ?_
      · rw [written_append, List.length_append]
        omega
      · rw [written_append, written_append, written_limitedTo, List.take_append,
          List.take_of_length_le fits]

theorem truncates_attempt (line : Text) : Truncates (attempt line) where
  grows session unlimited := by
    rw [attempt]
    split <;> exact ⟨unlimited, List.prefix_rfl⟩
  within limit session unlimited fits := by
    have same : (session.limitedTo limit).calculator = session.calculator := rfl
    rw [attempt, attempt, same]
    cases Calculator.evaluate line session.calculator with
    | mk result calculator => cases result <;> exact .whole fits

theorem truncates_showVariables : Truncates showVariables :=
  have rest (calculator : Calculator) : Truncates (say (calculator.values.text ++ ['\n'])) :=
    truncates_say _
  .get_bind rest

theorem truncates_answer (line : Text) : Truncates (answer line) := by
  rw [answer]
  split
  · exact .pure _
  · refine .bind (truncates_attempt line) fun fault? => ?_
    cases fault? with
    | none => exact truncates_showVariables
    | some fault => exact truncates_say _

theorem truncates_runLine (line : Text) : Truncates (runLine line) := by
  rw [runLine]
  split
  · exact .pure _
  · refine .bind (truncates_attempt line) fun fault? => ?_
    cases fault? with
    | none => exact .pure _
    | some fault => exact truncates_say _

theorem truncates_runScript (script : Text) : Truncates (runScript script) :=
  .bind (.forM truncates_runLine script.lines) fun _ => truncates_showVariables

theorem truncates_leave : Truncates leave :=
  .bind (truncates_say farewell) fun _ => .pure false

theorem truncates_turn (chunk : Option (List UInt8)) : Truncates (turn chunk) := by
  cases chunk with
  | none => exact truncates_leave
  | some bytes =>
    rw [turn]
    split
    · exact .throw _
    · next line decoded =>
      split
      · exact truncates_leave
      · exact .bind (truncates_answer line) fun _ =>
          .bind (truncates_say prompt) fun _ => .pure true

theorem truncates_converse (chunks : List (List UInt8)) : Truncates (converse chunks) := by
  induction chunks with
  | nil => exact .bind (truncates_turn none) fun _ => .pure _
  | cons chunk later ih =>
    refine .bind (truncates_turn (some chunk)) fun goesOn => ?_
    cases goesOn with
    | true => exact ih
    | false => exact .pure _

theorem truncates_runDialogue (input : List UInt8) : Truncates (runDialogue input) :=
  .bind (.bind (truncates_say greeting) fun _ => truncates_say prompt) fun _ => truncates_converse _

theorem forM_say (parts : List Text) : parts.forM say = say parts.flatten := by
  induction parts with
  | nil =>
    funext session
    rw [List.flatten_nil, say, Text.toUtf8_nil, Output.write_nil]
    rfl
  | cons part later ih =>
    funext session
    rw [List.forM, ih, List.flatten_cons, Action.apply_bind, say, say, Text.toUtf8_append,
      Output.write_append, Action.apply_bind]
    cases Output.write part.toUtf8 session.output with
    | mk result output => cases result <;> rfl

/-- What a run on an output with a limit comes to, when this is what it comes to without one. The
bytes are the first ones, as many as the limit allows. If these are all, the run ends with the same
result and the same calculator, and otherwise it fails because the output takes no more. -/
def CutsOff (limit : Nat) (full limited : Except StreamFault Unit × Session) : Prop :=
  limited.2.written = full.2.written.take limit ∧
    if full.2.written.length ≤ limit then
      limited.1 = full.1 ∧ limited.2.calculator = full.2.calculator
    else
      limited.1 = .error .full

theorem Truncates.cutsOff {run : Action Session StreamFault Unit} (truncates : Truncates run)
    (limit : Nat) : CutsOff limit (run {}) (run ⟨.new, ⟨some limit, #[]⟩⟩) := by
  have ended := truncates.within limit {} rfl (Nat.zero_le _)
  change EndsWithin limit (run {}) (run ⟨.new, ⟨some limit, #[]⟩⟩) at ended
  generalize run {} = full at ended
  generalize run ⟨.new, ⟨some limit, #[]⟩⟩ = limited at ended
  cases ended with
  | whole fits => exact ⟨(List.take_of_length_le fits).symm, by rw [if_pos fits]; exact ⟨rfl, rfl⟩⟩
  | cut beyond bytes => exact ⟨bytes, by rw [if_neg (Nat.not_le.2 beyond)]⟩

/-- Whatever the limit of the output is, it cuts off what scripts and dialogues write, and changes
nothing else. It makes no difference in what parts a text is written. -/
theorem limit_cutsOff (limit : Nat) :
    let limited : Session := ⟨.new, ⟨some limit, #[]⟩⟩
    (∀ script, CutsOff limit (runScript script {}) (runScript script limited)) ∧
      (∀ input, CutsOff limit (runDialogue input {}) (runDialogue input limited)) ∧
      ∀ parts : List Text, parts.forM say = say parts.flatten :=
  ⟨fun script => (truncates_runScript script).cutsOff limit,
    fun input => (truncates_runDialogue input).cutsOff limit, forM_say⟩

end LineCalculator.Session
