import LineCalculator.Proofs.ScriptRun

/-! What a dialogue comes to on any bytes. The input is cut behind its line feeds, and the dialogue
answers one line after the other until it stops. What is behind the stop is not read. -/

namespace LineCalculator.Session

/-- The lines of an input that a dialogue answers, the chunks from its stop on, and how it ends. -/
structure Takes (input : List UInt8) (lines : List Text) (rest : List (List UInt8))
    (result : Except StreamFault Unit) : Prop where
  cut : cutBehind (· == lineFeed) input = lines.map Text.toUtf8 ++ rest
  stays : ∀ line ∈ lines, asksToLeave line = false
  stops : Stops rest result

theorem exists_stops (chunks : List (List UInt8)) :
    ∃ (lines : List Text) (rest : List (List UInt8)) (result : Except StreamFault Unit),
      chunks = lines.map Text.toUtf8 ++ rest ∧ (∀ line ∈ lines, asksToLeave line = false) ∧
        Stops rest result := by
  induction chunks with
  | nil => exact ⟨[], [], _, rfl, by simp, .ended⟩
  | cons bytes later ih =>
    cases decoded : Text.ofUtf8? bytes with
    | none => exact ⟨[], _, _, rfl, by simp, .garbled decoded later⟩
    | some line =>
      obtain rfl := Text.eq_toUtf8_of_ofUtf8? decoded
      cases asks : asksToLeave line with
      | true => exact ⟨[], _, _, rfl, by simp, .left asks later⟩
      | false =>
        obtain ⟨lines, rest, result, rfl, stays, stops⟩ := ih
        exact ⟨line :: lines, rest, result, rfl, List.forall_mem_cons.2 ⟨asks, stays⟩, stops⟩

theorem Stops.replace {chunk : List UInt8} {after : List (List UInt8)}
    {result : Except StreamFault Unit} (stops : Stops (chunk :: after) result)
    (later : List (List UInt8)) : Stops (chunk :: later) result := by
  cases stops with
  | left asks after => exact .left asks later
  | garbled undecoded after => exact .garbled undecoded later

theorem Takes.replace {input : List UInt8} {lines : List Text} {chunk : List UInt8}
    {after : List (List UInt8)} {result : Except StreamFault Unit}
    (takes : Takes input lines (chunk :: after) result) {later : List UInt8}
    (ended : chunk.getLast? = some lineFeed ∨ later = []) :
    Takes (lines.flatMap Text.toUtf8 ++ chunk ++ later) lines
      (chunk :: cutBehind (· == lineFeed) later) result where
  cut := by
    have front : lines.flatMap Text.toUtf8 ++ chunk =
        (lines.map Text.toUtf8 ++ [chunk]).flatten := by
      simp [List.flatMap_def]
    have begins : lines.map Text.toUtf8 ++ [chunk] <+: cutBehind (· == lineFeed) input :=
      ⟨after, by rw [takes.cut, List.append_assoc, List.singleton_append]⟩
    have cuts := cutBehind_flatten_of_prefix begins
    rw [front]
    rcases ended with last | rfl
    · have final (byte : UInt8)
          (here : (lines.map Text.toUtf8 ++ [chunk]).flatten.getLast? = some byte) :
          (byte == lineFeed) = true := by
        rw [List.flatten_append, List.flatten_singleton, List.getLast?_append, last] at here
        cases here
        rfl
      rw [cutBehind_append_of_ended final, cuts, List.append_assoc, List.singleton_append]
    · rw [List.append_nil, cuts]
      rfl
  stays := takes.stays
  stops := takes.stops.replace _

theorem prompt_append_answers (replies : List LineReply) :
    prompt ++ answers replies =
      (replies.flatMap fun reply => prompt ++ reply.answer) ++ prompt := by
  induction replies with
  | nil => simp [answers]
  | cons reply later ih =>
    have split : answers (reply :: later) = reply.answer ++ (prompt ++ answers later) := by
      simp [answers]
    rw [split, ih, List.flatMap_cons, List.append_assoc, List.append_assoc]

end LineCalculator.Session
