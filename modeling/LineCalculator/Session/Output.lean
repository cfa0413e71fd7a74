import LineCalculator.Action
import LineCalculator.Text.Utf8

/-! Output that may take a limited number of bytes. What goes beyond the limit is cut off, and
then writing fails. -/

namespace LineCalculator

inductive StreamFault where
  /-- The output takes no more bytes. -/
  | full
  /-- The input is the UTF-8 form of no text. -/
  | notUtf8
  deriving DecidableEq, Repr

def StreamFault.message : StreamFault → Text
  | full => "failed to write whole buffer".toList
  | notUtf8 => "stream did not contain valid UTF-8".toList

structure Output where
  /-- The number of bytes that can be written altogether, if there is one. -/
  limit : Option Nat := none
  bytes : Array UInt8 := #[]
  deriving DecidableEq

namespace Output

def accepted (output : Output) (bytes : List UInt8) : List UInt8 :=
  match output.limit with
  | none => bytes
  | some limit => bytes.take (limit - output.bytes.size)

/-- Writes bytes, or as many of them as are accepted. -/
def write (bytes : List UInt8) : Action Output StreamFault Unit := fun output =>
  let taken := output.accepted bytes
  (if taken.length = bytes.length then .ok () else .error .full,
    { output with bytes := output.bytes ++ taken })

theorem write_of_unlimited {output : Output} (unlimited : output.limit = none)
    (bytes : List UInt8) :
    write bytes output = (.ok (), { output with bytes := output.bytes ++ bytes }) := by
  simp [write, accepted, unlimited]

theorem write_of_room {output : Output} {limit : Nat} {bytes : List UInt8}
    (limited : output.limit = some limit) (room : bytes.length ≤ limit - output.bytes.size) :
    write bytes output = (.ok (), { output with bytes := output.bytes ++ bytes }) := by
  have all : output.accepted bytes = bytes := by
    rw [accepted, limited]
    exact List.take_of_length_le room
  rw [write, all, if_pos rfl]

theorem write_of_full {output : Output} {limit : Nat} {bytes : List UInt8}
    (limited : output.limit = some limit) (full : limit - output.bytes.size < bytes.length) :
    write bytes output = (.error .full,
      { output with bytes := output.bytes ++ bytes.take (limit - output.bytes.size) }) := by
  have part : output.accepted bytes = bytes.take (limit - output.bytes.size) := by
    rw [accepted, limited]
  have short : (bytes.take (limit - output.bytes.size)).length ≠ bytes.length := by
    rw [List.length_take]
    omega
  rw [write, part, if_neg short]

theorem write_nil (output : Output) : write [] output = (.ok (), output) := by
  cases limited : output.limit with
  | none => rw [write_of_unlimited limited]; simp
  | some limit => rw [write_of_room limited (Nat.zero_le _)]; simp

theorem write_append (first later : List UInt8) :
    write (first ++ later) = write first >>= fun _ => write later := by
  funext output
  let middle : Output := { output with bytes := output.bytes ++ first }
  have joined (behind : List UInt8) : middle.bytes ++ behind = output.bytes ++ (first ++ behind) :=
    Array.toList_inj.1 (by simp [middle])
  have size : middle.bytes.size = output.bytes.size + first.length := by
    rw [← Array.length_toList, Array.toList_appendList, List.length_append, Array.length_toList]
  cases limited : output.limit with
  | none =>
    have rest := write_of_unlimited (show middle.limit = none from limited) later
    rw [Action.apply_bind_of_ok (write_of_unlimited limited first), rest,
      write_of_unlimited limited, joined]
  | some limit =>
    have same : middle.limit = some limit := limited
    by_cases room : first.length ≤ limit - output.bytes.size
    · rw [Action.apply_bind_of_ok (write_of_room limited room)]
      by_cases more : later.length ≤ limit - middle.bytes.size
      · rw [write_of_room same more, joined,
          write_of_room limited (by rw [List.length_append]; omega)]
      · rw [write_of_full same (Nat.lt_of_not_le more), joined,
          write_of_full limited (by rw [List.length_append]; omega), List.take_append,
          List.take_of_length_le room, size, Nat.sub_add_eq]
    · -- The second part is not written, and it would not fit either.
      rw [Action.apply_bind_of_error (write_of_full limited (Nat.lt_of_not_le room)),
        write_of_full limited (by rw [List.length_append]; omega),
        List.take_append_of_le_length (by omega)]

end Output

end LineCalculator
