import LineCalculator.Text.Blank

/-! The UTF-8 form of texts. Decoding fails on bytes that are the form of no text. -/

namespace LineCalculator.Text

def toUtf8 (t : Text) : List UInt8 :=
  t.flatMap String.utf8EncodeChar

def ofUtf8? (bytes : List UInt8) : Option Text :=
  (String.fromUTF8? bytes.toByteArray).map String.toList

@[simp] theorem toUtf8_nil : toUtf8 [] = [] := rfl

@[simp] theorem toUtf8_append (s t : Text) : toUtf8 (s ++ t) = toUtf8 s ++ toUtf8 t :=
  List.flatMap_append

theorem toUtf8_flatten (parts : List Text) :
    toUtf8 parts.flatten = (parts.map toUtf8).flatten := by
  induction parts with
  | nil => rfl
  | cons part later ih =>
    rw [List.flatten_cons, toUtf8_append, ih, List.map_cons, List.flatten_cons]

theorem toByteArray_toUtf8 (t : Text) : (toUtf8 t).toByteArray = (String.ofList t).toByteArray :=
  rfl

@[simp] theorem ofUtf8?_toUtf8 (t : Text) : ofUtf8? (toUtf8 t) = some t := by
  have valid := (String.ofList t).isValidUTF8
  rw [ofUtf8?, toByteArray_toUtf8, String.fromUTF8?, dif_pos (by simpa using valid)]
  exact congrArg some String.toList_ofList

theorem eq_toUtf8_of_ofUtf8? {bytes : List UInt8} {t : Text} (decoded : ofUtf8? bytes = some t) :
    bytes = toUtf8 t := by
  obtain ⟨s, found, rfl⟩ := Option.map_eq_some_iff.1 decoded
  have same : s.toByteArray = bytes.toByteArray := by
    rw [String.fromUTF8?] at found
    split at found
    · exact (Option.some.inj found) ▸ rfl
    · cases found
  have form : s.toByteArray = (toUtf8 s.toList).toByteArray := by
    rw [toByteArray_toUtf8, String.ofList_toList]
  have data := congrArg ByteArray.data (same.symm.trans form)
  simpa using congrArg Array.toList data

theorem toNat_of_mem_utf8EncodeChar {c : Char} {byte : UInt8}
    (member : byte ∈ String.utf8EncodeChar c) : byte.toNat = c.toNat ∨ 128 ≤ byte.toNat := by
  have high {n : Nat} (bound : n < 256) (above : 128 ≤ n) : 128 ≤ (UInt8.ofNat n).toNat := by
    rwa [UInt8.toNat_ofNat_of_lt' bound]
  simp only [String.utf8EncodeChar] at member
  split at member
  · next small =>
    left
    rw [List.mem_singleton.1 member, UInt8.toNat_ofNat_of_lt' (by omega : c.val.toNat < 256)]
    rfl
  right
  split at member
  · simp only [List.mem_cons, List.not_mem_nil, or_false] at member
    rcases member with rfl | rfl <;> exact high (by omega) (by omega)
  split at member
  · simp only [List.mem_cons, List.not_mem_nil, or_false] at member
    rcases member with rfl | rfl | rfl <;> exact high (by omega) (by omega)
  · simp only [List.mem_cons, List.not_mem_nil, or_false] at member
    rcases member with rfl | rfl | rfl | rfl <;> exact high (by omega) (by omega)

theorem utf8EncodeChar_ne_nil (c : Char) : String.utf8EncodeChar c ≠ [] := by
  rw [String.utf8EncodeChar]
  split
  · simp
  split
  · simp
  split <;> simp

end LineCalculator.Text
