import LineCalculator.Text.Blank

/-! Decimal notation of numbers, without leading zeros and with a minus sign in front of
negative ones. Reading takes leading zeros. -/

namespace LineCalculator.Decimal

def ofNat (n : Nat) : Text :=
  Nat.toDigits 10 n

def ofInt : Int → Text
  | .ofNat n => ofNat n
  | .negSucc n => '-' :: ofNat (n + 1)

def value (digits : Text) : Nat :=
  Nat.ofDigitChars 10 digits 0

@[simp] theorem value_ofNat (n : Nat) : value (ofNat n) = n :=
  Nat.ofDigitChars_ten_toDigits

theorem ofNat_ne_nil (n : Nat) : ofNat n ≠ [] :=
  Nat.toDigits_ne_nil

theorem isDigit_of_mem_ofNat {n : Nat} {c : Char} (member : c ∈ ofNat n) : c.isDigit = true :=
  Nat.isDigit_of_mem_toDigits (by decide) (by decide) member

def toInt : Text → Int
  | '-' :: digits => -(value digits : Int)
  | digits => value digits

@[simp] theorem toInt_ofInt (value : Int) : toInt (ofInt value) = value := by
  cases value with
  | ofNat n =>
    have unsigned (digits : Text) : ofNat n ≠ '-' :: digits := by
      intro same
      have digit : '-'.isDigit = true := isDigit_of_mem_ofNat (same ▸ List.mem_cons_self)
      cases digit
    rw [ofInt, toInt.eq_2 _ unsigned, value_ofNat]
    rfl
  | negSucc n =>
    rw [ofInt, toInt, value_ofNat]
    rfl

theorem ofInt_injective {value other : Int} (same : ofInt value = ofInt other) : value = other := by
  rw [← toInt_ofInt value, same, toInt_ofInt]

end LineCalculator.Decimal
