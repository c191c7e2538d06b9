import SchemaMigration.Proofs.Basic

/-!
This module contains lemmas about decimal numerals: a numeral consists of digits, has no leading
zero, and denotes its number.
-/

namespace SchemaMigration

namespace Byte

theorem toNat_digit {n : Nat} (h : n < 10) : (digit n).toNat = 48 + n := by
  unfold digit
  rw [UInt8.toNat_ofNat']
  omega

theorem isDigit_digit {n : Nat} (h : n < 10) : isDigit (digit n) = true := by
  rw [isDigit_iff, toNat_digit h]
  omega

end Byte

namespace Text

theorem ofNat.go_append (fuel n : Nat) (acc : Text) : go fuel n acc = go fuel n [] ++ acc := by
  induction fuel generalizing n acc with
  | zero => rfl
  | succ fuel ih =>
    unfold go
    split
    . rfl
    . rw [ih _ (_ :: acc), ih _ [_]]
      simp

theorem ofNat.go_eq_ofNat {fuel n : Nat} (h : n < fuel) : go fuel n [] = ofNat n := by
  unfold ofNat
  induction n using Nat.strongRecOn generalizing fuel with
  | ind n ih =>
    obtain ⟨fuel, rfl⟩ := Nat.exists_eq_add_one_of_ne_zero (Nat.ne_zero_of_lt h)
    unfold go
    split
    . rfl
    . rw [go_append fuel, go_append n]
      have hfuel : n / 10 < fuel := by omega
      have hself : n / 10 < n := by omega
      rw [ih (n / 10) hself hfuel, ih (n / 10) hself hself]

theorem ofNat_of_lt {n : Nat} (h : n < 10) : ofNat n = [Byte.digit n] := by
  unfold ofNat ofNat.go
  rw [if_pos h]

theorem ofNat_of_le {n : Nat} (h : 10 ≤ n) : ofNat n = ofNat (n / 10) ++ [Byte.digit (n % 10)] := by
  rw [ofNat, ofNat.go, if_neg (by omega), ofNat.go_append, ofNat.go_eq_ofNat (by omega)]

theorem isDigit_of_mem_ofNat {n : Nat} : ∀ b ∈ ofNat n, Byte.isDigit b = true := by
  induction n using Nat.strongRecOn with
  | ind n ih =>
    intro b hb
    by_cases h : n < 10
    . rw [ofNat_of_lt h, List.mem_singleton] at hb
      rw [hb]
      exact Byte.isDigit_digit h
    . rw [ofNat_of_le (by omega), List.mem_append, List.mem_singleton] at hb
      cases hb with
      | inl hb => exact ih (n / 10) (by omega) b hb
      | inr hb =>
        rw [hb]
        exact Byte.isDigit_digit (by omega)

theorem digitsValue_append_singleton (t : Text) (b : UInt8) :
    digitsValue (t ++ [b]) = 10 * digitsValue t + (b.toNat - 48) := by
  simp [digitsValue]

theorem digitsValue_ofNat (n : Nat) : digitsValue (ofNat n) = n := by
  induction n using Nat.strongRecOn with
  | ind n ih =>
    by_cases h : n < 10
    . rw [ofNat_of_lt h]
      simp [digitsValue, Byte.toNat_digit h]
    . rw [ofNat_of_le (by omega), digitsValue_append_singleton, ih (n / 10) (by omega)]
      rw [Byte.toNat_digit (by omega)]
      omega

/-- A numeral begins with zero only if it is the numeral of zero. -/
theorem ofNat_eq_cons (n : Nat) :
    ∃ first others, ofNat n = first :: others ∧ (first = byte '0' → others = []) := by
  induction n using Nat.strongRecOn with
  | ind n ih =>
    by_cases h : n < 10
    . exact ⟨Byte.digit n, [], ofNat_of_lt h, fun _ => rfl⟩
    . obtain ⟨first, others, hquotient, hzero⟩ := ih (n / 10) (by omega)
      refine ⟨first, others ++ [Byte.digit (n % 10)], ?_, ?_⟩
      . rw [ofNat_of_le (by omega), hquotient]
        rfl
      . intro hfirst
        -- The quotient is at least one, so its numeral is not that of zero.
        have hvalue := digitsValue_ofNat (n / 10)
        rw [hquotient, hzero hfirst, hfirst] at hvalue
        have : digitsValue [byte '0'] = 0 := rfl
        omega

end Text

end SchemaMigration
