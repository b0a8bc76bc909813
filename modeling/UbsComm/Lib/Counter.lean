import Mathlib.Data.Nat.Size
import Mathlib.Data.Nat.ModEq

/-!
# Counters that wrap

A 32-bit counter that only goes up is the image of an unbounded one under
`UInt32.ofNat`. Sums and differences of the words are images of the sums
and differences of the counts; what the words cannot tell is how many times
the counter has gone round, so that a comparison of two words says something
about the counts only where these are known to be less than `2 ^ 32` apart.
The low bits of the word, however, are those of the count.
-/

namespace UInt32

open Nat

/-- Two counts less than a turn apart are told apart by their words. -/
theorem ofNat_eq_ofNat_iff {m n : ℕ} (hle : n ≤ m) (hlt : m < n + 2 ^ 32) :
    ofNat m = ofNat n ↔ m = n := by
  constructor
  · intro h
    rw [ofNat_eq_iff_mod_eq_toNat] at h
    -- the difference is a multiple of a turn, and less than one
    have hdvd : 2 ^ 32 ∣ m - n := (modEq_iff_dvd' hle).mp h.symm
    have hzero : m - n = 0 := eq_zero_of_dvd_of_lt hdvd (by omega)
    exact le_antisymm (Nat.sub_eq_zero_iff_le.mp hzero) hle
  · exact congrArg ofNat

/-- The difference of the words is that of the counts. -/
theorem toNat_ofNat_sub_ofNat {m n : ℕ} (hle : n ≤ m) (hlt : m < n + 2 ^ 32) :
    (ofNat m - ofNat n).toNat = m - n := by
  rw [← ofNat_sub hle]
  exact toNat_ofNat_of_lt' (by rw [size]; omega)

theorem ofNat_add_one (n : ℕ) : ofNat n + 1 = ofNat (n + 1) := (ofNat_add n 1).symm

theorem toNat_ofNat_and_mask {k : ℕ} (hk : k ≤ 32) (n : ℕ) :
    (ofNat n &&& ofNat (2 ^ k - 1)).toNat = n % 2 ^ k := by
  have hpos : 2 ^ k ≤ 2 ^ 32 := Nat.pow_le_pow_right Nat.two_pos hk
  have hmask : (ofNat (2 ^ k - 1)).toNat = 2 ^ k - 1 := toNat_ofNat_of_lt' (by rw [size]; omega)
  rw [UInt32.toNat_and, hmask, and_two_pow_sub_one_eq_mod]
  exact mod_mod_of_dvd n (pow_dvd_pow 2 hk)

end UInt32
