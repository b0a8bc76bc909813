import Mathlib.Data.Nat.Bitwise

/-!
# Aligned blocks of numbers

The numbers that agree above their `o` lowest bits are a *block* of size
`2 ^ o`. A block is split into smaller ones by the next bits below, its
*digit* of some width (`same_iff_digit`), and a block that begins at `a` is
the interval from `a` on (`same_iff_of_dvd`).

The words that blocks are computed with are masks, `2 ^ n - 2 ^ s` with ones
from bit `s` on: what a mask selects of a number says which block it is in
(`and_mask`), and a shift and an or make one mask of another.
-/

namespace Block

open Nat

/-- Two numbers are in the same block of size `2 ^ o`. -/
def Same (o a x : ℕ) : Prop := x / 2 ^ o = a / 2 ^ o
deriving Decidable

/-- The `w` bits of a number from bit `s` on. -/
def digit (w s x : ℕ) : ℕ := x / 2 ^ s % 2 ^ w

variable {o s w n a x y i : ℕ}

@[simp] theorem same_self : Same o a a := rfl

theorem Same.symm (h : Same o a x) : Same o x a := Eq.symm h

theorem Same.trans (h : Same o a x) (h' : Same o x y) : Same o a y := Eq.trans h' h

theorem div_two_pow_add (y s w : ℕ) : y / 2 ^ (s + w) = y / 2 ^ s / 2 ^ w := by
  rw [pow_add, Nat.div_div_eq_div_mul]

theorem Same.mono (h : Same o a x) (hos : o ≤ s) : Same s a x := by
  obtain ⟨w, rfl⟩ := Nat.exists_eq_add_of_le hos
  show x / 2 ^ (o + w) = a / 2 ^ (o + w)
  rw [div_two_pow_add, div_two_pow_add, h]

/-- **A block is split by its digit.** -/
theorem same_iff_digit : Same s a x ↔ Same (s + w) a x ∧ digit w s x = digit w s a := by
  constructor
  · intro h
    exact ⟨h.mono (le_add_right s w), by unfold digit; rw [h]⟩
  · rintro ⟨hblock, hdigit⟩
    show x / 2 ^ s = a / 2 ^ s
    rw [← div_add_mod (x / 2 ^ s) (2 ^ w), ← div_add_mod (a / 2 ^ s) (2 ^ w),
      ← div_two_pow_add, ← div_two_pow_add, hblock]
    exact congrArg _ hdigit

theorem exists_digit_eq (a s : ℕ) (hi : i < 2 ^ w) : ∃ b, Same (s + w) a b ∧ digit w s b = i := by
  unfold Same digit
  generalize a / 2 ^ (s + w) = c
  have hdiv : (c * 2 ^ w + i) * 2 ^ s / 2 ^ s = c * 2 ^ w + i :=
    Nat.mul_div_cancel _ (Nat.two_pow_pos s)
  refine ⟨(c * 2 ^ w + i) * 2 ^ s, ?_, ?_⟩
  · rw [div_two_pow_add, hdiv, mul_comm, mul_add_div (Nat.two_pow_pos w), div_eq_of_lt hi, add_zero]
  · rw [hdiv, mul_comm, mul_add_mod, mod_eq_of_lt hi]

theorem same_iff_of_dvd (ha : 2 ^ o ∣ a) : Same o a x ↔ a ≤ x ∧ x < a + 2 ^ o := by
  have hpos := Nat.two_pow_pos o
  obtain ⟨k, rfl⟩ := ha
  unfold Same
  rw [Nat.mul_div_cancel_left k hpos, Nat.div_eq_iff hpos, mul_comm (2 ^ o) k]
  omega

/-! ## Masks -/

theorem mask_eq (hs : s ≤ n) : 2 ^ n - 2 ^ s = (2 ^ (n - s) - 1) <<< s := by
  rw [shiftLeft_eq, Nat.sub_mul, one_mul, ← pow_add, Nat.sub_add_cancel hs]

/-- **What a mask selects.** -/
theorem and_mask (hs : s ≤ n) (ha : a < 2 ^ n) : a &&& (2 ^ n - 2 ^ s) = a / 2 ^ s * 2 ^ s := by
  rw [mask_eq hs, ← shiftRight_eq_div_pow, ← shiftLeft_eq]
  refine eq_of_testBit_eq fun i => ?_
  rw [testBit_and, testBit_shiftLeft, testBit_shiftLeft,
    testBit_two_pow_sub_one, testBit_shiftRight]
  by_cases hi : s ≤ i
  · rw [decide_eq_true (show i ≥ s from hi), Bool.true_and, Bool.true_and, Nat.add_sub_cancel' hi]
    by_cases hn : i - s < n - s
    · rw [decide_eq_true hn, Bool.and_true]
    · rw [testBit_lt_two_pow (lt_of_lt_of_le ha
        (Nat.pow_le_pow_right Nat.two_pos (by omega))), Bool.false_and]
  · rw [decide_eq_false (show ¬i ≥ s from hi), Bool.false_and, Bool.false_and, Bool.and_false]

/-- Which block a number is in is read off what a mask selects. -/
theorem and_mask_eq_iff (hs : s ≤ n) (ha : a < 2 ^ n) {b : ℕ} (hb : 2 ^ s ∣ b) :
    a &&& (2 ^ n - 2 ^ s) = b ↔ Same s b a := by
  obtain ⟨k, rfl⟩ := hb
  unfold Same
  rw [and_mask hs ha, Nat.mul_div_cancel_left k (Nat.two_pow_pos s), mul_comm]
  exact Nat.mul_right_inj ((Nat.two_pow_pos s).ne')

theorem mask_shiftLeft (hs : s + w ≤ n) : (2 ^ n - 2 ^ s) <<< w % 2 ^ n = 2 ^ n - 2 ^ (s + w) := by
  have hle : 2 ^ (s + w) ≤ 2 ^ n := Nat.pow_le_pow_right Nat.two_pos hs
  have hpos := Nat.two_pow_pos (s + w)
  have hsplit : 2 ^ n * 2 ^ w - 2 ^ (s + w) = 2 ^ n * (2 ^ w - 1) + (2 ^ n - 2 ^ (s + w)) := by
    rw [Nat.mul_sub, mul_one, ← Nat.add_sub_assoc hle, Nat.sub_add_cancel
      (Nat.le_mul_of_pos_right _ (Nat.two_pow_pos w))]
  rw [shiftLeft_eq, Nat.sub_mul, ← pow_add 2 s w, hsplit, mul_add_mod]
  exact mod_eq_of_lt (by omega)

/-- A digit is put into a number that has none there. -/
theorem or_digit (ha : 2 ^ (s + w) ∣ a) (hi : i < 2 ^ w) : a ||| (i <<< s) = a + i * 2 ^ s := by
  obtain ⟨k, rfl⟩ := ha
  have hk : 2 ^ (s + w) * k = (k <<< w) <<< s := by
    rw [shiftLeft_eq, shiftLeft_eq, mul_comm, mul_assoc, ← pow_add, add_comm w s]
  rw [hk, ← shiftLeft_or_distrib, ← shiftLeft_add_eq_or_of_lt hi, shiftLeft_eq,
    add_mul, ← shiftLeft_eq (k <<< w)]

/-- The smaller block with a given digit. -/
theorem same_add_digit (ha : 2 ^ (s + w) ∣ a) (hi : i < 2 ^ w) :
    Same s (a + i * 2 ^ s) x ↔ Same (s + w) a x ∧ digit w s x = i := by
  obtain ⟨k, rfl⟩ := ha
  have hdiv : (2 ^ (s + w) * k + i * 2 ^ s) / 2 ^ s = 2 ^ w * k + i := by
    rw [pow_add, mul_assoc, mul_comm i, ← mul_add, Nat.mul_div_cancel_left _ (Nat.two_pow_pos s)]
  have hblock : Same (s + w) (2 ^ (s + w) * k) (2 ^ (s + w) * k + i * 2 ^ s) := by
    unfold Same
    rw [Nat.mul_div_cancel_left k (Nat.two_pow_pos _), div_two_pow_add, hdiv,
      mul_add_div (Nat.two_pow_pos w), div_eq_of_lt hi, add_zero]
  have hdigit : digit w s (2 ^ (s + w) * k + i * 2 ^ s) = i := by
    unfold digit
    rw [hdiv, mul_add_mod, mod_eq_of_lt hi]
  rw [same_iff_digit (w := w), hdigit]
  exact and_congr_left' ⟨hblock.trans, hblock.symm.trans⟩

theorem mask_or (hs : s + w ≤ n) :
    (2 ^ n - 2 ^ (s + w)) ||| ((2 ^ w - 1) <<< s) = 2 ^ n - 2 ^ s := by
  have hle : 2 ^ (s + w) ≤ 2 ^ n := Nat.pow_le_pow_right Nat.two_pos hs
  have hle' : 2 ^ s ≤ 2 ^ (s + w) := Nat.pow_le_pow_right Nat.two_pos (le_add_right s w)
  have hdvd : 2 ^ (s + w) ∣ 2 ^ n - 2 ^ (s + w) := dvd_sub (pow_dvd_pow 2 hs) (dvd_refl _)
  rw [or_digit hdvd (sub_lt (Nat.two_pow_pos w) Nat.one_pos), Nat.sub_mul, ← pow_add, add_comm w s]
  omega

end Block
