import Mathlib.Data.Nat.Bitwise

/-!
# Words with a tag in their high bits

A 64-bit word whose low `k` bits hold a pointer and whose high bits hold a
small number, the *tag*, put there by a shift and an or. A tagged word
determines both parts (`tag_inj`), and tagging a tagged word once more does
not replace the tag but adds its bits to those that are there (`tag_tag`).
-/

namespace Tagged

open Nat UInt64

/-- A word tagged with `v`. -/
def tag (k : ℕ) (v w : UInt64) : UInt64 := (v <<< UInt64.ofNat k) ||| w

/-- The low part of a word. -/
def low (k : ℕ) (w : UInt64) : UInt64 := w &&& UInt64.ofNat (2 ^ k - 1)

variable {k : ℕ}

theorem tag_zero (p : UInt64) : tag k 0 p = p := by rw [tag, UInt64.zero_shiftLeft, UInt64.zero_or]

/-- Tags accumulate. -/
theorem tag_tag (v v' p : UInt64) : tag k v (tag k v' p) = tag k (v ||| v') p := by
  rw [tag, tag, tag, shiftLeft_or, UInt64.or_assoc]

section

variable (hk : k < 64) {v p : UInt64}
include hk

theorem toNat_tag (hv : v.toNat < 2 ^ (64 - k))
    (hp : p.toNat < 2 ^ k) : (tag k v p).toNat = v.toNat * 2 ^ k + p.toNat := by
  have hword : (ofNat k).toNat % 64 = k := by
    rw [toNat_ofNat_of_lt' (by rw [UInt64.size]; omega)]
    exact mod_eq_of_lt hk
  have hlt : v.toNat * 2 ^ k < 2 ^ 64 := by
    calc v.toNat * 2 ^ k < 2 ^ (64 - k) * 2 ^ k :=
          Nat.mul_lt_mul_of_pos_right hv (Nat.two_pow_pos k)
      _ = 2 ^ 64 := by rw [← pow_add, Nat.sub_add_cancel hk.le]
  rw [tag, UInt64.toNat_or, UInt64.toNat_shiftLeft, hword, shiftLeft_eq,
    mod_eq_of_lt hlt, ← shiftLeft_eq,
    ← shiftLeft_add_eq_or_of_lt hp]

/-- **A tagged word determines its tag and what is tagged.** -/
theorem tag_inj {v v' p p' : UInt64} (hv : v.toNat < 2 ^ (64 - k)) (hv' : v'.toNat < 2 ^ (64 - k))
    (hp : p.toNat < 2 ^ k) (hp' : p'.toNat < 2 ^ k) :
    tag k v p = tag k v' p' ↔ v = v' ∧ p = p' := by
  constructor
  · intro h
    have hnat := congrArg toNat h
    rw [toNat_tag hk hv hp, toNat_tag hk hv' hp', mul_comm _ (2 ^ k), mul_comm _ (2 ^ k)] at hnat
    have hmod := congrArg (· % 2 ^ k) hnat
    have hdiv := congrArg (· / 2 ^ k) hnat
    simp only [mul_add_mod, mod_eq_of_lt hp, mod_eq_of_lt hp',
      mul_add_div (Nat.two_pow_pos k), div_eq_of_lt hp,
      div_eq_of_lt hp'] at hmod hdiv
    exact ⟨UInt64.toNat_inj.mp hdiv, UInt64.toNat_inj.mp hmod⟩
  · rintro ⟨rfl, rfl⟩
    rfl

theorem toNat_low (w : UInt64) : (low k w).toNat = w.toNat % 2 ^ k := by
  have hpow : 2 ^ k < 2 ^ 64 := Nat.pow_lt_pow_right Nat.one_lt_two hk
  rw [low, UInt64.toNat_and, toNat_ofNat_of_lt' (by rw [UInt64.size]; omega),
    and_two_pow_sub_one_eq_mod]

theorem low_tag (hv : v.toNat < 2 ^ (64 - k)) (hp : p.toNat < 2 ^ k) : low k (tag k v p) = p := by
  rw [← UInt64.toNat_inj, toNat_low hk, toNat_tag hk hv hp, mul_comm, mul_add_mod, mod_eq_of_lt hp]

theorem tag_ne_zero (hv : v.toNat < 2 ^ (64 - k))
    (hp : p.toNat < 2 ^ k) (hne : p ≠ 0) : tag k v p ≠ 0 := by
  intro h
  have := congrArg (low k) h
  rw [low_tag hk hv hp] at this
  exact hne (this.trans (UInt64.zero_and))

end

theorem toNat_or_lt {v v' : UInt64} {n : ℕ} (hv : v.toNat < 2 ^ n)
    (hv' : v'.toNat < 2 ^ n) : (v ||| v').toNat < 2 ^ n := by
  exact or_lt_two_pow hv hv'

end Tagged
