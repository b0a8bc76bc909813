import Mathlib.Tactic.NormNum

/-!
# Little-endian fields of a byte string

A record that crosses a wire as raw memory is a byte string, and its fields
are numbers stored at fixed offsets, least significant byte first.
`leBytes` writes a number into a field of a given width and `leNat` reads
one; a field wide enough for the number gives it back (`leNat_leBytes`),
and a record that is written field after field is read field after field
(`leField_append_left`, `leField_append_right`).
-/

open Nat List

/-- The `w` low bytes of `n`, least significant first. -/
def leBytes : ℕ → ℕ → List UInt8
  | 0, _ => []
  | w + 1, n => UInt8.ofNat n :: leBytes w (n / 256)

/-- The number whose bytes, least significant first, are given. -/
def leNat : List UInt8 → ℕ
  | [] => 0
  | b :: bs => b.toNat + 256 * leNat bs

/-- The field of width `w` at an offset. -/
def leField (bytes : List UInt8) (off w : ℕ) : ℕ := leNat ((bytes.drop off).take w)

@[simp] theorem length_leBytes (w n : ℕ) : (leBytes w n).length = w := by
  induction w generalizing n with
  | zero => rfl
  | succ w ih => exact congrArg succ (ih (n / 256))

theorem leNat_leBytes (w n : ℕ) : leNat (leBytes w n) = n % 256 ^ w := by
  induction w generalizing n with
  | zero => exact (mod_one n).symm
  | succ w ih =>
    have hb : (UInt8.ofNat n).toNat = n % 256 := UInt8.toNat_ofNat'
    show (UInt8.ofNat n).toNat + 256 * leNat (leBytes w (n / 256)) = _
    rw [hb, ih, pow_succ', mod_mul]

/-- The first field of a record. -/
theorem leField_append_left (w n : ℕ) (rest : List UInt8) :
    leField (leBytes w n ++ rest) 0 w = n % 256 ^ w := by
  have htake : (leBytes w n ++ rest).take w = leBytes w n := by
    rw [take_append_of_le_length (length_leBytes w n).ge, take_of_length_le (length_leBytes w n).le]
  unfold leField
  rw [drop_zero, htake, leNat_leBytes]

/-- The fields after the first one. -/
theorem leField_append_right (v n : ℕ) (rest : List UInt8) (off w : ℕ) :
    leField (leBytes v n ++ rest) (v + off) w = leField rest off w := by
  unfold leField
  rw [drop_append, length_leBytes, Nat.add_sub_cancel_left,
    drop_of_length_le (by rw [length_leBytes]; exact le_add_right v off),
    nil_append]

/-! ## Writing into memory -/

/-- The memory after bytes have been written from an offset on. -/
def overlay (mem : List UInt8) (off : ℕ) (bytes : List UInt8) : List UInt8 :=
  mem.take off ++ bytes ++ mem.drop (off + bytes.length)

variable {off : ℕ} {mem bytes : List UInt8}

theorem length_overlay (h : off + bytes.length ≤ mem.length) :
    (overlay mem off bytes).length = mem.length := by
  unfold overlay
  rw [length_append, length_append, length_take, length_drop]
  omega

/-- What has been written so far, and the bytes after it. -/
theorem take_overlay (h : off ≤ mem.length) :
    (overlay mem off bytes).take (off + bytes.length) = mem.take off ++ bytes := by
  have hlen : (mem.take off ++ bytes).length = off + bytes.length := by
    rw [length_append, length_take, min_eq_left h]
  unfold overlay
  rw [← hlen, take_left]

theorem getElem?_overlay (h : off + bytes.length ≤ mem.length) (b : ℕ) : (overlay mem off bytes)[b]?
      = if off ≤ b ∧ b < off + bytes.length then bytes[b - off]? else mem[b]? := by
  have htake : (mem.take off).length = off := by
    rw [length_take]
    exact min_eq_left (by omega)
  unfold overlay
  by_cases hoff : b < off
  · rw [if_neg (by omega), append_assoc,
      getElem?_append_left (by rw [htake]; exact hoff), getElem?_take_of_lt hoff]
  · by_cases hend : b < off + bytes.length
    · rw [if_pos (by omega), append_assoc, getElem?_append_right (by omega), htake,
        getElem?_append_left (by omega)]
    · have hlen : (mem.take off ++ bytes).length = off + bytes.length := by
        rw [length_append, htake]
      rw [if_neg (by omega), getElem?_append_right (by omega), hlen,
        getElem?_drop, Nat.add_sub_cancel' (by omega)]
