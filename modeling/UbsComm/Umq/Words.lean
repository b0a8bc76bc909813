import UbsComm.Lib.Bytes
import UbsComm.Lib.Memory
import UbsComm.Umq.BindInfo

/-!
# Words in memory

Numbers of four and eight bytes as the code writes them through a pointer, least
significant byte first, and reads them back (`wordAt`).
-/

namespace Umq

open Memory Packing

/-- Four bytes. -/
def u32 (x : UInt32) : List UInt8 := leBytes 4 x.toNat

/-- Eight bytes. -/
def u64 (x : UInt64) : List UInt8 := leBytes 8 x.toNat

theorem length_u32 (x : UInt32) : (u32 x).length = 4 := length_leBytes 4 _

theorem length_u64 (x : UInt64) : (u64 x).length = 8 := length_leBytes 8 _

variable {mem mem' : ℕ → UInt8} {a b : ℕ} {x : UInt32} {l : List UInt8}

theorem wordAt_eq (mem : ℕ → UInt8) (a : ℕ) :
    wordAt mem a = UInt32.ofNat (leNat (bytes mem a 4)) := by
  have hbytes : bytes mem a 4 = [mem a, mem (a + 1), mem (a + 2), mem (a + 3)] := rfl
  rw [hbytes]
  refine congrArg UInt32.ofNat ?_
  simp only [leNat]
  omega

theorem wordAt_of_bytes (h : bytes mem a 4 = u32 x) : wordAt mem a = x := by
  have hlt : x.toNat < 256 ^ 4 := x.toNat_lt
  rw [wordAt_eq, h, u32, leNat_leBytes, Nat.mod_eq_of_lt hlt, UInt32.ofNat_toNat]

theorem wordAt_congr (h : ∀ i < 4, mem' (a + i) = mem (a + i)) : wordAt mem' a = wordAt mem a := by
  rw [wordAt_eq, wordAt_eq, bytes_congr h]

theorem wordAt_store : wordAt (store mem a (u32 x)) a = x := by
  refine wordAt_of_bytes ?_
  exact bytes_store

theorem wordAt_store_of_apart (h : b + 4 ≤ a ∨ a + l.length ≤ b) :
    wordAt (store mem a l) b = wordAt mem b :=
  wordAt_congr fun i hi => store_of_outside (by omega)

end Umq
