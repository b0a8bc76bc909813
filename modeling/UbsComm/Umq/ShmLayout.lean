import UbsComm.Umq.ShmPool

/-!
# The layout of the pool, and chains through the rings

Where the buffers of the pool are in its memory, in the two modes (`At`), and
what follows from it: the offset of a buffer is accepted in both processes
(`At.toQbuf`), the address tells the kind in the `split` mode
(`isWithData_of_mem`), and no chain is longer than the loops over it go. A chain
goes into offsets and comes out of them as it is (`pointerToOffset_chain`,
`offsetToPointer_chain`).
-/

namespace Umq

open Links List Nat Bool

/-! ## The layout -/

namespace ShmPool

variable {pool : ShmPool} {b offset : ℕ} {k : Bool}

theorem blockSize_bounds (pool : ShmPool) : sizeofUmqBuf < pool.blockSize := by
  have hpow : 2 ^ 13 ≤ 2 ^ pool.sizePowSmall := Nat.pow_le_pow_right (by decide) pool.pow_bounds.1
  show 128 < 2 ^ pool.sizePowSmall
  exact Nat.lt_of_lt_of_le (by decide) hpow

theorem split_total (h : pool.split = true) :
    pool.totalBlockNum * pool.blockSize + pool.totalBlockNum * 2176 ≤ pool.totalSize := by
  have hle := div_mul_le_self pool.totalSize
    ((umqEmptyHeaderCoefficient + 1) * sizeofUmqBuf + pool.blockSize)
  have hnum : pool.totalBlockNum =
      pool.totalSize / ((umqEmptyHeaderCoefficient + 1) * sizeofUmqBuf + pool.blockSize) := if_pos h
  rw [← hnum, Nat.mul_add, add_comm] at hle
  exact hle

theorem combine_total (h : pool.split = false) :
    pool.totalBlockNum * pool.blockSize ≤ pool.totalSize := by
  have hnum : pool.totalBlockNum = pool.totalSize / pool.blockSize :=
    if_neg fun ht => false_ne_true (h.symm.trans ht)
  rw [hnum]
  exact div_mul_le_self _ _

/-- The offset of a buffer, and which kind it is. -/
inductive At (pool : ShmPool) : ℕ → Bool → Prop where
  | header (i : ℕ) (hsplit : pool.split = true) (hi : i < pool.totalBlockNum) :
      At pool (pool.totalBlockNum * pool.blockSize + i * 128) true
  | ext (i : ℕ) (hsplit : pool.split = true) (hi : i < pool.totalBlockNum * 16) :
      At pool (pool.totalBlockNum * pool.blockSize + pool.totalBlockNum * 128 + i * 128) false
  | block (i : ℕ) (hsplit : pool.split = false) (hi : i < pool.totalBlockNum) :
      At pool (i * pool.blockSize) true

theorem headerBuffer_split (h : pool.split = true) (side : ShmSide) :
    pool.headerBuffer side = pool.base side + pool.totalBlockNum * pool.blockSize := if_pos h

theorem extHeaderBuffer_split (h : pool.split = true) : pool.extHeaderBuffer =
      pool.dataBuffer + pool.totalBlockNum * pool.blockSize + pool.totalBlockNum * 128 := by
  rw [extHeaderBuffer, if_pos h, headerBuffer_split h]
  rfl

theorem at_of_mem_withData (hb : b ∈ pool.withData) :
    ∃ offset, b = pool.dataBuffer + offset ∧ pool.At offset true := by
  obtain ⟨i, hi, rfl⟩ := mem_map.mp hb
  have hi := mem_range.mp hi
  cases hsplit : pool.split with
  | true =>
    refine ⟨_, ?_, At.header i hsplit hi⟩
    rw [headerBuffer_split hsplit, add_assoc]
    rfl
  | false => exact ⟨_, rfl, At.block i hsplit hi⟩

theorem at_of_mem_withoutData (hb : b ∈ pool.withoutData) :
    ∃ offset, b = pool.dataBuffer + offset ∧ pool.At offset false := by
  rw [withoutData] at hb
  cases hsplit : pool.split with
  | true =>
    rw [if_pos hsplit] at hb
    obtain ⟨i, hi, rfl⟩ := mem_map.mp hb
    refine ⟨_, ?_, At.ext i hsplit (mem_range.mp hi)⟩
    rw [extHeaderBuffer_split hsplit, add_assoc, add_assoc, add_assoc]
    rfl
  | false =>
    rw [if_neg (by rw [hsplit]; exact false_ne_true)] at hb
    exact nomatch hb

theorem block_le {i : ℕ} (hi : i < pool.totalBlockNum) :
    i * pool.blockSize + pool.blockSize ≤ pool.totalBlockNum * pool.blockSize := by
  rw [← succ_mul]
  exact mul_le_mul_right _ hi

section

variable (h : pool.At offset k)
include h

theorem At.offset_le : offset + sizeofUmqBuf ≤ pool.totalSize := by
  have hsize : sizeofUmqBuf = 128 := rfl
  cases h with
  | header i hsplit hi | ext i hsplit hi =>
    have htotal := split_total hsplit
    omega
  | block i hsplit hi =>
    have htotal := combine_total hsplit
    have hblock := blockSize_bounds pool
    have hmul := block_le hi
    omega

/-- **The offset of a buffer is accepted**, in both processes. -/
theorem At.toQbuf (side : ShmSide) :
    pool.umqOffsetToQbuf side offset = pool.base side + offset := by
  have hle := h.offset_le
  have hsize : sizeofUmqBuf = 128 := rfl
  have hfits : ¬ pool.totalSize - sizeofUmqBuf < offset := by omega
  rw [umqOffsetToQbuf, if_neg hfits]
  cases h with
  | header i hsplit hi | ext i hsplit hi =>
    rw [headerBuffer_split hsplit, if_neg, if_neg (fun hc => Bool.false_ne_true
      (hc.1.symm.trans hsplit))]
    rintro ⟨-, hlow | hhigh | hmod⟩
    · omega
    · rw [Nat.mul_add] at hhigh
      have hcoeff : (umqEmptyHeaderCoefficient + 1) * sizeofUmqBuf = 2176 := rfl
      rw [hcoeff] at hhigh
      omega
    · apply hmod
      rw [hsize]
      omega
  | block i hsplit hi =>
    rw [if_neg (fun hc => false_ne_true (hsplit.symm.trans hc.1)), if_neg]
    rintro ⟨-, hhigh | hmod⟩
    · have htotal := combine_total hsplit
      have hmul := block_le hi
      omega
    · exact hmod (mul_mod_left i pool.blockSize)

/-- In the `split` mode the headers without data come last. -/
theorem At.eq_true_iff (hsplit : pool.split = true) :
    k = true ↔ offset < pool.totalBlockNum * pool.blockSize + pool.totalBlockNum * 128 := by
  cases h with
  | header i _ hi => exact ⟨fun _ => by omega, fun _ => rfl⟩
  | ext i _ hi => exact ⟨nofun, fun h => by omega⟩
  | block i hc hi => exact absurd (hc.symm.trans hsplit) false_ne_true

/-- In the `combine` mode all buffers have data. -/
theorem At.eq_true_of_combine (hsplit : pool.split = false) : k = true := by
  cases h with
  | header i hs hi => rfl
  | ext i hs hi => exact absurd (hsplit.symm.trans hs) false_ne_true
  | block i hc hi => rfl

end

/-! ## The kinds of buffers -/

/-- Whether a buffer has data. -/
def kind (pool : ShmPool) (b : ℕ) : Bool := decide (b ∈ pool.withData)

theorem at_of_mem (hb : b ∈ pool.blocks) :
    ∃ offset, b = pool.dataBuffer + offset ∧ pool.At offset (pool.kind b) := by
  rw [kind]
  by_cases hdata : b ∈ pool.withData
  · rw [decide_eq_true hdata]
    exact at_of_mem_withData hdata
  · rw [decide_eq_false hdata]
    exact at_of_mem_withoutData ((mem_append.mp hb).resolve_left hdata)

theorem ne_zero_of_mem (hb : b ∈ pool.blocks) : b ≠ 0 := by
  obtain ⟨offset, rfl, -⟩ := at_of_mem hb
  exact Nat.ne_of_gt (Nat.add_pos_left pool.data_pos offset)

section

variable (hsplit : pool.split = true) (hb : b ∈ pool.blocks)
include hsplit hb

theorem kind_eq_true_iff : pool.kind b = true ↔ b < pool.extHeaderBuffer := by
  obtain ⟨offset, heq, hat⟩ := at_of_mem hb
  rw [hat.eq_true_iff hsplit, extHeaderBuffer_split hsplit, heq, add_assoc, Nat.add_lt_add_iff_left]

theorem headerBuffer_le : pool.headerBuffer .owner ≤ b := by
  obtain ⟨offset, heq, hat⟩ := at_of_mem hb
  generalize pool.kind b = k at hat
  rw [headerBuffer_split hsplit, heq]
  refine Nat.add_le_add_left ?_ pool.dataBuffer
  cases hat with
  | header i _ hi => exact le_add_right _ _
  | ext i _ hi => omega
  | block i hc hi => exact absurd (hc.symm.trans hsplit) false_ne_true

theorem isWithData_of_mem : pool.isWithData b = pool.kind b := by
  rw [isWithData, decide_eq_true (headerBuffer_le hsplit hb), Bool.true_and, Bool.eq_iff_iff,
    decide_eq_true_iff, kind_eq_true_iff hsplit hb]

end

/-- The kind as `umq_shm_qbuf_free` finds it. -/
theorem freeKind_of_mem (hb : b ∈ pool.blocks) :
    (!(pool.split && decide (pool.extHeaderBuffer ≤ b))) = pool.kind b := by
  cases hsplit : pool.split with
  | true =>
    rw [Bool.true_and, Bool.eq_iff_iff, kind_eq_true_iff hsplit hb, not_eq_true',
      decide_eq_false_iff_not, Nat.not_le]
  | false =>
    obtain ⟨offset, -, hat⟩ := at_of_mem hb
    rw [hat.eq_true_of_combine hsplit]
    rfl

/-! ## How many there are -/

theorem length_blocks_le (pool : ShmPool) : pool.blocks.length ≤ pool.fuel := by
  have hblock := blockSize_bounds pool
  rw [blocks, length_append, withData, length_map, length_range, withoutData, fuel]
  cases hsplit : pool.split with
  | true =>
    have htotal := split_total hsplit
    have hcoeff : umqEmptyHeaderCoefficient = 16 := rfl
    rw [if_pos rfl, length_map, length_range, hcoeff]
    omega
  | false =>
    have htotal := combine_total hsplit
    have hmul : pool.totalBlockNum * 1 ≤ pool.totalBlockNum * pool.blockSize :=
      mul_le_mul_left _ (by omega)
    show pool.totalBlockNum + 0 ≤ _
    omega

/-- A list of different buffers of the pool is no longer than the fuel. -/
theorem length_le_fuel {l : List ℕ} (hnodup : l.Nodup) (hl : ∀ b ∈ l, b ∈ pool.blocks) :
    l.length ≤ pool.fuel :=
  Nat.le_trans (subperm_of_subset hnodup hl).length_le (length_blocks_le pool)

theorem nodup_withData (pool : ShmPool) : pool.withData.Nodup := by
  have hblock := blockSize_bounds pool
  refine nodup_range.map fun i j hij => ?_
  cases hsplit : pool.split with
  | true =>
    rw [hsplit] at hij
    exact eq_of_mul_eq_mul_right (by decide) (add_left_cancel hij)
  | false =>
    rw [hsplit] at hij
    exact eq_of_mul_eq_mul_right (zero_lt_of_lt hblock) (add_left_cancel hij)

theorem nodup_withoutData (pool : ShmPool) : pool.withoutData.Nodup := by
  rw [withoutData]
  by_cases hsplit : pool.split = true
  · rw [if_pos hsplit]
    exact nodup_range.map fun i j hij => eq_of_mul_eq_mul_right (by decide) (add_left_cancel hij)
  · rw [if_neg hsplit]
    exact nodup_nil

theorem not_mem_withData (hb : b ∈ pool.withoutData) : b ∉ pool.withData := by
  intro hdata
  obtain ⟨offset, rfl, hat⟩ := at_of_mem_withoutData hb
  obtain ⟨offset', heq, hat'⟩ := at_of_mem_withData hdata
  obtain rfl := add_left_cancel heq
  cases hsplit : pool.split with
  | true => exact nomatch (hat.eq_true_iff hsplit).mpr ((hat'.eq_true_iff hsplit).mp rfl)
  | false => exact nomatch hat.eq_true_of_combine hsplit

/-! ## Addresses and offsets -/

section

variable (pool : ShmPool)

/-- The address of a buffer in a process. -/
def addr : ShmSide → ℕ → ℕ
  | .owner, b => b
  | .remote, b => if b = 0 then 0 else b - pool.dataBuffer + pool.remoteBuffer

/-- The offset of a buffer, as it is in a ring. -/
def offsetOf (b : ℕ) : ℕ := if b = 0 then qbufInvalidOffset else b - pool.dataBuffer

theorem addr_zero (side : ShmSide) : pool.addr side 0 = 0 := by
  cases side with
  | owner => rfl
  | remote => rw [addr, if_pos rfl]

theorem addr_add (side : ShmSide) (offset : ℕ) :
    pool.addr side (pool.dataBuffer + offset) = pool.base side + offset := by
  cases side with
  | owner => rfl
  | remote =>
    have hne : pool.dataBuffer + offset ≠ 0 := Nat.ne_of_gt (Nat.add_pos_left pool.data_pos offset)
    rw [addr, if_neg hne, Nat.add_sub_cancel_left, add_comm]
    rfl

theorem offsetOf_add (offset : ℕ) : pool.offsetOf (pool.dataBuffer + offset) = offset := by
  have hne : pool.dataBuffer + offset ≠ 0 := Nat.ne_of_gt (Nat.add_pos_left pool.data_pos offset)
  rw [offsetOf, if_neg hne, Nat.add_sub_cancel_left]

theorem base_pos (side : ShmSide) : 0 < pool.base side := by
  cases side with
  | owner => exact pool.data_pos
  | remote => exact pool.remote_pos

end

section

variable (hb : b ∈ pool.blocks)
include hb

theorem addr_ne_zero (side : ShmSide) : pool.addr side b ≠ 0 := by
  obtain ⟨offset, rfl, -⟩ := at_of_mem hb
  rw [addr_add]
  exact Nat.ne_of_gt (Nat.add_pos_left (base_pos pool side) offset)

theorem cell_addr (side : ShmSide) : pool.cell side (pool.addr side b) = b := by
  obtain ⟨offset, rfl, -⟩ := at_of_mem hb
  rw [addr_add]
  cases side with
  | owner => rfl
  | remote =>
    show pool.remoteBuffer + offset - pool.remoteBuffer + pool.dataBuffer = _
    rw [Nat.add_sub_cancel_left, add_comm]

theorem pointed_addr (side : ShmSide) : pool.pointed side (pool.addr side b) = some b := by
  rw [pointed, if_neg (addr_ne_zero hb side), cell_addr hb]

theorem offsetOf_lt : pool.offsetOf b < 2 ^ 63 := by
  obtain ⟨offset, rfl, hat⟩ := at_of_mem hb
  have hle := hat.offset_le
  have htotal := pool.total_lt
  rw [offsetOf_add]
  omega

theorem toOffset_addr (side : ShmSide) :
    pool.umqQbufToOffset side (pool.addr side b) = pool.offsetOf b := by
  have hne := addr_ne_zero hb side
  obtain ⟨offset, rfl, hat⟩ := at_of_mem hb
  have hle := hat.offset_le
  have htotal := pool.total_lt
  rw [umqQbufToOffset, if_neg hne, addr_add, offsetOf_add]
  omega

omit hb in
theorem toQbuf_invalid (pool : ShmPool) (side : ShmSide) :
    pool.umqOffsetToQbuf side (pool.offsetOf 0) = 0 := by
  have htotal := pool.total_lt
  have hbig : pool.totalSize - sizeofUmqBuf < pool.offsetOf 0 := by
    show pool.totalSize - sizeofUmqBuf < 2 ^ 64 - 1
    omega
  rw [umqOffsetToQbuf, if_pos hbig]

theorem toQbuf_offsetOf (side : ShmSide) :
    pool.umqOffsetToQbuf side (pool.offsetOf b) = pool.addr side b := by
  obtain ⟨offset, rfl, hat⟩ := at_of_mem hb
  rw [offsetOf_add, hat.toQbuf, addr_add]

end

/-! ## Chains through the rings -/

variable {next : ℕ → ℕ} {w x : ℕ} {l : List ℕ}

/-- **A chain into offsets.** -/
theorem pointerToOffset_chain (side : ShmSide) (h : Coded (pool.addr side) next w (x :: l))
    (hnodup : (x :: l).Nodup) (hl : ∀ b ∈ x :: l, b ∈ pool.blocks) :
    let r := pool.umqShmQbufPointerToOffset side next w
    Coded pool.offsetOf r.1 (pool.offsetOf x) (x :: l) ∧ r.2 = pool.offsetOf x ∧
      ∀ y, y ∉ x :: l → r.1 y = next y := by
  have hx := hl x mem_cons_self
  have hcell : pool.cell side w = x := by rw [h.1, cell_addr hx]
  obtain ⟨hcoded, hsame⟩ := h.recode hnodup (length_le_fuel hnodup hl) (by rw [addr_zero]; rfl)
    (if_pos (addr_zero pool side))
    (fun y hy => toOffset_addr (hl y (mem_cons_of_mem x hy)) side)
    fun y hy => pointed_addr (hl y (mem_cons_of_mem x hy)) side
  rw [umqShmQbufPointerToOffset, hcell]
  refine ⟨hcoded, ?_, hsame⟩
  rw [h.1, toOffset_addr hx]

/-- **A chain out of offsets.** -/
theorem offsetToPointer_chain (side : ShmSide) (h : Coded pool.offsetOf next w (x :: l))
    (hnodup : (x :: l).Nodup) (hl : ∀ b ∈ x :: l, b ∈ pool.blocks) :
    let r := pool.umqShmOffsetToQbufPointer side next w
    Coded (pool.addr side) r.1 (pool.addr side x) (x :: l) ∧ r.2 = pool.addr side x ∧
      ∀ y, y ∉ x :: l → r.1 y = next y := by
  have hx := hl x mem_cons_self
  have hresult : pool.umqOffsetToQbuf side w = pool.addr side x := by rw [h.1, toQbuf_offsetOf hx]
  have hgo : ∀ y ∈ l, pool.designated side (pool.offsetOf y) = some y := fun y hy => by
    have hy := hl y (mem_cons_of_mem x hy)
    rw [designated, toQbuf_offsetOf hy, pointed_addr hy]
  have hstop : pool.designated side (pool.offsetOf 0) = none := by
    rw [designated, toQbuf_invalid, pointed, if_pos rfl]
  obtain ⟨hcoded, hsame⟩ := h.recode hnodup (length_le_fuel hnodup hl)
    ((toQbuf_invalid pool side).trans (addr_zero pool side).symm) hstop
    (fun y hy => toQbuf_offsetOf (hl y (mem_cons_of_mem x hy)) side) hgo
  have hcell : pool.cell side (pool.addr side x) = x := cell_addr hx side
  rw [umqShmOffsetToQbufPointer, hresult, if_neg (addr_ne_zero hx side), hcell]
  exact ⟨hcoded, rfl, hsame⟩

end ShmPool

end Umq
