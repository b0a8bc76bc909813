import UbsComm.Umq.ShmLayout

/-!
# The data of chains in shared memory

A buffer that goes through a ring takes its data along: `buf_data` is an offset
while the chain is in the ring, as `qbuf_next` is. An allocation puts `buf_data`
behind the headroom, at most 512 bytes, of the data of the buffer
(`umqShmQbufAllocData`); that is what is known of the buffers of a chain
(`Filled`, `ShmChain`).

In the `split` mode every such chain comes out of the ring as it went in, at the
addresses of the process that takes it out. In the `combine` mode
`umq_offset_to_qbuf_data` accepts the start of the data of a block only, and not
that of the last block of the pool if there is no room for a block behind it:
with headroom, or in the last block, the data is lost (`roundTrips_iff`).
-/

namespace Umq

open Links Function List Nat Bool

/-- What an allocation writes in a buffer and the rings read. -/
structure BufContents where
  bufData : ℕ
  dataSize : ℕ

/-- `UMQ_HEADROOM_SIZE_LIMIT` -/
def umqHeadroomSizeLimit : ℕ := 512

namespace ShmPool

variable (pool : ShmPool)

/-! ## Allocations -/

/-- Where the data of a buffer starts. -/
def dataStart (b : ℕ) : ℕ :=
  if pool.split then
    pool.dataBuffer + (b - pool.headerBuffer .owner) / sizeofUmqBuf * pool.blockSize
  else b + sizeofUmqBuf

/-- How much data a buffer has room for. -/
def dataRoom : ℕ := if pool.split then pool.blockSize else pool.blockSize - sizeofUmqBuf

/-- `data_size` of a buffer when `remainingSize` bytes of the request remain. -/
def fragmentSize (headroomSizeTemp remainingSize : ℕ) : ℕ :=
  let maxDataCapacity := pool.dataRoom - headroomSizeTemp
  if maxDataCapacity ≤ remainingSize then maxDataCapacity else remainingSize

/-- What the loop writes in a buffer. -/
def fragment (headroomSizeTemp remainingSize b : ℕ) : BufContents :=
  ⟨pool.dataStart b + headroomSizeTemp, pool.fragmentSize headroomSizeTemp remainingSize⟩

/-- The loop of `umq_shm_qbuf_alloc_data_with_split` and of
`umq_qbuf_alloc_data_with_combine`, over the buffers taken from the list. -/
def umqShmQbufAllocData (requestSize headroomSize : ℕ) :
    List ℕ → ℕ → ℕ → (ℕ → BufContents) → ℕ → BufContents
  | [], _, _, contents => contents
  | b :: bufs, headroomSizeTemp, remainingSize, contents =>
    if remainingSize - pool.fragmentSize headroomSizeTemp remainingSize = 0 then
      umqShmQbufAllocData requestSize headroomSize bufs headroomSize requestSize
        (update contents b (pool.fragment headroomSizeTemp remainingSize b))
    else
      umqShmQbufAllocData requestSize headroomSize bufs 0
        (remainingSize - pool.fragmentSize headroomSizeTemp remainingSize)
        (update contents b (pool.fragment headroomSizeTemp remainingSize b))

/-! ## Offsets of data -/

section

variable (side : ShmSide)

/-- The same computation as for a buffer. -/
def umqQbufDataToOffset (bufData : ℕ) : ℕ := pool.umqQbufToOffset side bufData

/-- `umq_offset_to_qbuf_data` -/
def umqOffsetToQbufData (offset dataSize : ℕ) : ℕ :=
  if pool.totalSize - pool.blockSize < offset ∨ pool.blockSize < dataSize then 0
  else if pool.split = true ∧ pool.headerBuffer side < pool.base side + offset + dataSize then 0
  else if pool.split = false ∧
      (offset < sizeofUmqBuf ∨ (offset - sizeofUmqBuf) % pool.blockSize ≠ 0) then 0
  else pool.base side + offset

/-- The data of a buffer into an offset. -/
def dataToOffset (_ : ℕ) (c : BufContents) : BufContents :=
  { c with bufData := pool.umqQbufDataToOffset side c.bufData }

/-- The data of a buffer out of an offset. -/
def offsetToData (_ : ℕ) (c : BufContents) : BufContents :=
  { c with bufData := pool.umqOffsetToQbufData side c.bufData c.dataSize }

end

section

variable (side : ShmSide) (next : ℕ → ℕ) (contents : ℕ → BufContents)

/-- `umq_shm_qbuf_pointer_to_offset` with the data: the links and the contents
after it, and the offset. -/
def pointerToOffset (qbuf : ℕ) : ((ℕ → ℕ) × (ℕ → BufContents)) × ℕ :=
  (recodeWith (pool.umqQbufToOffset side) (pool.dataToOffset side) (pool.pointed side) pool.fuel
    next contents (pool.cell side qbuf), pool.umqQbufToOffset side qbuf)

/-- `umq_shm_offset_to_qbuf_pointer` with the data: the links and the contents
after it, and the address. -/
def offsetToPointer (offset : ℕ) : ((ℕ → ℕ) × (ℕ → BufContents)) × ℕ :=
  let result := pool.umqOffsetToQbuf side offset
  if result = 0 then ((next, contents), 0)
  else
    (recodeWith (pool.umqOffsetToQbuf side) (pool.offsetToData side) (pool.designated side)
      pool.fuel next contents (pool.cell side result), result)

theorem pointerToOffset_links (qbuf : ℕ) : ((pool.pointerToOffset side next contents qbuf).1.1,
        (pool.pointerToOffset side next contents qbuf).2) =
      pool.umqShmQbufPointerToOffset side next qbuf := by
  rw [umqShmQbufPointerToOffset, pointerToOffset, recodeWith_fst]

theorem offsetToPointer_links (offset : ℕ) : ((pool.offsetToPointer side next contents offset).1.1,
        (pool.offsetToPointer side next contents offset).2) =
      pool.umqShmOffsetToQbufPointer side next offset := by
  rw [umqShmOffsetToQbufPointer, offsetToPointer]
  by_cases hresult : pool.umqOffsetToQbuf side offset = 0
  · rw [if_pos hresult, if_pos hresult]
  · rw [if_neg hresult, if_neg hresult, recodeWith_fst]

end

/-! ## Chains with data -/

/-- The contents of a buffer that was allocated: the data is in its room, behind
the headroom; a header without data has none. -/
structure Filled (b : ℕ) (c : BufContents) : Prop where
  start : pool.kind b = true → pool.dataStart b ≤ c.bufData
  headroom : pool.kind b = true → c.bufData ≤ pool.dataStart b + umqHeadroomSizeLimit
  room : pool.kind b = true → c.bufData + c.dataSize ≤ pool.dataStart b + pool.dataRoom
  header : pool.kind b = false → c.bufData = 0

variable {pool} {b offset : ℕ} {c : BufContents} {side : ShmSide}

theorem headroom_lt_dataRoom (pool : ShmPool) : umqHeadroomSizeLimit < pool.dataRoom := by
  have hpow : 2 ^ 13 ≤ 2 ^ pool.sizePowSmall := Nat.pow_le_pow_right (by decide) pool.pow_bounds.1
  have hsize : sizeofUmqBuf = 128 := rfl
  have hlimit : umqHeadroomSizeLimit = 512 := rfl
  rw [dataRoom]
  cases pool.split with
  | true =>
    show umqHeadroomSizeLimit < 2 ^ pool.sizePowSmall
    omega
  | false =>
    show umqHeadroomSizeLimit < 2 ^ pool.sizePowSmall - sizeofUmqBuf
    omega

theorem filled_fragment {headroomSizeTemp remainingSize : ℕ} (hb : b ∈ pool.withData)
    (hroom : headroomSizeTemp ≤ umqHeadroomSizeLimit) :
    pool.Filled b (pool.fragment headroomSizeTemp remainingSize b) := by
  have hlt := headroom_lt_dataRoom pool
  have hsize : pool.fragmentSize headroomSizeTemp remainingSize ≤
      pool.dataRoom - headroomSizeTemp := by
    rw [fragmentSize]
    split <;> omega
  refine ⟨fun _ => le_add_right _ _, fun _ => Nat.add_le_add_left hroom _, fun _ => ?_,
    fun hkind => absurd (decide_eq_true hb) (ne_true_of_eq_false hkind)⟩
  show pool.dataStart b + headroomSizeTemp + pool.fragmentSize headroomSizeTemp remainingSize ≤ _
  omega

/-- **An allocation fills the buffers it takes**, and no others. -/
theorem umqShmQbufAllocData_filled {requestSize headroomSize headroomSizeTemp remainingSize : ℕ}
    {bufs : List ℕ} {contents : ℕ → BufContents} (hroom : headroomSize ≤ umqHeadroomSizeLimit)
    (hbufs : ∀ b ∈ bufs, b ∈ pool.withData) (htemp : headroomSizeTemp ≤ headroomSize)
    (hb : b ∈ bufs ∨ pool.Filled b (contents b)) :
    pool.Filled b (pool.umqShmQbufAllocData requestSize headroomSize bufs headroomSizeTemp
      remainingSize contents b) := by
  induction bufs generalizing headroomSizeTemp remainingSize contents with
  | nil => exact hb.resolve_left not_mem_nil
  | cons x bufs ih =>
    obtain ⟨hx, hbufs⟩ := forall_mem_cons.mp hbufs
    have hb' : b ∈ bufs ∨ pool.Filled b
        (update contents x (pool.fragment headroomSizeTemp remainingSize x) b) := by
      by_cases hbx : b = x
      · refine .inr ?_
        rw [hbx, update_self]
        exact filled_fragment hx (Nat.le_trans htemp hroom)
      · rw [update_of_ne hbx]
        exact hb.imp_left fun hmem => (mem_cons.mp hmem).resolve_left hbx
    rw [umqShmQbufAllocData]
    split
    · exact ih hbufs (Nat.le_refl _) hb'
    · exact ih hbufs (zero_le _) hb'

/-! ## Where the data is -/

section

variable (h : pool.Filled b c) (hb : b ∈ pool.blocks) (hkind : pool.kind b = true)
include h hb hkind

/-- The data of a buffer is at an offset, too. -/
theorem Filled.exists_offset : ∃ offset, c.bufData = pool.dataBuffer + offset := by
  refine Nat.exists_eq_add_of_le (Nat.le_trans ?_ (h.start hkind))
  rw [dataStart]
  by_cases hsplit : pool.split = true
  · rw [if_pos hsplit]
    exact le_add_right _ _
  · obtain ⟨offset, rfl, -⟩ := at_of_mem hb
    rw [if_neg hsplit, add_assoc]
    exact le_add_right _ _

/-- In the `split` mode the data is in front of the headers, with the headers of
at least one block behind it. -/
theorem Filled.split_offset (hsplit : pool.split = true)
    (hoffset : c.bufData = pool.dataBuffer + offset) :
    offset + pool.blockSize ≤ pool.totalSize ∧ c.dataSize ≤ pool.blockSize ∧
      offset + c.dataSize ≤ pool.totalBlockNum * pool.blockSize := by
  obtain ⟨at', rfl, hat⟩ := at_of_mem hb
  rw [hkind] at hat
  cases hat with
  | block i hc hi => exact absurd (hc.symm.trans hsplit) false_ne_true
  | header i _ hi =>
    have hid : (pool.dataBuffer + (pool.totalBlockNum * pool.blockSize + i * 128) -
        pool.headerBuffer .owner) / sizeofUmqBuf = i := by
      rw [headerBuffer_split hsplit]
      show (pool.dataBuffer + (pool.totalBlockNum * pool.blockSize + i * 128) -
        (pool.dataBuffer + pool.totalBlockNum * pool.blockSize)) / 128 = i
      omega
    have hstart := h.start hkind
    have hheadroom := h.headroom hkind
    have hroom := h.room hkind
    have hlimit : umqHeadroomSizeLimit = 512 := rfl
    have htotal := split_total hsplit
    have hmul := block_le hi
    rw [dataStart, if_pos hsplit, hid] at hstart hheadroom hroom
    rw [dataRoom, if_pos hsplit] at hroom
    omega

/-- In the `combine` mode it is behind the header, in the block. -/
theorem Filled.combine_offset (hsplit : pool.split = false)
    (hoffset : c.bufData = pool.dataBuffer + offset) :
    ∃ i headroom, b = pool.dataBuffer + i * pool.blockSize ∧
      pool.dataStart b = b + sizeofUmqBuf ∧ c.bufData = pool.dataStart b + headroom ∧
      offset = i * pool.blockSize + sizeofUmqBuf + headroom ∧ headroom < pool.blockSize ∧
      c.dataSize ≤ pool.blockSize := by
  obtain ⟨at', rfl, hat⟩ := at_of_mem hb
  rw [hkind] at hat
  cases hat with
  | header i hc hi => exact absurd (hsplit.symm.trans hc) false_ne_true
  | block i _ hi =>
    have hnot : ¬ pool.split = true := fun ht => false_ne_true (hsplit.symm.trans ht)
    have hdata : pool.dataStart (pool.dataBuffer + i * pool.blockSize) =
        pool.dataBuffer + i * pool.blockSize + sizeofUmqBuf := if_neg hnot
    have hwidth : pool.dataRoom = pool.blockSize - sizeofUmqBuf := if_neg hnot
    obtain ⟨headroom, heq⟩ := Nat.exists_eq_add_of_le (h.start hkind)
    have hroom := h.room hkind
    have hblock := blockSize_bounds pool
    have hheader : sizeofUmqBuf = 128 := rfl
    refine ⟨i, headroom, rfl, hdata, heq, ?_, ?_, ?_⟩
    · omega
    · omega
    · omega

end

/-! ## The offset of the data in a process -/

theorem split_toQbufData (hsplit : pool.split = true) {size : ℕ}
    (hfits : offset + pool.blockSize ≤ pool.totalSize) (hsize : size ≤ pool.blockSize)
    (hroom : offset + size ≤ pool.totalBlockNum * pool.blockSize) :
    pool.umqOffsetToQbufData side offset size = pool.base side + offset := by
  rw [umqOffsetToQbufData, if_neg, if_neg, if_neg]
  · exact fun hc => false_ne_true (hc.1.symm.trans hsplit)
  · rintro ⟨-, hlt⟩
    rw [headerBuffer_split hsplit] at hlt
    omega
  · omega

/-- **In the `combine` mode the start of the data of a block is accepted**, if
there is room for a block from there on, and nothing else. -/
theorem combine_toQbufData_iff (hsplit : pool.split = false) {i headroom size : ℕ}
    (hheadroom : headroom < pool.blockSize) (hsize : size ≤ pool.blockSize)
    (hone : pool.blockSize ≤ pool.totalSize) :
    pool.umqOffsetToQbufData side (i * pool.blockSize + sizeofUmqBuf + headroom) size =
        pool.base side + (i * pool.blockSize + sizeofUmqBuf + headroom) ↔
      headroom = 0 ∧ i * pool.blockSize + sizeofUmqBuf + pool.blockSize ≤ pool.totalSize := by
  have hmod : (i * pool.blockSize + sizeofUmqBuf + headroom - sizeofUmqBuf) % pool.blockSize =
      headroom := by
    have hsub : i * pool.blockSize + sizeofUmqBuf + headroom - sizeofUmqBuf =
        headroom + i * pool.blockSize := by omega
    rw [hsub, add_mul_mod_self_right, mod_eq_of_lt hheadroom]
  have hnot : ¬ (pool.split = true ∧ pool.headerBuffer side <
      pool.base side + (i * pool.blockSize + sizeofUmqBuf + headroom) + size) :=
    fun hc => false_ne_true (hsplit.symm.trans hc.1)
  rw [umqOffsetToQbufData, if_neg hnot, hmod]
  constructor
  · intro heq
    split at heq
    · omega
    · split at heq
      · omega
      · next hfits hstart =>
        have hzero : headroom = 0 := by
          by_contra hne
          exact hstart ⟨hsplit, .inr hne⟩
        exact ⟨hzero, by omega⟩
  · rintro ⟨rfl, hfits⟩
    rw [if_neg (by omega), if_neg]
    rintro ⟨-, hlt | hne⟩
    · omega
    · exact hne rfl

theorem toQbufData_invalid (pool : ShmPool) (side : ShmSide) (size : ℕ) :
    pool.umqOffsetToQbufData side qbufInvalidOffset size = 0 := by
  have htotal := pool.total_lt
  have hbig : pool.totalSize - pool.blockSize < qbufInvalidOffset := by
    show pool.totalSize - pool.blockSize < 2 ^ 64 - 1
    omega
  rw [umqOffsetToQbufData, if_pos (.inl hbig)]

/-- Whether the data of a buffer is accepted. -/
def DataKept (pool : ShmPool) (b : ℕ) (c : BufContents) : Prop :=
  pool.split = false → c.bufData = pool.dataStart b ∧
      b - pool.dataBuffer + sizeofUmqBuf + pool.blockSize ≤ pool.totalSize

theorem combine_one_block (hsplit : pool.split = false) : pool.blockSize ≤ pool.totalSize := by
  have hone := pool.one_block
  rw [hsplit, if_neg Bool.false_ne_true, zero_add] at hone
  exact hone

/-- **The data of one buffer**, from the owner to an offset and to a process. -/
theorem Filled.data_iff (h : pool.Filled b c) (hb : b ∈ pool.blocks) (side : ShmSide) :
    (pool.offsetToData side b (pool.dataToOffset .owner b c)).bufData = pool.addr side c.bufData ↔
      pool.DataKept b c := by
  show pool.umqOffsetToQbufData side (pool.umqQbufToOffset .owner c.bufData) c.dataSize = _ ↔ _
  cases hkind : pool.kind b with
  | false =>
    have hsplit : pool.split ≠ false := fun hsplit => by
      obtain ⟨at', -, hat⟩ := at_of_mem hb
      exact false_ne_true (hkind.symm.trans (hat.eq_true_of_combine hsplit))
    refine iff_of_true ?_ fun hc => absurd hc hsplit
    rw [h.header hkind, addr_zero]
    exact toQbufData_invalid pool side c.dataSize
  | true =>
    obtain ⟨offset, hoffset⟩ := h.exists_offset hb hkind
    have hpos := pool.data_pos
    have htotal := pool.total_lt
    have henc : offset < 2 ^ 64 → pool.umqQbufToOffset .owner c.bufData = offset := fun hlt => by
      rw [umqQbufToOffset, if_neg (by omega), hoffset]
      show (pool.dataBuffer + offset + 2 ^ 64 - pool.dataBuffer) % 2 ^ 64 = offset
      omega
    rw [hoffset, addr_add, ← hoffset]
    cases hsplit : pool.split with
    | true =>
      obtain ⟨hfits, hsize, hroom⟩ := h.split_offset hb hkind hsplit hoffset
      rw [henc (by omega)]
      exact iff_of_true (split_toQbufData hsplit hfits hsize hroom)
        fun hc => Bool.noConfusion (hsplit.symm.trans hc)
    | false =>
      obtain ⟨i, headroom, hblock, hstart, heq, hsum, hheadroom, hsize⟩ :=
        h.combine_offset hb hkind hsplit hoffset
      have hone := combine_one_block hsplit
      have hle : offset < 2 ^ 64 := by
        obtain ⟨at', hat', hat⟩ := at_of_mem hb
        have hlast := hat.offset_le
        omega
      rw [henc hle, hsum, combine_toQbufData_iff hsplit hheadroom hsize hone]
      have hat : b - pool.dataBuffer = i * pool.blockSize := by omega
      rw [DataKept, hat, heq]
      constructor
      · rintro ⟨rfl, hfits⟩ -
        exact ⟨rfl, hfits⟩
      · intro hkept
        obtain ⟨hdata, hfits⟩ := hkept hsplit
        exact ⟨by omega, hfits⟩

end ShmPool

/-! ## Round trips -/

/-- A chain of buffers that the owner has allocated. -/
structure ShmChain (pool : ShmPool) where
  first : ℕ
  rest : List ℕ
  next : ℕ → ℕ
  contents : ℕ → BufContents
  nodup : (first :: rest).Nodup
  blocks : ∀ b ∈ first :: rest, b ∈ pool.blocks
  linked : Coded (pool.addr .owner) next first (first :: rest)
  filled : ∀ b ∈ first :: rest, pool.Filled b (contents b)

namespace ShmChain

open ShmPool

variable {pool : ShmPool}

section

variable (chain : ShmChain pool)

/-- The buffers of a chain. -/
def bufs : List ℕ := chain.first :: chain.rest

/-- The links, the contents and the offset after the owner put the chain into a
ring. -/
def sent : ((ℕ → ℕ) × (ℕ → BufContents)) × ℕ :=
  pool.pointerToOffset .owner chain.next chain.contents chain.first

/-- What a process gets out of the ring. -/
def received (side : ShmSide) : ((ℕ → ℕ) × (ℕ → BufContents)) × ℕ :=
  pool.offsetToPointer side chain.sent.1.1 chain.sent.1.2 chain.sent.2

/-- **The chain comes out as it went in**, at the addresses of the process. -/
def RoundTrips (side : ShmSide) : Prop := (chain.received side).2 = pool.addr side chain.first ∧
    ∀ b ∈ chain.bufs, (chain.received side).1.1 b = pool.addr side (chain.next b) ∧
      ((chain.received side).1.2 b).bufData = pool.addr side (chain.contents b).bufData

end

variable (chain : ShmChain pool) (side : ShmSide)

theorem sent_spec : Coded pool.offsetOf chain.sent.1.1 chain.sent.2 chain.bufs ∧
      ∀ b ∈ chain.bufs, chain.sent.1.2 b = pool.dataToOffset .owner b (chain.contents b) := by
  obtain ⟨hcoded, hoffset, -⟩ := pointerToOffset_chain .owner chain.linked chain.nodup chain.blocks
  rw [← pool.pointerToOffset_links .owner chain.next chain.contents chain.first] at hcoded hoffset
  refine ⟨hoffset ▸ hcoded, fun b hb => ?_⟩
  have hstop : pool.pointed .owner (pool.addr .owner 0) = none := if_pos (addr_zero pool .owner)
  refine (chain.linked.recodeWith_snd chain.nodup (length_le_fuel chain.nodup chain.blocks) hstop
    (fun y hy => ?_) b).trans (if_pos hb)
  exact pointed_addr (chain.blocks y (mem_cons_of_mem _ hy)) .owner

theorem received_spec :
    Coded (pool.addr side) (chain.received side).1.1 (pool.addr side chain.first) chain.bufs ∧
      (chain.received side).2 = pool.addr side chain.first ∧
      ∀ b ∈ chain.bufs, (chain.received side).1.2 b =
        pool.offsetToData side b (pool.dataToOffset .owner b (chain.contents b)) := by
  obtain ⟨hsent, hcontents⟩ := chain.sent_spec
  obtain ⟨hcoded, haddr, -⟩ := offsetToPointer_chain side hsent chain.nodup chain.blocks
  rw [← pool.offsetToPointer_links side chain.sent.1.1 chain.sent.1.2 chain.sent.2] at hcoded haddr
  refine ⟨hcoded, haddr, fun b hb => ?_⟩
  have hfirst := chain.blocks chain.first mem_cons_self
  have hresult : pool.umqOffsetToQbuf side chain.sent.2 = pool.addr side chain.first := by
    rw [hsent.1, toQbuf_offsetOf hfirst]
  have hstop : pool.designated side (pool.offsetOf 0) = none := by
    rw [designated, toQbuf_invalid, pointed, if_pos rfl]
  rw [received, offsetToPointer, hresult, if_neg (addr_ne_zero hfirst side),
    cell_addr hfirst side, ← hcontents b hb]
  refine (hsent.recodeWith_snd chain.nodup (length_le_fuel chain.nodup chain.blocks) hstop
    (fun y hy => ?_) b).trans (if_pos hb)
  have hy := chain.blocks y (mem_cons_of_mem _ hy)
  rw [designated, toQbuf_offsetOf hy, pointed_addr hy]

/-- **Which chains come out of a ring as they went in**, in either process: in
the `split` mode all of them, in the `combine` mode those whose data starts
behind the header, in blocks with room for another header behind them. -/
theorem roundTrips_iff :
    chain.RoundTrips side ↔ ∀ b ∈ chain.bufs, pool.DataKept b (chain.contents b) := by
  obtain ⟨hcoded, haddr, hcontents⟩ := chain.received_spec side
  have hlinks : ∀ b ∈ chain.bufs,
      (chain.received side).1.1 b = pool.addr side (chain.next b) := fun b hb => by
    obtain ⟨y, hnext, hreceived⟩ := chain.linked.link_eq hcoded b hb
    rw [hreceived, hnext]
    rfl
  have hdata : ∀ b ∈ chain.bufs, ((chain.received side).1.2 b).bufData =
      pool.addr side (chain.contents b).bufData ↔ pool.DataKept b (chain.contents b) := by
    intro b hb
    rw [hcontents b hb]
    exact (chain.filled b hb).data_iff (chain.blocks b hb) side
  constructor
  · rintro ⟨-, htrips⟩ b hb
    exact (hdata b hb).mp (htrips b hb).2
  · intro hkept
    exact ⟨haddr, fun b hb => ⟨hlinks b hb, (hdata b hb).mpr (hkept b hb)⟩⟩

end ShmChain

/-- A pool in the `combine` mode, of two blocks. -/
def tightPool : ShmPool where
  split := false
  sizePowSmall := 13
  totalSize := 2 * 8192
  dataBuffer := 8192
  remoteBuffer := 65536
  headroomSize := 0
  rxDepth := 2
  disableScaleCap := true
  foreignId := fun _ => 1
  pow_bounds := by decide
  one_block := by decide
  total_lt := by decide
  data_pos := by decide
  remote_pos := by decide

/-- A chain of one buffer of that pool, for 100 bytes. -/
def tightChain (b headroomSize : ℕ) (hb : b ∈ tightPool.withData)
    (hroom : headroomSize ≤ umqHeadroomSizeLimit) : ShmChain tightPool where
  first := b
  rest := []
  next := fun _ => 0
  contents := tightPool.umqShmQbufAllocData 100 headroomSize [b] headroomSize 100 (fun _ => ⟨0, 0⟩)
  nodup := pairwise_singleton _ _
  blocks := fun _ hx => mem_append_left _ (mem_singleton.mp hx ▸ hb)
  linked := ⟨rfl, ShmPool.ne_zero_of_mem (mem_append_left _ hb), rfl⟩
  filled := fun _ hx => ShmPool.umqShmQbufAllocData_filled hroom
    (fun _ hy => mem_singleton.mp hy ▸ hb) (Nat.le_refl _) (Or.inl hx)

/-- **Data that is lost in the ring**: that of the first block with a headroom of
64 bytes, and that of the last block without headroom. The owner that takes the
chain back gets a null pointer. -/
theorem exists_data_lost : (∃ hb hroom, ((tightChain 8192 64 hb hroom).received .owner).2 = 8192 ∧
      ((tightChain 8192 64 hb hroom).contents 8192).bufData = 8384 ∧
      (((tightChain 8192 64 hb hroom).received .owner).1.2 8192).bufData = 0 ∧
      ¬ (tightChain 8192 64 hb hroom).RoundTrips .owner) ∧
    ∃ hb hroom, ((tightChain 16384 0 hb hroom).received .owner).2 = 16384 ∧
      ((tightChain 16384 0 hb hroom).contents 16384).bufData = 16512 ∧
      (((tightChain 16384 0 hb hroom).received .owner).1.2 16384).bufData = 0 ∧
      ¬ (tightChain 16384 0 hb hroom).RoundTrips .owner := by
  refine ⟨⟨by decide, by decide, by decide +kernel, by decide +kernel, by decide +kernel,
    fun htrips => ?_⟩, by decide, by decide, by decide +kernel, by decide +kernel,
    by decide +kernel, fun htrips => ?_⟩
  · exact absurd (htrips.2 8192 mem_cons_self).2 (by decide +kernel)
  · exact absurd (htrips.2 16384 mem_cons_self).2 (by decide +kernel)

end Umq
