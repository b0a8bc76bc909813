import UbsComm.Lib.Packing
import UbsComm.Umq.BigSend

/-!
# Pulling a message

The receiver of a description allocates a destination and posts one read for
each fragment. How long the destination is comes from the size class in the
header and the number of fragments in the immediate value; how it is cut into
buffers comes from the pool it is taken from. A fragment is read as a whole:
one that does not fit into what is left of a buffer goes to the next one.

The pools have enough blocks here, the segments are imported and the reads are
posted; what can still go wrong is that the fragments do not fit.

**What arrives** (`pulledWhole_iff`): the message is refused by the sender or
arrives whole exactly if it has fewer than 32 fragments, its destination is
within `UMQ_MAX_BUF_REQUEST_SIZE`, and the fragments pack the buffers of the
destination, all of them. Neither is certain. The headroom is taken off the
destination once, so that two full blocks do not fit into the destination for
two blocks (`not_pulledWhole_headroom`); small fragments leave the last buffers
unused, which then stay in the chain with the sizes they were allocated with;
and 32 fragments are announced as none.
-/

namespace Umq

open Packing List Range

/-! ## The pools -/

/-- `umq_buf_mode_t`. -/
inductive BufMode where
  | split
  | combine
deriving DecidableEq

/-- How a process has configured its pools; `umq_init` checks the headroom. -/
structure PoolCfg where
  blk : BlockSize
  mode : BufMode
  headroom : ℕ
  headroom_le : headroom ≤ 512

/-- `sizeof(umq_buf_t)`. -/
def sizeofUmqBuf : ℕ := 128

/-- `UMQ_MAX_BUF_REQUEST_SIZE`. -/
def umqMaxBufRequestSize : ℕ := 10485760

/-- `UINT32_MAX` -/
def uint32Max : ℕ := 2 ^ 32 - 1

/-- What a block has to hold besides its data. -/
def PoolCfg.factor (cfg : PoolCfg) : ℕ :=
  match cfg.mode with
  | .split => 0
  | .combine => sizeofUmqBuf

/-- The size of the blocks of a pool: the general one, or one of the huge
ones. -/
def PoolCfg.blockSize (cfg : PoolCfg) : Option HugeType → ℕ
  | none => umqBufSizeSmall cfg.blk
  | some type => umqHugeQbufGetSizeByType cfg.blk type

/-- The room for headroom and data in a block. -/
def PoolCfg.capacity (cfg : PoolCfg) (pool : Option HugeType) : ℕ := cfg.blockSize pool - cfg.factor

/-- The blocks that the pools hand out, by where the room for headroom and
data starts. -/
structure Pools (cfg : PoolCfg) where
  base : Option HugeType → ℕ → ℕ
  apart : ∀ pool i j, i < j →
    base pool i + cfg.capacity pool ≤ base pool j ∨ base pool j + cfg.capacity pool ≤ base pool i

/-- `umq_huge_qbuf_get_type_by_size`. -/
def umqHugeQbufGetTypeBySize (blk : BlockSize) (bufSize : ℕ) : HugeType :=
  if bufSize < umqHugeQbufGetSizeByType blk .big then .mid
  else if bufSize < umqHugeQbufGetSizeByType blk .huge then .big
  else if bufSize < umqHugeQbufGetSizeByType blk .gigantic then .huge
  else .gigantic

section

variable (cfg : PoolCfg)

/-- The pool that `umq_buf_alloc` turns to. -/
def poolOf (request : ℕ) : Option HugeType :=
  let bufSize := request + cfg.headroom + cfg.factor
  if bufSize < umqHugeQbufGetSizeByType cfg.blk .mid then none
  else some (umqHugeQbufGetTypeBySize cfg.blk bufSize)

/-- The loop of the `alloc_data` functions, which the pools and the modes have
in common: the headroom and the size of each buffer. -/
def allocData (capacity headroom request : ℕ) : ℕ → ℕ → ℕ → ℕ → List (ℕ × ℕ)
  | 0, _, _, _ => []
  | cnt + 1, headroomTemp, maxDataCapacity, remaining =>
    let dataSize := if maxDataCapacity ≤ remaining then maxDataCapacity else remaining
    (headroomTemp, dataSize) :: if remaining - dataSize = 0 then
        allocData capacity headroom request cnt headroom (capacity - headroom) request
      else allocData capacity headroom request cnt 0 capacity (remaining - dataSize)

/-- The buffers that a request is cut into. -/
def buffersOf (request : ℕ) : List (ℕ × ℕ) :=
  let capacity := cfg.capacity (poolOf cfg request)
  let actualBufCount := (request + cfg.headroom + capacity - 1) / capacity
  allocData capacity cfg.headroom request actualBufCount cfg.headroom (capacity - cfg.headroom)
    request

/-- The data areas of the buffers, in the blocks from the `i`-th on. -/
def place (base : ℕ → ℕ) : ℕ → List (ℕ × ℕ) → List Range
  | _, [] => []
  | i, (headroom, size) :: bufs => ⟨base i + headroom, size⟩ :: place base (i + 1) bufs

/-- `umq_buf_alloc(request, 1, …)`, when the pools have enough blocks: the
data areas of the chain. A request for nothing is a header without data in the
split mode and is refused in the other. -/
def umqBufAlloc (pools : Pools cfg) (request : ℕ) : Option (List Range) :=
  if umqMaxBufRequestSize < request then none
  else if request = 0 then
    match cfg.mode with
    | .split => some [⟨0, 0⟩]
    | .combine => none
  else some (place (pools.base (poolOf cfg request)) 0 (buffersOf cfg request))

/-! ## The reads -/

/-- `umq_read_alloc_mem_size`. -/
def umqReadAllocMemSize (blk : BlockSize) : ℕ → ℕ
  | 0 => umqBufSizeSmall blk
  | i + 1 =>
    match hugeTypes[i]? with
    | some type => umqHugeQbufGetSizeByType blk type
    | none => uint32Max

/-- `umq_ub_get_read_pre_allocate_max_total_size`. The product has 32 bits; a
block is longer than what is taken off for it. -/
def getReadPreAllocateMaxTotalSize (sizeInterval bufNum : ℕ) : ℕ :=
  let readAllocMemSize := umqReadAllocMemSize cfg.blk sizeInterval
  let tempSize := readAllocMemSize * bufNum % 2 ^ 32
  if readAllocMemSize = uint32Max then uint32Max
  else if uint32Max ≤ tempSize ∨ tempSize < cfg.headroom then uint32Max
  else tempSize - cfg.factor * bufNum - cfg.headroom

/-- The loop of `umq_ub_read`, at the buffer `cur` of the destination with
`next` behind it: the reads it posts, and the chain with the sizes it leaves
there. -/
def readLoop : List RefSge → Range → List Range → ℕ → Option (List Copy × List Range)
  | [], cur, next, bufOffset => some ([], ⟨cur.addr, bufOffset⟩ :: next)
  | sge :: sges, cur, next, bufOffset =>
    if umqMaxTsegNum ≤ sge.mempoolId then none
    else if cur.size < (bufOffset + sge.length) % 2 ^ 32 then
      match next with
      | [] => none
      | buf :: next =>
        if buf.size < sge.length then none
        else
          (readLoop sges buf next sge.length).map
            (fun r => (⟨sge.addr, buf.addr, sge.length⟩ :: r.1, ⟨cur.addr, bufOffset⟩ :: r.2))
    else
      (readLoop sges cur next ((bufOffset + sge.length) % 2 ^ 32)).map
        (fun r => (⟨sge.addr, cur.addr + bufOffset, sge.length⟩ :: r.1, r.2))

/-- The destination as it was allocated, the reads posted, and the destination
as the message is delivered in it. -/
structure ReadResult where
  dst : List Range
  reads : List Copy
  chain : List Range
  totalDataSize : ℕ
deriving DecidableEq

/-- `umq_ub_read` -/
def umqUbRead (pools : Pools cfg) (d : Descriptor) (imm : PullImm) : Option ReadResult :=
  let bufNum := imm.msgNum.toNat
  let refSge := d.refSges.take bufNum
  let totalSize := getReadPreAllocateMaxTotalSize cfg d.memInterval bufNum
  if totalSize = uint32Max then none
  else
    match umqBufAlloc cfg pools totalSize with
    | none => none
    | some [] => none
    | some (buf :: bufs) =>
      (readLoop refSge buf bufs 0).map
        (fun r => ⟨buf :: bufs, r.1, r.2, (refSge.map RefSge.length).sum % 2 ^ 32⟩)

end

/-! ## The message arrives -/

/-- The memory of a fragment. -/
def QBuf.piece (b : QBuf) : Piece := ⟨b.bufData, b.dataSize⟩

/-- The memory that is described. -/
def RefSge.piece (sge : RefSge) : Piece := ⟨sge.addr, sge.length⟩

/-- **The fragments arrive**: one read for each, in order, the places read to
are apart and inside the buffers of the destination, and what the destination
then holds, by the sizes in it, is the message. -/
structure Arrives (frags : List QBuf) (r : ReadResult) : Prop where
  reads : r.reads.map Copy.piece = frags.map QBuf.piece
  apart : r.reads.Pairwise Packing.Apart
  inside : ∀ c ∈ r.reads, ∃ a ∈ r.dst, a.addr ≤ c.dst ∧ c.dst + c.len ≤ a.addr + a.size
  total : r.totalDataSize = total (frags.map QBuf.piece)
  data : ∀ remote mem : ℕ → UInt8,
    r.chain.flatMap (fun a => bytes (copyAll remote mem r.reads) a.addr a.size)
      = frags.flatMap (fun f => bytes remote f.bufData f.dataSize)

/-- The message that `b` starts, if the sender accepts it, has a number of
fragments that the immediate value can express, and arrives whole. -/
def PulledWhole (blk : BlockSize) (imported : ℕ → Bool) (b : QBuf) (chain : List QBuf)
    (cfg : PoolCfg) (pools : Pools cfg) : Prop :=
  ∀ d rest, buildDescriptor blk imported b chain = some (d, rest) → (fragments b chain).length < 32
      ∧ ∀ msgId, ∃ r, umqUbRead cfg pools d ⟨msgId, BitVec.ofNat 5 d.refSges.length⟩ = some r
          ∧ Arrives (fragments b chain) r

/-- **The condition on a message**: fewer than 32 fragments; a destination
that may be requested; and the fragments, cut into one group for each buffer
of it, fit there, a group being ended by a fragment that does not fit behind
it. -/
def PullFits (cfg : PoolCfg) (memInterval : ℕ) (frags : List QBuf) : Prop :=
  let request := getReadPreAllocateMaxTotalSize cfg memInterval frags.length
  frags.length < 32 ∧ request ≤ umqMaxBufRequestSize
    ∧ ∃ groups : List (List Piece), groups.flatten = frags.map QBuf.piece
        ∧ Packs ((buffersOf cfg request).map Prod.snd) groups

/-! ## The buffers of the destination -/

variable {request capacity : ℕ} {bufs : List (ℕ × ℕ)} {base : ℕ → ℕ} {p : ℕ × ℕ} {cfg : PoolCfg}

theorem mem_allocData {headroom cnt hr cap rem : ℕ} (hlt : headroom < capacity)
    (hrequest : 0 < request) (hcap : hr + cap = capacity) (hpos : 0 < cap) (hrem : 0 < rem)
    (hp : p ∈ allocData capacity headroom request cnt hr cap rem) :
    0 < p.2 ∧ p.1 + p.2 ≤ capacity := by
  induction cnt generalizing hr cap rem with
  | zero => exact nomatch hp
  | succ cnt ih =>
    obtain rfl | hp := mem_cons.mp hp
    · dsimp only
      split <;> omega
    · by_cases hle : cap ≤ rem
      · rw [if_pos hle] at hp
        split at hp
        · exact ih (by omega) (by omega) hrequest hp
        · exact ih (zero_add _) (by omega) (by omega) hp
      · rw [if_neg hle, Nat.sub_self] at hp
        exact ih (by omega) (by omega) hrequest hp

theorem mem_place {i : ℕ}
    (hbufs : ∀ p ∈ bufs, p.1 + p.2 ≤ capacity) {r : Range} (hr : r ∈ place base i bufs) :
    ∃ j, i ≤ j ∧ base j ≤ r.addr ∧ r.addr + r.size ≤ base j + capacity := by
  induction bufs generalizing i with
  | nil => exact nomatch hr
  | cons p bufs ih =>
    obtain ⟨hp, hbufs⟩ := forall_mem_cons.mp hbufs
    obtain rfl | hr := mem_cons.mp hr
    · exact ⟨i, Nat.le_refl i, Nat.le_add_right _ _, by dsimp only; omega⟩
    · obtain ⟨j, hj, hin⟩ := ih hbufs hr
      exact ⟨j, Nat.le_of_succ_le hj, hin⟩

theorem pairwise_place (i : ℕ)
    (hbase : ∀ i j, i < j → base i + capacity ≤ base j ∨ base j + capacity ≤ base i)
    (hbufs : ∀ p ∈ bufs, p.1 + p.2 ≤ capacity) : (place base i bufs).Pairwise Range.Apart := by
  induction bufs generalizing i with
  | nil => exact List.Pairwise.nil
  | cons p bufs ih =>
    obtain ⟨hp, hbufs⟩ := forall_mem_cons.mp hbufs
    refine pairwise_cons.mpr ⟨fun r hr => ?_, ih _ hbufs⟩
    obtain ⟨j, hj, hlow, hhigh⟩ := mem_place hbufs hr
    obtain h | h := hbase i j hj
    · exact .inl (by dsimp only; omega)
    · exact .inr (by dsimp only; omega)

theorem map_size_place (base : ℕ → ℕ) (i : ℕ) (bufs : List (ℕ × ℕ)) :
    (place base i bufs).map size = bufs.map Prod.snd := by
  induction bufs generalizing i with
  | nil => rfl
  | cons p bufs ih => rw [place, map_cons, map_cons, ih]

theorem umqBufSizeSmall_bounds (blk : BlockSize) :
    8192 ≤ umqBufSizeSmall blk ∧ umqBufSizeSmall blk ≤ 2 ^ 24 := by
  cases blk <;> decide

theorem umqHugeQbufGetSizeByType_bounds (blk : BlockSize) (type : HugeType) :
    8192 ≤ umqHugeQbufGetSizeByType blk type ∧ umqHugeQbufGetSizeByType blk type ≤ 2 ^ 24 := by
  cases blk <;> cases type <;> decide

theorem PoolCfg.factor_le (cfg : PoolCfg) : cfg.factor ≤ 128 := by
  rw [factor]
  split <;> decide

theorem PoolCfg.capacity_bounds (cfg : PoolCfg) (pool : Option HugeType) :
    cfg.headroom < cfg.capacity pool ∧ cfg.capacity pool ≤ 2 ^ 24 := by
  have hfactor := cfg.factor_le
  have hheadroom := cfg.headroom_le
  have hblock : 8192 ≤ cfg.blockSize pool ∧ cfg.blockSize pool ≤ 2 ^ 24 := by
    cases pool with
    | none => exact umqBufSizeSmall_bounds cfg.blk
    | some type => exact umqHugeQbufGetSizeByType_bounds cfg.blk type
  rw [capacity]
  omega

/-- The buffers of a destination are not empty and inside their blocks. -/
theorem mem_buffersOf (hpos : 0 < request)
    (hp : p ∈ buffersOf cfg request) : 0 < p.2 ∧ p.1 + p.2 ≤ cfg.capacity (poolOf cfg request) := by
  have hcap := (cfg.capacity_bounds (poolOf cfg request)).1
  exact mem_allocData hcap hpos (by omega) (by omega) hpos hp

theorem buffersOf_ne_nil (cfg : PoolCfg) (hpos : 0 < request) : buffersOf cfg request ≠ [] := by
  have hcap := (cfg.capacity_bounds (poolOf cfg request)).1
  have hcnt : 0 < (request + cfg.headroom + cfg.capacity (poolOf cfg request) - 1)
      / cfg.capacity (poolOf cfg request) :=
    Nat.div_pos (by omega) (by omega)
  obtain ⟨n, hn⟩ := Nat.exists_eq_succ_of_ne_zero (Nat.ne_of_gt hcnt)
  rw [buffersOf, hn]
  exact cons_ne_nil _ _

theorem umqReadAllocMemSize_bounds (blk : BlockSize) {memInterval : ℕ}
    (h : umqReadAllocMemSize blk memInterval ≠ uint32Max) :
    8192 ≤ umqReadAllocMemSize blk memInterval ∧ umqReadAllocMemSize blk memInterval ≤ 2 ^ 24 := by
  cases memInterval with
  | zero => exact umqBufSizeSmall_bounds blk
  | succ i =>
    rw [umqReadAllocMemSize] at h ⊢
    split at h
    · exact umqHugeQbufGetSizeByType_bounds blk _
    · exact absurd rfl h

theorem getReadPreAllocateMaxTotalSize_pos (cfg : PoolCfg) (memInterval : ℕ) {bufNum : ℕ}
    (hpos : 0 < bufNum) (hlt : bufNum < 32) :
    0 < getReadPreAllocateMaxTotalSize cfg memInterval bufNum := by
  unfold getReadPreAllocateMaxTotalSize
  dsimp only
  split_ifs with hmax
  · decide
  · decide
  · obtain ⟨hlow, hhigh⟩ := umqReadAllocMemSize_bounds cfg.blk hmax
    have hmul : umqReadAllocMemSize cfg.blk memInterval * bufNum ≤ 2 ^ 24 * 31 :=
      Nat.mul_le_mul hhigh (Nat.le_of_lt_succ hlt)
    have hlow := Nat.mul_le_mul_right bufNum hlow
    have hfactor := Nat.mul_le_mul_right bufNum cfg.factor_le
    have hheadroom := cfg.headroom_le
    omega

/-! ## The loop packs the fragments -/

variable {sges : List RefSge} {groups : List (List Piece)} {next : List Range} {cur : Range}
  {bufOffset : ℕ} {sge : RefSge} {frags : List QBuf} {buf : Range}

theorem readLoop_stay (hid : sge.mempoolId < umqMaxTsegNum)
    (hfit : ¬ cur.size < (bufOffset + sge.length) % 2 ^ 32) :
    readLoop (sge :: sges) cur next bufOffset
      = (readLoop sges cur next ((bufOffset + sge.length) % 2 ^ 32)).map
          (fun r => (⟨sge.addr, cur.addr + bufOffset, sge.length⟩ :: r.1, r.2)) :=
  (if_neg (Nat.not_le.mpr hid)).trans (if_neg hfit)

/-- A list of pieces whose lengths, together with the sizes of buffers, do not
wrap around. -/
def Moderate (sges : List RefSge) : Prop :=
  ∀ sge ∈ sges, sge.length ≤ 2 ^ 24 ∧ sge.mempoolId < umqMaxTsegNum

section

variable (hsges : Moderate sges) (hcur : cur.size ≤ 2 ^ 24) (hnext : ∀ r ∈ next, r.size ≤ 2 ^ 24)
  (pre : List Piece)
include hsges hcur hnext

/-- **A packing is what the loop finds.** The loop is at the buffer `cur`,
where it has put the pieces `pre`; the packing puts `g` behind them and the
groups `gs` into the buffers `next`. -/
theorem readLoop_of_packs {rest : List Range} {g : List Piece}
    {gs : List (List Piece)} (hpacks : Packs (cur.size :: next.map size) ((pre ++ g) :: gs))
    (hflat : g ++ gs.flatten = sges.map RefSge.piece) :
    readLoop sges cur (next ++ rest) (total pre)
      = some (lay (cur.addr + total pre) g ++ layAll next gs,
          ⟨cur.addr, total pre + total g⟩ :: filled next gs ++ rest) := by
  induction sges generalizing cur next pre g gs with
  | nil =>
    obtain ⟨rfl, hgs⟩ := append_eq_nil_iff.mp hflat
    match next, gs, hpacks with
    | [], [], _ => rfl
    | r :: next, g' :: gs, hpacks =>
      obtain ⟨p, hp, -⟩ := hpacks.2.1
      rw [(append_eq_nil_iff.mp hgs).1] at hp
      exact nomatch hp
  | cons sge sges ih =>
    obtain ⟨⟨hlen, hid⟩, hsges⟩ := forall_mem_cons.mp hsges
    have hfits : Fits (cur :: next) ((pre ++ g) :: gs) := Packs.fits hpacks
    rw [Fits, forall₂_cons] at hfits
    have hfit := hfits.1
    rw [total_append] at hfit
    have hmod : (total pre + sge.length) % 2 ^ 32 = total pre + sge.length :=
      Nat.mod_eq_of_lt (by omega)
    cases g with
    | nil =>
      match next, gs, hpacks with
      | [], [], _ => exact nomatch hflat
      | r :: next, g' :: gs, hpacks =>
        rw [append_nil] at hpacks
        obtain ⟨p, hp, hover⟩ := hpacks.2.1
        obtain ⟨g, rfl⟩ : ∃ g, g' = p :: g := by
          cases g' with
          | nil => exact nomatch hp
          | cons q g =>
            cases hp
            exact ⟨g, rfl⟩
        obtain ⟨rfl, hrest⟩ := cons.inj hflat
        obtain ⟨hr, hnext⟩ := forall_mem_cons.mp hnext
        have hsecond : sge.length + total g ≤ r.size := (forall₂_cons.mp hfits.2).1
        rw [cons_append, readLoop, if_neg (Nat.not_le.mpr hid), if_pos (hmod.symm ▸ hover),
          if_neg (by omega)]
        have hrec := ih hsges hr hnext [sge.piece] hpacks.2.2 hrest
        rw [show total [sge.piece] = sge.length from rfl] at hrec
        rw [hrec]
        rfl
    | cons p g =>
      obtain ⟨rfl, hrest⟩ := cons.inj hflat
      have hfit : total pre + (sge.length + total g) ≤ cur.size := hfit
      rw [readLoop_stay hid (by omega), hmod]
      rw [append_cons] at hpacks
      have hrec := ih hsges hcur hnext _ hpacks hrest
      rw [total_append] at hrec
      have hone : total [sge.piece] = sge.length := rfl
      rw [hone] at hrec
      rw [hrec]
      refine congrArg some (Prod.ext ?_ ?_)
      · show _ :: (lay (cur.addr + (total pre + sge.length)) g ++ _) = _
        rw [← add_assoc]
        rfl
      · show (⟨cur.addr, total pre + sge.length + total g⟩ :: filled next gs ++ rest)
          = ⟨cur.addr, total pre + total (sge.piece :: g)⟩ :: filled next gs ++ rest
        rw [add_assoc]
        rfl

/-- **What the loop finds is a packing** of the buffers it has used. -/
theorem exists_packs_of_readLoop (hpre : total pre ≤ cur.size)
    {t : List Copy × List Range} (h : readLoop sges cur next (total pre) = some t) :
    ∃ used rest g gs, next = used ++ rest ∧ Packs (cur.size :: used.map size) ((pre ++ g) :: gs)
      ∧ g ++ gs.flatten = sges.map RefSge.piece := by
  induction sges generalizing cur next pre t with
  | nil => exact ⟨[], next, [], [], rfl, by rwa [append_nil], rfl⟩
  | cons sge sges ih =>
    obtain ⟨⟨hlen, hid⟩, hsges⟩ := forall_mem_cons.mp hsges
    have hmod : (total pre + sge.length) % 2 ^ 32 = total pre + sge.length :=
      Nat.mod_eq_of_lt (by omega)
    by_cases hover : cur.size < total pre + sge.length
    · cases next with
      | nil =>
        rw [readLoop, if_neg (Nat.not_le.mpr hid), if_pos (hmod.symm ▸ hover)] at h
        exact nomatch h
      | cons r next =>
        obtain ⟨hr, hnext⟩ := forall_mem_cons.mp hnext
        rw [readLoop, if_neg (Nat.not_le.mpr hid), if_pos (hmod.symm ▸ hover)] at h
        split_ifs at h with hfit
        obtain ⟨t', ht', -⟩ := Option.map_eq_some_iff.mp h
        obtain ⟨used, rest, g, gs, rfl, hpacks, hflat⟩ :=
          ih hsges hr hnext [sge.piece] (Nat.le_of_not_lt hfit) ht'
        refine ⟨r :: used, rest, [], ([sge.piece] ++ g) :: gs, rfl, ?_, ?_⟩
        · rw [append_nil]
          exact ⟨hpre, ⟨sge.piece, rfl, hover⟩, hpacks⟩
        · exact congrArg (sge.piece :: ·) hflat
    · rw [readLoop_stay hid (hmod.symm ▸ hover), hmod, Option.map_eq_some_iff] at h
      obtain ⟨t', ht', -⟩ := h
      have htotal : total (pre ++ [sge.piece]) = total pre + sge.length := total_append _ _
      rw [← htotal] at ht'
      obtain ⟨used, rest, g, gs, hused, hpacks, hflat⟩ :=
        ih hsges hcur hnext (pre ++ [sge.piece]) (by omega) ht'
      refine ⟨used, rest, sge.piece :: g, gs, hused, ?_, congrArg (sge.piece :: ·) hflat⟩
      rw [append_cons]
      exact hpacks

end

/-! ## Sending and pulling together -/

/-- **The read of a message** whose fragments the immediate value can count:
a request that is too long fails, and otherwise the loop runs over buffers
that are apart, not empty, and as long as the request says. -/
theorem umqUbRead_spec (pools : Pools cfg) {d : Descriptor}
    (hsges : Moderate d.refSges) (hpos : 0 < d.refSges.length) (hlt : d.refSges.length < 32)
    (hrequest : getReadPreAllocateMaxTotalSize cfg d.memInterval d.refSges.length = request) :
    ∃ buf bufs, (buf :: bufs).Pairwise Range.Apart
      ∧ (buf :: bufs).map size = (buffersOf cfg request).map Prod.snd
      ∧ (∀ r ∈ buf :: bufs, 0 < r.size ∧ r.size ≤ 2 ^ 24)
      ∧ ∀ msgId, umqUbRead cfg pools d ⟨msgId, BitVec.ofNat 5 d.refSges.length⟩
        = if umqMaxBufRequestSize < request then none
          else (readLoop d.refSges buf bufs 0).map
            (fun r => ⟨buf :: bufs, r.1, r.2, total (d.refSges.map RefSge.piece)⟩) := by
  have hreq : 0 < request :=
    hrequest ▸ getReadPreAllocateMaxTotalSize_pos cfg d.memInterval hpos hlt
  obtain ⟨p, ps, hbufs⟩ := exists_cons_of_ne_nil (buffersOf_ne_nil cfg hreq)
  obtain ⟨buf, bufs, hplace⟩ : ∃ buf bufs,
      place (pools.base (poolOf cfg request)) 0 (buffersOf cfg request) = buf :: bufs := by
    rw [hbufs]
    exact ⟨_, _, rfl⟩
  have hsizes : (buf :: bufs).map size = (buffersOf cfg request).map Prod.snd := by
    rw [← hplace, map_size_place]
  refine ⟨buf, bufs, ?_, hsizes, ?_, ?_⟩
  · rw [← hplace]
    exact pairwise_place 0 (pools.apart _) fun p hp => (mem_buffersOf hreq hp).2
  · intro r hr
    have hmem : r.size ∈ (buffersOf cfg request).map Prod.snd := hsizes ▸ mem_map_of_mem hr
    obtain ⟨p, hp, heq⟩ := mem_map.mp hmem
    have hin := mem_buffersOf hreq hp
    have hcap := (cfg.capacity_bounds (poolOf cfg request)).2
    omega
  · intro msgId
    have hnum : (BitVec.ofNat 5 d.refSges.length).toNat = d.refSges.length :=
      (BitVec.toNat_ofNat _ _).trans (Nat.mod_eq_of_lt hlt)
    have hsum : (d.refSges.map RefSge.length).sum = total (d.refSges.map RefSge.piece) := by
      rw [total, map_map]
      rfl
    have hle : total (d.refSges.map RefSge.piece)
        ≤ (d.refSges.map RefSge.piece).length * 2 ^ 24 := by
      refine total_le fun p hp => ?_
      obtain ⟨sge, hsge, rfl⟩ := mem_map.mp hp
      exact (hsges sge hsge).1
    rw [length_map] at hle
    rw [umqUbRead]
    rw [hnum, take_length, hrequest, umqBufAlloc, hsum, Nat.mod_eq_of_lt (by omega)]
    by_cases hmax : umqMaxBufRequestSize < request
    · rw [if_pos hmax]
      split <;> rfl
    · have hne : request ≠ uint32Max := by
        rintro rfl
        exact hmax (by decide)
      rw [if_neg hne, if_neg hmax, if_neg (Nat.ne_of_gt hreq), if_neg hmax, hplace]

/-- The loop from the start of the destination, for a packing of the buffers
before `rest`. -/
theorem readLoop_zero (hsges : Moderate sges) {bufs : List Range}
    (hbuf : buf.size ≤ 2 ^ 24) (hbufs : ∀ r ∈ bufs, r.size ≤ 2 ^ 24) (rest : List Range)
    (hpacks : Packs ((buf :: bufs).map size) groups)
    (hflat : groups.flatten = sges.map RefSge.piece) :
    readLoop sges buf (bufs ++ rest) 0
      = some (layAll (buf :: bufs) groups, filled (buf :: bufs) groups ++ rest) := by
  cases groups with
  | nil => cases bufs <;> exact hpacks.elim
  | cons g gs =>
    refine (readLoop_of_packs hsges hbuf hbufs [] hpacks hflat).trans ?_
    rw [total_nil, zero_add]
    rfl

/-- A packing of all buffers delivers the message. -/
theorem arrives_of_packs {rs : List Range} (hrs : rs.Pairwise Range.Apart)
    (hpacks : Packs (rs.map size) groups) (hflat : groups.flatten = frags.map QBuf.piece) :
    Arrives frags ⟨rs, layAll rs groups, filled rs groups, total (frags.map QBuf.piece)⟩ where
  reads := (map_piece_layAll hpacks.fits).trans hflat
  apart := pairwise_layAll hpacks.fits hrs
  inside := fun _ hc => mem_layAll hpacks.fits hc
  total := rfl
  data := by
    intro remote mem
    rw [flatMap_bytes_filled remote mem hpacks.fits hrs, hflat, flatMap_map]
    rfl

/-- **Buffers that are not used stay in the chain** as they were allocated: a
message that arrives has none. -/
theorem rest_eq_nil {rs rest : List Range} (hrs : rs.Pairwise Range.Apart)
    (hpacks : Packs (rs.map size) groups) (hflat : groups.flatten = frags.map QBuf.piece)
    (hrest : ∀ r ∈ rest, 0 < r.size) {dst : List Range} {n : ℕ}
    (h : Arrives frags ⟨dst, layAll rs groups, filled rs groups ++ rest, n⟩) : rest = [] := by
  have hdata := h.data (fun _ => 0) fun _ => 0
  rw [flatMap_append, flatMap_bytes_filled _ _ hpacks.fits hrs, hflat, flatMap_map] at hdata
  have hnil := append_right_eq_self.mp hdata
  cases rest with
  | nil => rfl
  | cons r rest =>
    have hlen := congrArg length (append_eq_nil_iff.mp hnil).1
    rw [length_bytes] at hlen
    exact absurd hlen (Nat.ne_of_gt (hrest r mem_cons_self))

/-- **A pulled message arrives** exactly if it fits: the sender refuses it or
it has fewer than 32 fragments and arrives whole, if and only if the condition
holds of it when the sender accepts it. -/
theorem pulledWhole_iff (blk : BlockSize) (imported : ℕ → Bool) (b : QBuf) (chain : List QBuf)
    (cfg : PoolCfg) (pools : Pools cfg)
    (hsize : ∀ f ∈ fragments b chain, f.dataSize ≤ umqHugeQbufGetSizeByType blk .gigantic) :
    PulledWhole blk imported b chain cfg pools
      ↔ ∀ d rest, buildDescriptor blk imported b chain = some (d, rest) →
          PullFits cfg d.memInterval (fragments b chain) := by
  refine forall_congr' fun d => forall_congr' fun rest => forall_congr' fun h => ?_
  obtain ⟨hrefs, -, -, -, hids, -⟩ := buildDescriptor_spec h
  have hlen : d.refSges.length = (fragments b chain).length := by rw [hrefs, length_map]
  have hpos : 0 < (fragments b chain).length := by
    rw [fragments, batch, if_neg (totalDataSize_ne_zero h)]
    exact Nat.succ_pos _
  have hmoderate : Moderate d.refSges := by
    rw [hrefs]
    intro sge hsge
    obtain ⟨f, hf, rfl⟩ := mem_map.mp hsge
    exact ⟨Nat.le_trans (hsize f hf) (umqHugeQbufGetSizeByType_bounds blk .gigantic).2, hids f hf⟩
  have hpieces : d.refSges.map RefSge.piece = (fragments b chain).map QBuf.piece := by
    rw [hrefs, map_map]
    rfl
  refine and_congr_right fun hlt => ?_
  rw [← hlen] at hlt hpos ⊢
  generalize hrequest : getReadPreAllocateMaxTotalSize cfg d.memInterval d.refSges.length = request
  obtain ⟨buf, bufs, hpair, hsizes, hbounds, hread⟩ :=
    umqUbRead_spec pools hmoderate hpos hlt hrequest
  rw [hpieces] at hread
  obtain ⟨hbuf, hrest⟩ := forall_mem_cons.mp hbounds
  rw [← hsizes]
  constructor
  · intro hwhole
    obtain ⟨r, hr, harrives⟩ := hwhole 0
    rw [hread] at hr
    split_ifs at hr with hmax
    obtain ⟨t, ht, rfl⟩ := Option.map_eq_some_iff.mp hr
    obtain ⟨used, rest, g, gs, rfl, hpacks, hflat⟩ := exists_packs_of_readLoop hmoderate hbuf.2
      (fun r hr => (hrest r hr).2) [] (Nat.zero_le _) ht
    obtain ⟨hused, hunused⟩ := forall_mem_append.mp hrest
    have hflat : (g :: gs).flatten = (fragments b chain).map QBuf.piece := hflat.trans hpieces
    have ht' := readLoop_zero hmoderate hbuf.2 (fun r hr => (hused r hr).2) rest hpacks
      (hflat.trans hpieces.symm)
    obtain rfl := Option.some.inj (ht.symm.trans ht')
    have hpair' := hpair.sublist ((sublist_append_left used rest).cons_cons buf)
    obtain rfl := rest_eq_nil hpair' hpacks hflat (fun r hr => (hunused r hr).1) harrives
    exact ⟨Nat.le_of_not_lt hmax, g :: gs, hflat, by rwa [append_nil]⟩
  · rintro ⟨hmax, groups, hflat, hpacks⟩ msgId
    rw [hread, if_neg (Nat.not_lt.mpr hmax)]
    have hloop := readLoop_zero hmoderate hbuf.2 (fun r hr => (hrest r hr).2) [] hpacks
      (hflat.trans hpieces.symm)
    rw [append_nil, append_nil] at hloop
    rw [hloop]
    exact ⟨_, rfl, arrives_of_packs hpair hpacks hflat⟩

/-- Pools whose blocks lie one behind the other, with room for the largest. -/
def stackedPools (cfg : PoolCfg) : Pools cfg where
  base := fun _ i => i * 2 ^ 24
  apart := by
    intro pool i j hij
    have hcap := (cfg.capacity_bounds pool).2
    exact Or.inl (by omega)

/-- Full blocks of 8 KiB, in the general pool. -/
def fullBuf (total n : ℕ) : QBuf := ⟨n, 8192 * n, 8192, total, 0⟩

/-- Blocks of 8 KiB without headroom. -/
def plainCfg : PoolCfg := ⟨.k8, .split, 0, by decide⟩

/-- Blocks of 8 KiB with headroom. -/
def headroomCfg : PoolCfg := ⟨.k8, .split, 512, by decide⟩

/-- Four full blocks and a short one: the first four fill a block of 32 KiB,
the short one goes to the next. -/
def fiveBufs : List QBuf := [fullBuf 0 2, fullBuf 0 3, fullBuf 0 4, ⟨5, 40960, 100, 0, 0⟩]

theorem pulledWhole_iff_five :
    PulledWhole .k8 (fun _ => false) (fullBuf 32868 1) fiveBufs plainCfg (stackedPools plainCfg) :=
  (pulledWhole_iff .k8 (fun _ => false) (fullBuf 32868 1) fiveBufs plainCfg _ (by decide)).mpr (by
    rintro d rest ⟨rfl, rfl⟩
    exact ⟨by decide, by decide,
      [(fullBuf 32868 1 :: [fullBuf 0 2, fullBuf 0 3, fullBuf 0 4]).map QBuf.piece,
        [⟨40960, 100⟩]], by decide, by decide⟩)

/-- **Two full blocks do not fit**: the receiver has a headroom of 512 bytes,
and takes it off the destination. The first block does not fit into the first
buffer, and there is none for the second. -/
theorem not_pulledWhole_headroom :
    ¬ PulledWhole .k8 (fun _ => false) (fullBuf 16384 1) [fullBuf 0 2] headroomCfg
      (stackedPools headroomCfg) := by
  intro h
  obtain ⟨-, hread⟩ := h _ _ rfl
  obtain ⟨r, hr, -⟩ := hread 1
  exact absurd (Option.isSome_iff_exists.mpr ⟨r, hr⟩) (by decide)

end Umq
