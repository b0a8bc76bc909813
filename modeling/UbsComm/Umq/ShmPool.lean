import UbsComm.Lib.Execution
import UbsComm.Lib.Links
import UbsComm.Lib.Places
import UbsComm.Umq.PullRead

/-!
# The buffer pool in shared memory

The owner of a queue has a pool of buffers in memory that it shares with the
peer. It allocates chains of buffers from free lists – two global ones, for
buffers with data and for headers only, and two for each of its threads – and
sends them by putting the offset of the first one into a ring. The peer takes
the offset out of the ring, and when it frees the chain it puts the offset into
a ring back, from where the owner returns the buffers to the global lists.

A buffer is known by its address in the owner. The links are words in the
memory of the buffers: addresses of the owner or of the peer, or offsets while
the chain is in a ring.

In the `combine` mode there are no headers without data, and the bounds from
which `is_with_data` tells the two kinds apart are null: every buffer that comes
back counts as a header. The return path also has no place for a chain when the
ring is full, and an allocation that finds too little in the pool takes buffers
from the pools of the process. `Calm` is the condition that none of this
happens.
-/

namespace Umq

open Links Function

/-! ## The layout -/

/-- `UMQ_EMPTY_HEADER_COEFFICIENT` -/
def umqEmptyHeaderCoefficient : ℕ := 16

/-- `SHM_QBUF_POOL_TLS_MAX` -/
def shmQbufPoolTlsMax : ℕ := 16

/-- `SHM_QBUF_POOL_BATCH_CNT` -/
def shmQbufPoolBatchCnt : ℕ := 4

/-- `QBUF_INVALID_OFFSET` -/
def qbufInvalidOffset : ℕ := 2 ^ 64 - 1

/-- `UMQ_RENDEZVOUS_FLAG` -/
def umqRendezvousFlag : ℕ := 2 ^ 63

/-- `UMQ_OFFSET_DATA_BITS` -/
def umqOffsetDataBits : ℕ := 2 ^ 63 - 1

/-- `qbuf_pool_t` of the owner and of the peer, which differ in the address of
the memory. -/
structure ShmPool where
  split : Bool
  sizePowSmall : ℕ
  totalSize : ℕ
  dataBuffer : ℕ
  remoteBuffer : ℕ
  headroomSize : UInt32
  rxDepth : ℕ
  disableScaleCap : Bool
  /-- `mempool_id` of a buffer of another pool. -/
  foreignId : ℕ → ℕ
  pow_bounds : 13 ≤ sizePowSmall ∧ sizePowSmall ≤ 16
  one_block : (if split then (umqEmptyHeaderCoefficient + 1) * sizeofUmqBuf else 0) +
    2 ^ sizePowSmall ≤ totalSize
  total_lt : totalSize < 2 ^ 63
  data_pos : 0 < dataBuffer
  remote_pos : 0 < remoteBuffer

/-- The two processes. -/
inductive ShmSide where
  | owner
  | remote

namespace ShmPool

variable (pool : ShmPool)

/-- The size of a block. -/
def blockSize : ℕ := 2 ^ pool.sizePowSmall

/-- The number of blocks. -/
def totalBlockNum : ℕ :=
  if pool.split then
    pool.totalSize / ((umqEmptyHeaderCoefficient + 1) * sizeofUmqBuf + pool.blockSize)
  else pool.totalSize / pool.blockSize

/-- Where the pool is in a process. -/
def base : ShmSide → ℕ
  | .owner => pool.dataBuffer
  | .remote => pool.remoteBuffer

section

variable (side : ShmSide)

/-- `header_buffer` in a process; null in the `combine` mode. -/
def headerBuffer : ℕ :=
  if pool.split then pool.base side + pool.totalBlockNum * pool.blockSize else 0

/-- Where the headers without data begin. -/
def extHeaderBuffer : ℕ :=
  if pool.split then pool.headerBuffer .owner + pool.totalBlockNum * sizeofUmqBuf else 0

/-- The buffers with data. -/
def withData : List ℕ := (List.range pool.totalBlockNum).map (fun i =>
    if pool.split then pool.headerBuffer .owner + i * sizeofUmqBuf
    else pool.dataBuffer + i * pool.blockSize)

/-- The headers without data. -/
def withoutData : List ℕ :=
  if pool.split then
    (List.range (pool.totalBlockNum * umqEmptyHeaderCoefficient)).map (fun i =>
      pool.extHeaderBuffer + i * sizeofUmqBuf)
  else []

/-- All buffers. -/
def blocks : List ℕ := pool.withData ++ pool.withoutData

/-- More than the buffers of any chain. -/
def fuel : ℕ := pool.totalSize

/-- The number of the pool of a buffer. -/
def mempoolId (p : ℕ) : ℕ := if p ∈ pool.blocks then 0 else pool.foreignId p

/-! ## Offsets -/

/-- `umq_qbuf_to_offset` -/
def umqQbufToOffset (p : ℕ) : ℕ :=
  if p = 0 then qbufInvalidOffset else (p + 2 ^ 64 - pool.base side) % 2 ^ 64

/-- `umq_offset_to_qbuf` -/
def umqOffsetToQbuf (offset : ℕ) : ℕ :=
  if pool.totalSize - sizeofUmqBuf < offset then 0
  else if pool.split = true ∧ (pool.base side + offset < pool.headerBuffer side ∨
      pool.totalBlockNum * (pool.blockSize + (umqEmptyHeaderCoefficient + 1) * sizeofUmqBuf) <
        offset + sizeofUmqBuf ∨
      (pool.base side + offset - pool.headerBuffer side) % sizeofUmqBuf ≠ 0) then 0
  else if pool.split = false ∧
      (pool.totalSize - pool.blockSize < offset ∨ offset % pool.blockSize ≠ 0) then 0
  else pool.base side + offset

/-- The buffer that a process has at an address. -/
def cell : ShmSide → ℕ → ℕ
  | .owner, p => p
  | .remote, p => p - pool.remoteBuffer + pool.dataBuffer

/-- The buffer that a pointer leads to. -/
def pointed (p : ℕ) : Option ℕ := if p = 0 then none else some (pool.cell side p)

/-- `umq_shm_qbuf_pointer_to_offset`: the links after it, and the offset. -/
def umqShmQbufPointerToOffset (next : ℕ → ℕ) (qbuf : ℕ) : (ℕ → ℕ) × ℕ :=
  (recode (pool.umqQbufToOffset side) (pool.pointed side) pool.fuel next (pool.cell side qbuf),
    pool.umqQbufToOffset side qbuf)

/-- The buffer that an offset leads to. -/
def designated (offset : ℕ) : Option ℕ := pool.pointed side (pool.umqOffsetToQbuf side offset)

/-- `umq_shm_offset_to_qbuf_pointer`: the links after it, and the address. -/
def umqShmOffsetToQbufPointer (next : ℕ → ℕ) (offset : ℕ) : (ℕ → ℕ) × ℕ :=
  let result := pool.umqOffsetToQbuf side offset
  if result = 0 then (next, 0)
  else
    (recode (pool.umqOffsetToQbuf side) (pool.designated side) pool.fuel next
      (pool.cell side result), result)

end

/-- `is_with_data` -/
def isWithData (p : ℕ) : Bool :=
  decide (pool.headerBuffer .owner ≤ p) && decide (p < pool.extHeaderBuffer)

end ShmPool

/-! ## The state -/

/-- The two free lists of a block pool, by `with_data`. -/
structure FreeLists where
  head : Bool → ℕ
  cnt : Bool → ℕ

/-- A list is set. -/
def FreeLists.set (f : FreeLists) (withData : Bool) (head cnt : ℕ) : FreeLists :=
  ⟨update f.head withData head, update f.cnt withData cnt⟩

/-- The links, the free lists, the chains that the two processes hold, by their
first buffer, and the rings. -/
structure ShmState where
  next : ℕ → ℕ
  global : FreeLists
  cache : ℕ → FreeLists
  owner : List ℕ
  peer : List ℕ
  tx : List ℕ
  rx : List ℕ

namespace ShmState

variable (s : ShmState)

/-- A link is set. -/
def setNext (p q : ℕ) : ShmState := { s with next := update s.next p q }

/-- A global list is set. -/
def setGlobal (withData : Bool) (head cnt : ℕ) : ShmState :=
  { s with global := s.global.set withData head cnt }

/-- A list of a thread is set. -/
def setCache (t : ℕ) (withData : Bool) (head cnt : ℕ) : ShmState :=
  { s with cache := update s.cache t ((s.cache t).set withData head cnt) }

end ShmState

/-! ## Between the free lists -/

namespace ShmPool

variable (pool : ShmPool)

/-- `return_qbuf_to_global`; `none` if a null pointer is followed, here and
below. -/
def returnQbufToGlobal (s : ShmState) (buf : ℕ) (withData : Bool) : Option ShmState :=
  let list := walk s.next pool.fuel buf
  list.getLast?.map (fun last =>
    (s.setNext last (s.global.head withData)).setGlobal withData buf
      (s.global.cnt withData + list.length))

/-- The body of the loop of `umq_shm_poll_and_fill_global`. -/
def fillGlobal (s : ShmState) (offset : ℕ) : Option ShmState :=
  let r := pool.umqShmOffsetToQbufPointer .owner s.next offset
  if r.2 = 0 then some { s with next := r.1 }
  else pool.returnQbufToGlobal { s with next := r.1 } r.2 (pool.isWithData r.2)

/-- The loop over the offsets. -/
def fillGlobalAll : List ℕ → ShmState → Option ShmState
  | [], s => some s
  | offset :: offsets, s => (pool.fillGlobal s offset).bind (fillGlobalAll offsets)

/-- `umq_shm_poll_and_fill_global` -/
def umqShmPollAndFillGlobal (s : ShmState) : Option ShmState :=
  pool.fillGlobalAll (s.rx.take shmQbufPoolBatchCnt) { s with rx := s.rx.drop shmQbufPoolBatchCnt }

/-- `allocate_batch` from the global list to that of a thread. -/
def allocateBatch (s : ShmState) (t : ℕ) (withData : Bool) (n : ℕ) : Option ShmState :=
  (nth s.next n (s.global.head withData)).map (fun last =>
    ((s.setNext last ((s.cache t).head withData)).setGlobal withData (s.next last)
      (s.global.cnt withData - n)).setCache t withData (s.global.head withData)
      ((s.cache t).cnt withData + n))

/-- A batch of `return_list_to_pools`, as long as it has one `mempool_id`. -/
structure Batch where
  head : ℕ
  tail : ℕ
  cnt : ℕ

/-- A batch goes back to the global list, or to the pool it is from. -/
def returnBatch (s : ShmState) (withData : Bool) (b : Batch) : ShmState :=
  if pool.mempoolId b.tail ≠ 0 then s.setNext b.tail 0
  else
    (s.setNext b.tail (s.global.head withData)).setGlobal withData b.head
      (s.global.cnt withData + b.cnt)

/-- The loop of `return_list_to_pools`. -/
def returnBatches (withData : Bool) : List ℕ → Batch → ShmState → ShmState
  | [], b, s => pool.returnBatch s withData b
  | cur :: rest, b, s =>
    if pool.mempoolId b.tail = pool.mempoolId cur then
      returnBatches withData rest ⟨b.head, cur, b.cnt + 1⟩ s
    else returnBatches withData rest ⟨cur, cur, 1⟩ (pool.returnBatch s withData b)

/-- `return_list_to_pools` -/
def returnListToPools (s : ShmState) (t : ℕ) (withData : Bool) (localHead : ℕ) : Option ShmState :=
  match walk s.next pool.fuel localHead with
  | [] => none
  | cur :: rest =>
    let s' := pool.returnBatches withData rest ⟨cur, cur, 1⟩ s
    some (s'.setCache t withData ((s'.cache t).head withData)
      ((s'.cache t).cnt withData - (rest.length + 1)))

/-- `return_to_global`: what is behind the first buffers goes back. -/
def returnToGlobal (s : ShmState) (t : ℕ) (withData : Bool) (threshold : ℕ) : Option ShmState :=
  match nth s.next threshold ((s.cache t).head withData) with
  | none => some s
  | some switchNode =>
    if s.next switchNode = 0 then some s
    else pool.returnListToPools (s.setNext switchNode 0) t withData (s.next switchNode)

/-- Buffers of other pools, in front of the list of a thread. -/
def linkForeign (t : ℕ) (withData : Bool) : List ℕ → ShmState → ShmState
  | [], s => s
  | p :: ps, s =>
    let s' := linkForeign t withData ps s
    (s'.setNext p ((s'.cache t).head withData)).setCache t withData p
      ((s'.cache t).cnt withData + 1)

/-- The end of `fetch_from_global` when it could not get enough: the `n`
buffers in front of the list go back. -/
def rollback (s : ShmState) (t : ℕ) (withData : Bool) (headBefore n : ℕ) : Option ShmState :=
  if n = 0 then some s
  else
    (nth s.next n ((s.cache t).head withData)).bind (fun tail =>
      pool.returnListToPools
        ((s.setNext tail 0).setCache t withData headBefore ((s.cache t).cnt withData)) t withData
        ((s.cache t).head withData))

/-- `fetch_from_global`, and whether it succeeds; `foreign` is what the
expansion pools of the process give. -/
def fetchFromGlobal (s : ShmState) (t : ℕ) (withData : Bool) (batchCount : ℕ)
    (foreign : List ℕ) : Option (ShmState × Bool) :=
  let available := s.global.cnt withData
  if batchCount ≤ available then (allocateBatch s t withData batchCount).map (fun s' => (s', true))
  else if pool.disableScaleCap then some (s, false)
  else
    let taken := if 0 < available then allocateBatch s t withData available else some s
    taken.bind (fun s₁ =>
      let fetched := foreign.take (batchCount - available)
      let s₂ := linkForeign t withData fetched s₁
      if available + fetched.length = batchCount then some (s₂, true)
      else
        (pool.rollback s₂ t withData ((s.cache t).head withData)
          (available + fetched.length)).map (fun s₃ => (s₃, false)))

/-! ## The operations of the owner -/

/-- The return codes. -/
inductive ShmRet where
  | success
  | einval
  | enomem

/-- `actual_buf_count`; the sums and products are of 32 bits. -/
def actualBufCount (requestSize num headroomSize : UInt32) : UInt32 :=
  let small := (1 : UInt32) <<< UInt32.ofNat pool.sizePowSmall
  if pool.split then
    num * ((requestSize + headroomSize + small - 1) >>> UInt32.ofNat pool.sizePowSmall)
  else
    let alignSize := small - UInt32.ofNat sizeofUmqBuf
    num * ((requestSize + headroomSize + alignSize - 1) / alignSize)

/-- What an allocation asks for: the kind and the number of buffers, or the
value it returns at once. -/
def request (requestSize num : UInt32) (headroom : Option UInt16) : Except ShmRet (Bool × ℕ) :=
  let headroomSize := (headroom.map UInt16.toUInt32).getD pool.headroomSize
  if requestSize = 0 then
    if headroom.isSome ∧ 0 < headroomSize then .error .einval
    else if pool.split = false then .error .enomem
    else .ok (false, num.toNat)
  else .ok (true, (pool.actualBufCount requestSize num headroomSize).toNat)

/-- The loop that fetches from the global list until there are enough buffers
for the thread. -/
def fetchLoop (t : ℕ) (withData : Bool) (need : ℕ) :
    ℕ → List (List ℕ) → ShmState → Option (ShmState × Bool)
  | 0, _, _ => none
  | fuel + 1, foreign, s =>
    if need ≤ (s.cache t).cnt withData then some (s, true)
    else
      (pool.umqShmPollAndFillGlobal s).bind (fun s' =>
        (pool.fetchFromGlobal s' t withData shmQbufPoolBatchCnt (foreign.headD [])).bind (fun r =>
          if r.2 then fetchLoop t withData need fuel foreign.tail r.1 else some (r.1, false)))

section

variable (s : ShmState)

/-- The first buffers of the list become a chain: `umq_qbuf_alloc_nodata` and
the two functions for buffers with data. -/
def qbufAlloc (t : ℕ) (withData : Bool) (n : ℕ) : Option ShmState :=
  (nth s.next n ((s.cache t).head withData)).map (fun last =>
    let s' := (s.setNext last 0).setCache t withData (s.next last) ((s.cache t).cnt withData - n)
    { s' with owner := (s.cache t).head withData :: s.owner })

/-- `umq_shm_qbuf_alloc` -/
def umqShmQbufAlloc (t : ℕ) (requestSize num : UInt32) (headroom : Option UInt16)
    (foreign : List (List ℕ)) : Option (ShmState × ShmRet) :=
  match pool.request requestSize num headroom with
  | .error ret => some (s, ret)
  | .ok (withData, need) =>
    (pool.fetchLoop t withData need (need + 1) foreign s).bind (fun r =>
      if r.2 then (qbufAlloc r.1 t withData need).map (fun s' => (s', .success))
      else some (r.1, .enomem))

/-- `umq_shm_qbuf_free` by the owner. -/
def umqShmQbufFree (t p : ℕ) : Option ShmState :=
  let withData := !(pool.split && decide (pool.extHeaderBuffer ≤ p))
  let list := walk s.next pool.fuel p
  list.getLast?.bind (fun last =>
    let cnt := (s.cache t).cnt withData + list.length
    let s' := { (s.setNext last ((s.cache t).head withData)).setCache t withData p cnt with
      owner := s.owner.filter (fun q => q ≠ p) }
    let limit := shmQbufPoolTlsMax + shmQbufPoolBatchCnt
    if (if withData then decide (limit < cnt) else decide (limit ≤ cnt)) then
      pool.returnToGlobal s' t withData shmQbufPoolTlsMax
    else some s')

/-- `umq_shm_qbuf_enqueue`; whether `enqueue` succeeds is given. -/
def umqShmQbufEnqueue (p : ℕ) (rendezvous accepted : Bool) : ShmState :=
  let r := pool.umqShmQbufPointerToOffset .owner s.next p
  if r.2 = qbufInvalidOffset then { s with next := r.1 }
  else
    let offset := if rendezvous then r.2 ||| umqRendezvousFlag else r.2
    if accepted then
      { s with
        next := r.1
        tx := s.tx ++ [offset]
        owner := s.owner.filter (fun q => q ≠ p) }
    else
      { s with
        next := (pool.umqShmOffsetToQbufPointer .owner r.1 (offset &&& umqOffsetDataBits)).1 }

/-! ## The operations of the peer -/

/-- `umq_shm_qbuf_dequeue` -/
def umqShmQbufDequeue : ShmState :=
  match s.tx with
  | [] => s
  | offset :: tx =>
    let r := pool.umqShmOffsetToQbufPointer .remote s.next (offset &&& umqOffsetDataBits)
    { s with next := r.1, tx := tx, peer := if r.2 = 0 then s.peer else r.2 :: s.peer }

/-- `msg_ring_post_rx` has room. -/
def RxRoom : Prop := s.rx.length + 1 < pool.rxDepth
deriving Decidable

end

/-- `post_release_buf`: `umq_shm_qbuf_free` by the peer. -/
def postReleaseBuf (s : ShmState) (p : ℕ) : ShmState :=
  let r := pool.umqShmQbufPointerToOffset .remote s.next p
  { s with
    next := r.1
    peer := s.peer.filter (fun q => q ≠ p)
    rx := if pool.RxRoom s then s.rx ++ [r.2] else s.rx }

/-! ## Runs -/

/-- `QBUF_LIST_INSERT_HEAD` of the buffers, one after the other. -/
def insertAll (withData : Bool) : List ℕ → ShmState → ShmState
  | [], s => s
  | p :: ps, s =>
    insertAll withData ps
      ((s.setNext p (s.global.head withData)).setGlobal withData p (s.global.cnt withData + 1))

/-- `umq_shm_global_pool_init` -/
def init (next : ℕ → ℕ) : ShmState :=
  let empty : FreeLists := ⟨fun _ => 0, fun _ => 0⟩
  insertAll false pool.withoutData
    (insertAll true pool.withData ⟨next, empty, fun _ => empty, [], [], [], []⟩)

end ShmPool

/-- The operations; those of the owner by one of its threads. -/
inductive ShmAction where
  | alloc (t : ℕ) (requestSize num : UInt32) (headroom : Option UInt16) (foreign : List (List ℕ))
  | free (t p : ℕ)
  | enqueue (p : ℕ) (rendezvous accepted : Bool)
  | dequeue
  | peerFree (p : ℕ)
  | pollAndFill

/-- A step; a process frees and sends chains that it holds. Nothing remains,
`none`, if a null pointer is followed. -/
def shmStep (pool : ShmPool) : Option ShmState → ShmAction → Option (Option ShmState)
  | none, _ => none
  | some s, .alloc t requestSize num headroom foreign =>
    some ((pool.umqShmQbufAlloc s t requestSize num headroom foreign).map Prod.fst)
  | some s, .free t p => if p ∈ s.owner then some (pool.umqShmQbufFree s t p) else none
  | some s, .enqueue p rendezvous accepted =>
    if p ∈ s.owner then some (some (pool.umqShmQbufEnqueue s p rendezvous accepted)) else none
  | some s, .dequeue => some (some (pool.umqShmQbufDequeue s))
  | some s, .peerFree p => if p ∈ s.peer then some (some (pool.postReleaseBuf s p)) else none
  | some s, .pollAndFill => some (pool.umqShmPollAndFillGlobal s)

/-- **Nothing of what the code gets wrong happens in the step.** An allocation
is for at least one buffer, and if it has to fetch, the pools of the process
give nothing; chains come back in the `split` mode only; and the ring has room
for what the peer frees. -/
def ShmPool.Calm (pool : ShmPool) (s : ShmState) : ShmAction → Prop
  | .alloc t requestSize num headroom foreign =>
    match pool.request requestSize num headroom with
    | .error _ => True
    | .ok (withData, need) =>
      need ≠ 0 ∧ (need ≤ (s.cache t).cnt withData ∨
        (pool.split = true ∨ s.rx = []) ∧ (pool.disableScaleCap = true ∨ ∀ ps ∈ foreign, ps = []))
  | .peerFree _ => pool.RxRoom s
  | .pollAndFill => pool.split = true ∨ s.rx = []
  | _ => True

instance (pool : ShmPool) (s : ShmState) : (a : ShmAction) → Decidable (pool.Calm s a)
  | .alloc t requestSize num headroom foreign =>
    match h : pool.request requestSize num headroom with
    | .error _ => decidable_of_iff True (by rw [ShmPool.Calm, h])
    | .ok (withData, need) =>
      decidable_of_iff (need ≠ 0 ∧ (need ≤ (s.cache t).cnt withData ∨
        (pool.split = true ∨ s.rx = []) ∧
          (pool.disableScaleCap = true ∨ ∀ ps ∈ foreign, ps = []))) (by rw [ShmPool.Calm, h])
  | .free _ _ => .isTrue trivial
  | .enqueue _ _ _ => .isTrue trivial
  | .dequeue => .isTrue trivial
  | .peerFree _ => inferInstanceAs (Decidable (pool.RxRoom s))
  | .pollAndFill => inferInstanceAs (Decidable (pool.split = true ∨ s.rx = []))

end Umq
