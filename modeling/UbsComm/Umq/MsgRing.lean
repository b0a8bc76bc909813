import UbsComm.Lib.Execution
import UbsComm.Umq.Words

/-!
# The message ring

`msg_ring` is a pair of rings in shared memory, one for each direction, each with
one producer and one consumer. A ring has slots of a fixed size; a slot begins
with the length of the message in it. The producer's index `pi` and the consumer's
index `ci` are in a header behind the rings, which are laid out as

    tx ring | rx ring | tx ring header | rx ring header

The memory is one function from offsets to bytes, and the indices are words of it,
so that a slot can overlap another or a header if the arithmetic of the code, which
has 32 bits, lets it.

A call is several steps, as many as it has accesses to what the other side may
change: the first look at the indices, the copy of a message, its length, and the
index that is published. The steps of the four parties interleave freely. The model
records what each call has returned, and the messages that it was about.
-/

namespace Umq.MsgRing

open Memory Packing Function

/-! ## Layout -/

/-- The two rings. -/
inductive Dir where
  | tx
  | rx
  deriving DecidableEq

/-- `msg_ring_option_t` -/
structure MsgRingOption where
  txMaxBufSize : UInt32
  txDepth : UInt32
  rxMaxBufSize : UInt32
  rxDepth : UInt32

/-- `sizeof(shm_ring_hdr_t)` -/
def sizeofRingHdr : UInt32 := 16

/-- `sizeof(shm_ring_buf_hdr_t)` -/
def sizeofRingBufHdr : UInt32 := 4

section Layout

variable (opt : MsgRingOption)

namespace MsgRingOption

/-- The number of slots. -/
def depth : Dir → UInt32
  | .tx => opt.txDepth
  | .rx => opt.rxDepth

/-- The size of a slot. -/
def maxBufSize : Dir → UInt32
  | .tx => opt.txMaxBufSize
  | .rx => opt.rxMaxBufSize

/-- `shm_tx_ring` and `shm_rx_ring`, from the beginning of the memory. -/
def ring : Dir → ℕ
  | .tx => 0
  | .rx => (opt.txDepth * opt.txMaxBufSize).toNat

/-- `shm_tx_ring_hdr` and `shm_rx_ring_hdr`: `pi`, and `ci` after it. -/
def hdr : Dir → ℕ
  | .tx => opt.ring .rx + (opt.rxDepth * opt.rxMaxBufSize).toNat
  | .rx => opt.ring .rx + (opt.rxDepth * opt.rxMaxBufSize).toNat + sizeofRingHdr.toNat

/-- The slot with this index. -/
def slot (d : Dir) (i : UInt32) : ℕ := opt.ring d + (i * opt.maxBufSize d).toNat

/-- `payload_size` -/
def payloadSize (d : Dir) : UInt32 := opt.maxBufSize d - sizeofRingBufHdr

/-- `temp`, a sum of 32 bits in a variable of 64. -/
def shmSize : UInt64 :=
  (opt.txDepth * opt.txMaxBufSize + opt.rxDepth * opt.rxMaxBufSize + 2 * sizeofRingHdr).toUInt64

end MsgRingOption

end Layout

/-! ## The parties -/

/-- A message, whose length is given as a `uint32_t`. -/
structure Message where
  bytes : List UInt8
  length_lt : bytes.length < 2 ^ 32

/-- The length of a message. -/
def Message.size (m : Message) : UInt32 := .ofNat m.bytes.length

/-- What a post returns. -/
inductive PostRet where
  | ok
  | fail
  | eagain
  deriving DecidableEq

/-- Where the producer of a ring is. -/
inductive Producer where
  | idle
  /-- The messages that are in their slots, and those that are not. -/
  | writing (batch : Bool) (done left : List Message)
  /-- A message was copied, and its length is to be written. -/
  | sizing (batch : Bool) (done : List Message) (m : Message) (left : List Message)

/-- Where the consumer of a ring is. -/
inductive Consumer where
  | idle
  /-- A batch: how many messages there are is to be seen. -/
  | counting (maxBufSize maxCnt : UInt32)
  /-- So many messages are still to be polled, after those that were. -/
  | checking (single : Bool) (maxBufSize : UInt32) (cnt : ℕ) (got : List (List UInt8))
  /-- The next one is to be copied, whose length was seen. -/
  | copying (single : Bool) (maxBufSize : UInt32) (cnt : ℕ) (got : List (List UInt8))
      (tempBufSize : UInt32)

/-- The memory, the parties, and what their calls have returned: the messages of
each post, and those of each poll that did not fail. -/
structure State where
  mem : ℕ → UInt8
  producer : Dir → Producer := fun _ => .idle
  consumer : Dir → Consumer := fun _ => .idle
  posts : Dir → List (PostRet × List (List UInt8)) := fun _ => []
  polls : Dir → List (Option (List (List UInt8))) := fun _ => []

/-- The messages whose post returned 0. -/
def State.posted (s : State) (d : Dir) : List (List UInt8) :=
  (s.posts d).flatMap fun p => if p.1 = .ok then p.2 else []

/-- The messages that polls have returned. -/
def State.delivered (s : State) (d : Dir) : List (List UInt8) :=
  (s.polls d).flatMap fun p => p.getD []

/-- `msg_ring_create`; `addr` says whether there is memory already, whose size is
then the caller's concern. -/
def msgRingCreate (opt : MsgRingOption) (addr : Bool) (mem : ℕ → UInt8) : Option State :=
  if addr = false ∧ opt.shmSize > 0xFFFFFFFF then none
  else
    let mem := store mem (opt.hdr .tx) (List.replicate sizeofRingHdr.toNat 0)
    some { mem := store mem (opt.hdr .rx) (List.replicate sizeofRingHdr.toNat 0) }

section Step

variable (opt : MsgRingOption) (s : State) (d : Dir)

namespace State

/-- The index of the producer. -/
def pi : UInt32 := wordAt s.mem (opt.hdr d)

/-- The index of the consumer. -/
def ci : UInt32 := wordAt s.mem (opt.hdr d + 4)

/-- The producer goes on. -/
def setProducer (p : Producer) : State := { s with producer := update s.producer d p }

/-- The consumer goes on. -/
def setConsumer (c : Consumer) : State := { s with consumer := update s.consumer d c }

/-- Bytes are written. -/
def write (a : ℕ) (l : List UInt8) : State := { s with mem := store s.mem a l }

/-- A post returns. -/
def postReturns (ret : PostRet) (msgs : List Message) : State := { s.setProducer d .idle with
    posts := update s.posts d (s.posts d ++ [(ret, msgs.map Message.bytes)]) }

/-- A poll returns; it fails without messages. -/
def pollReturns (msgs : Option (List (List UInt8))) : State :=
  { s.setConsumer d .idle with polls := update s.polls d (s.polls d ++ [msgs]) }

end State

/-! ## Posting -/

/-- `msg_ring_post_tx` and `msg_ring_post_rx` up to the copy; only the first one
looks at `pi` once more. -/
def msgRingPost (m : Message) : State :=
  if m.size > opt.payloadSize d then s.postReturns d .fail [m]
  else if (s.pi opt d + 1) % opt.depth d = s.ci opt d then s.postReturns d .eagain [m]
  else if d = .tx ∧ s.pi opt d > opt.depth d then s.postReturns d .eagain [m]
  else s.setProducer d (.writing false [] [m])

/-- `msg_ring_post_tx_batch` up to the loop. -/
def msgRingPostTxBatch (msgs : List Message) : State :=
  let leftCnt := (s.ci opt .tx + opt.depth .tx - s.pi opt .tx - 1) % opt.depth .tx
  if leftCnt < UInt32.ofNat msgs.length then s.postReturns .tx .fail msgs
  else s.setProducer .tx (.writing true [] msgs)

/-- The slot of the message after so many others of the same call. -/
def State.postSlot (batch : Bool) (i : ℕ) : ℕ :=
  opt.slot d (if batch then (s.pi opt d + UInt32.ofNat i) % opt.depth d else s.pi opt d)

/-- One step of a post. -/
def produce : Option State :=
  match s.producer d with
  | .idle => none
  | .writing batch done (m :: left) =>
    if batch ∧ m.size > opt.payloadSize d then some (s.postReturns d .fail (done ++ m :: left))
    else some ((s.write (s.postSlot opt d batch done.length + sizeofRingBufHdr.toNat)
      m.bytes).setProducer d (.sizing batch done m left))
  | .sizing batch done m left =>
    some ((s.write (s.postSlot opt d batch done.length) (u32 m.size)).setProducer d
      (.writing batch (done ++ [m]) left))
  | .writing _ done [] =>
    let pi := (s.pi opt d + UInt32.ofNat done.length) % opt.depth d
    some ((s.write (opt.hdr d) (u32 pi)).postReturns d .ok done)

/-! ## Polling -/

/-- `msg_ring_poll_tx` and `msg_ring_poll_rx`, up to the length of the message. -/
def msgRingPoll (maxBufSize : UInt32) : State :=
  if s.pi opt d = s.ci opt d then s.pollReturns d (some [])
  else s.setConsumer d (.checking true maxBufSize 1 [])

/-- `msg_ring_poll_tx_batch` and `msg_ring_poll_rx_batch`, up to the second look at
`pi`. -/
def msgRingPollBatch (maxBufSize maxCnt : UInt32) : State :=
  if s.pi opt d = s.ci opt d then s.pollReturns d (some [])
  else s.setConsumer d (.counting maxBufSize maxCnt)

/-- The slot of the message after so many others of the same call. -/
def State.pollSlot (single : Bool) (i : ℕ) : ℕ :=
  opt.slot d (if single then s.ci opt d else (s.ci opt d + UInt32.ofNat i) % opt.depth d)

/-- One step of a poll. Only `msg_ring_poll_tx` keeps the length that it has seen;
the others read it again. -/
def consume : Option State :=
  match s.consumer d with
  | .idle => none
  | .counting maxBufSize maxCnt =>
    let leftCnt := (s.pi opt d + opt.depth d - s.ci opt d) % opt.depth d
    let maxCnt' := if leftCnt < maxCnt then leftCnt else maxCnt
    some (s.setConsumer d (.checking false maxBufSize maxCnt'.toNat []))
  | .checking single maxBufSize (cnt + 1) got =>
    let availBufSize := wordAt s.mem (s.pollSlot opt d single got.length)
    if maxBufSize < availBufSize then some (s.pollReturns d none)
    else some (s.setConsumer d (.copying single maxBufSize cnt got availBufSize))
  | .copying single maxBufSize cnt got tempBufSize =>
    let slot := s.pollSlot opt d single got.length
    let availBufSize := if single ∧ d = .tx then tempBufSize else wordAt s.mem slot
    let msg := bytes s.mem (slot + sizeofRingBufHdr.toNat) availBufSize.toNat
    some (s.setConsumer d (.checking single maxBufSize cnt (got ++ [msg])))
  | .checking _ _ 0 got =>
    let ci := (s.ci opt d + UInt32.ofNat got.length) % opt.depth d
    some ((s.write (opt.hdr d + 4) (u32 ci)).pollReturns d (some got))

end Step

/-- A call, or the next step of one. -/
inductive Action where
  | post (d : Dir) (m : Message)
  | postTxBatch (msgs : List Message)
  | produce (d : Dir)
  | poll (d : Dir) (maxBufSize : UInt32)
  | pollBatch (d : Dir) (maxBufSize maxCnt : UInt32)
  | consume (d : Dir)

/-- No call is under way. -/
def Producer.isIdle : Producer → Bool
  | .idle => true
  | .writing .. | .sizing .. => false

/-- No call is under way. -/
def Consumer.isIdle : Consumer → Bool
  | .idle => true
  | .counting .. | .checking .. | .copying .. => false

/-- **One step**: a party begins a call when it has none, and the count of a batch is
a `uint32_t`. -/
def step (opt : MsgRingOption) (s : State) : Action → Option State
  | .post d m => if (s.producer d).isIdle then some (msgRingPost opt s d m) else none
  | .postTxBatch msgs =>
    if (s.producer .tx).isIdle ∧ msgs.length < 2 ^ 32 then some (msgRingPostTxBatch opt s msgs)
    else none
  | .produce d => produce opt s d
  | .poll d maxBufSize =>
    if (s.consumer d).isIdle then some (msgRingPoll opt s d maxBufSize) else none
  | .pollBatch d maxBufSize maxCnt =>
    if (s.consumer d).isIdle then some (msgRingPollBatch opt s d maxBufSize maxCnt) else none
  | .consume d => consume opt s d

end Umq.MsgRing
