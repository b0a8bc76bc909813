import UbsComm.Sock.Frame

/-!
# One-sided operations over a socket

A socket has no remote memory access, so the worker that receives a frame
plays it: it copies the body of a write into the memory the peer has named,
sends the memory the peer has asked to read, and copies the answer to its
own read into the buffers of the request. `SockWorker::HandleReceiveCtx`
dispatches on the kind of the frame to one handler for each.

Everything in the body is the peer's choice: the number of scatter
elements, their sizes, keys and addresses. A handler here is a function
from the frame and from what the worker finds outside it – the registered
regions, the pending local requests, whether context objects are left, what
the socket answers – to its result and the list of its **effects**: which
bytes it loads, copies, overwrites and sends, and what it does with queue
space and context objects.

The body is a value here, so the handlers are modelled for a receive
buffer that is not itself registered memory: what they copy does not change
the elements they have still to read.
-/

namespace Sock

/-! ## Registered memory -/

/-- `MemoryRegionChecker::mRangeCache`: first address and end by key. -/
abbrev RangeCache := UInt64 → Option (UInt64 × UInt64)

/-- `MemoryRegionChecker::Validate`; the sum is one of machine words. -/
def RangeCache.validate (cache : RangeCache) (key address size : UInt64) : Bool :=
  if size = 0 then false
  else
    match cache key with
    | none => false
    | some range => decide (address ≥ range.1 ∧ address + size ≤ range.2)

/-- The byte at `a` lies in a registered region. -/
def RangeCache.Registered (cache : RangeCache) (a : UInt64) : Prop :=
  ∃ key range, cache key = some range ∧ range.1 ≤ a ∧ a < range.2

/-! ## The checked copy -/

/-- What a call of `memcpy_s` comes to: the bytes are copied; source and
destination are the same and there is nothing to do; the call is refused;
or it is refused and the destination is overwritten with zeros. -/
inductive CopyResult where
  | copied
  | same
  | refused
  | reset
deriving DecidableEq

/-- `SECUREC_MEM_MAX_LEN`. -/
def securecMemMaxLen : UInt64 := 0x7fffffff

/-- `SECUREC_MEMORY_IS_OVERLAP`. -/
def isOverlap (dest src count : UInt64) : Bool :=
  decide ((src < dest ∧ src + count > dest) ∨ (dest < src ∧ dest + count > src))

/-- `memcpy_s`. -/
def memcpyS (dest destMax src count : UInt64) : CopyResult :=
  if destMax = 0 ∨ destMax > securecMemMaxLen then .refused
  else if dest = 0 then .refused
  else if src = 0 then .reset
  else if count > destMax then .reset
  else if isOverlap dest src count then .reset
  else if count = 0 ∨ dest = src then .same
  else .copied

/-- `memcpy_s` has returned 0. -/
def CopyResult.ok : CopyResult → Bool
  | .copied | .same => true
  | .refused | .reset => false

/-! ## What a handler reads and what it does -/

/-- A pending request of this side, found by its sequence number: the
socket it was posted on, the length of its body and its elements, of which
there is at least one. -/
structure LocalRequest where
  sock : UInt64
  dataLength : UInt32
  iov : List TransSgeIov
  iov_ne_nil : iov ≠ []
  iov_length_le : iov.length ≤ netSgeMaxIov

/-- The only element of a request that is not scattered. -/
def LocalRequest.first (req : LocalRequest) : TransSgeIov := req.iov.head req.iov_ne_nil

/-- What is loaded, copied, overwritten and sent, in the order in which it
happens; and what becomes of queue space, of context objects and of the
request an acknowledgement is for. -/
inductive Effect where
  | load (address : UInt64) (count : ℕ)
  | copy (dest src : UInt64) (count : ℕ)
  | zero (dest : UInt64) (count : ℕ)
  /-- An acknowledgement is handed to the socket, with the memory that
  follows its header. -/
  | post (op : SockOpType) (header : SockTransHeader) (segments : List (UInt64 × ℕ))
  | takeQueueSpace
  | returnQueueSpace
  | takeOpCtx
  | returnOpCtx
  | takeSglCtx
  | removeOpCtx (seqNo : UInt32)
  | newRequest
  | oneSideDone (seqNo : UInt32)

/-- What a handler has done and what it returns. -/
structure Reaction where
  effects : List Effect
  result : SResult

/-- What a handler finds outside the frame. -/
structure Worker where
  /-- `UpContext()` of the socket. -/
  upContext : UInt64
  /-- The socket the frame has come over. -/
  sock : UInt64
  ranges : RangeCache
  requests : UInt32 → Option LocalRequest
  /-- Whether `mOpCtxInfoPool` and `mSglCtxInfoPool` have an object left. -/
  opCtxLeft : Bool
  sglCtxLeft : Bool
  calcHeaderCrc32 : SockTransHeader → UInt32
  /-- What the socket, the epoll and the user's handlers return. -/
  postResult : SResult
  epollResult : SResult
  newRequestResult : SResult
  oneSideDoneResult : SResult

/-- A received frame: its header and its body, which is as long as the
header says and lies in memory from `dataAddress` on. -/
structure OpCtx where
  header : SockTransHeader
  dataAddress : UInt64
  body : List UInt8
  length_body : body.length = header.dataLength.toNat
  dataEnd_lt : dataAddress.toNat + body.length < 2 ^ 64

namespace OpCtx

/-- `opCtx.dataSize`, as a `size_t`. -/
def dataSize (c : OpCtx) : ℕ := c.header.dataLength.toNat

/-- The element at an offset of the body. -/
def iovAt (c : OpCtx) (off : ℕ) : TransSgeIov := TransSgeIov.decode c.body off

/-- The number of elements a scattered request begins with. -/
def iovCount (c : OpCtx) : UInt16 := .ofNat (leField c.body 0 sizeofIovCount)

/-- The elements after their number. -/
def iovs (c : OpCtx) : List TransSgeIov :=
  (List.range c.iovCount.toNat).map fun i => c.iovAt (sizeofIovCount + sizeofIov * i)

/-- Where the data of a scattered request begins in the body. -/
def dataOffset (c : OpCtx) : ℕ := sizeofIovCount + sizeofIov * c.iovCount.toNat

end OpCtx

/-- The sum of the sizes, as a `uint32_t`. -/
def sizeSum : List TransSgeIov → UInt32
  | [] => 0
  | iov :: rest => iov.size + sizeSum rest

/-! ## The handlers -/

section Handlers

variable (w : Worker) (c : OpCtx)

/-- `Validate` on the remote address of an element. -/
def Worker.valid (iov : TransSgeIov) : Bool :=
  w.ranges.validate iov.rKey iov.rAddress iov.size.toUInt64

/-- The header of an acknowledgement, with its checksum. -/
def Worker.ackHeader (flags : UInt16) (dataLength : UInt32) : SockTransHeader :=
  let header : SockTransHeader :=
    { flags := flags, seqNo := c.header.seqNo, dataLength := dataLength }
  { header with headerCrc := w.calcHeaderCrc32 header }

/-- The way out of a handler that answers, before it has a context
object. -/
def reject (done : List Effect) (code : SResult) : Reaction := ⟨done ++ [.returnQueueSpace], code⟩

/-- The way out with an operation context and no scatter context. -/
def rejectCtx (done : List Effect) (code : SResult) : Reaction :=
  ⟨done ++ [.takeOpCtx, .returnQueueSpace, .returnOpCtx], code⟩

/-- The end of the four handlers that answer: the acknowledgement is handed
to the socket, which has taken it into its queue, has sent it, or has
failed. -/
def Worker.finishPost (done : List Effect) (op : SockOpType)
    (header : SockTransHeader) (segments : List (UInt64 × ℕ)) : Reaction :=
  let done := done ++ [.takeOpCtx, .takeSglCtx, .post op header segments]
  if w.postResult = ssSockSendEagain then
    ⟨done, w.epollResult⟩
  else
    ⟨done ++ [.returnQueueSpace, .returnOpCtx], if w.postResult = ssOk then ssOk
      else if w.epollResult = ssOk then w.postResult
      else w.epollResult⟩

/-- `SockWorker::PostReadAck`. -/
def Worker.postReadAck : Reaction :=
  if w.upContext = 0 then ⟨[], ssError⟩
  else if c.dataSize < sizeofIov then reject [.takeQueueSpace] ssParamInvalid
  else
    let rawIov := c.iovAt 0
    let done : List Effect := [.takeQueueSpace, .load c.dataAddress sizeofIov]
    if !w.valid rawIov then reject done nnInvalidLkey
    else if !w.opCtxLeft then reject done ssCtxFull
    else if !w.sglCtxLeft then rejectCtx done ssCtxFull
    else
      w.finishPost done .readAck (w.ackHeader c 4 rawIov.size)
        [(rawIov.rAddress, rawIov.size.toNat)]

/-- `SockWorker::CheckIovLen`. -/
def OpCtx.checkIovLen : Bool :=
  if c.dataSize < sizeofIovCount then false
  else if c.iovCount = 0 ∨ c.iovCount > 4 then false
  else decide (¬c.dataSize < c.dataOffset)

/-- The loads of `CheckIovLen` and of a handler that goes through the
elements after it. -/
def OpCtx.iovLoads : List Effect :=
  if c.dataSize < sizeofIovCount then []
  else if c.checkIovLen then [.load c.dataAddress c.dataOffset]
  else [.load c.dataAddress sizeofIovCount]

/-- `SockWorker::PostReadSglAck`. -/
def Worker.postReadSglAck : Reaction :=
  if w.upContext = 0 then ⟨[], ssError⟩
  else
    let done : List Effect := .takeQueueSpace :: c.iovLoads
    if !c.checkIovLen then reject done ssParamInvalid
    else if !c.iovs.all w.valid then reject done nnInvalidLkey
    else if !w.opCtxLeft then reject done ssCtxFull
    else if !w.sglCtxLeft then rejectCtx done ssCtxFull
    else
      w.finishPost done .sglReadAck
        (w.ackHeader c 8 (c.header.dataLength + sizeSum c.iovs))
        (c.iovs.map fun iov => (iov.rAddress, iov.size.toNat))

/-- The effect of one `memcpy_s`. -/
def CopyResult.effects (dest src : UInt64) (count : ℕ) : CopyResult → List Effect
  | .copied => [.copy dest src count]
  | .reset => [.zero dest count]
  | .same | .refused => []

/-- The loop of the two handlers that copy element after element: check the
element, copy `size` bytes from the running offset, advance the 32-bit
offset. The loop ends with the code of its first failure, if any. -/
def copyLoop (valid : TransSgeIov → Bool) (dest : TransSgeIov → UInt64) (data : UInt64) :
    UInt32 → List TransSgeIov → List Effect × Option SResult
  | _, [] => ([], none)
  | copyOffset, iov :: rest =>
    if !valid iov then ([], some nnInvalidLkey)
    else
      let src := data + copyOffset.toUInt64
      let r := memcpyS (dest iov) iov.size.toUInt64 src iov.size.toUInt64
      let effects := r.effects (dest iov) src iov.size.toNat
      if !r.ok then (effects, some nnInvalidParam)
      else
        let later := copyLoop valid dest data (copyOffset + iov.size) rest
        (effects ++ later.1, later.2)

namespace Worker

/-- `SockWorker::PostWriteAck`. -/
def postWriteAck : Reaction :=
  if w.upContext = 0 then ⟨[], ssError⟩
  else if c.dataSize < sizeofIov then reject [.takeQueueSpace] ssParamInvalid
  else
    let rawIov := c.iovAt 0
    let done : List Effect := [.takeQueueSpace, .load c.dataAddress sizeofIov]
    if !w.valid rawIov then reject done nnInvalidLkey
    else
      let src := c.dataAddress + UInt64.ofNat sizeofIov
      let r := memcpyS rawIov.rAddress rawIov.size.toUInt64 src rawIov.size.toUInt64
      let done := done ++ r.effects rawIov.rAddress src rawIov.size.toNat
      if !r.ok then reject done ssParamInvalid
      else if !w.opCtxLeft then reject done ssParamInvalid
      else if !w.sglCtxLeft then rejectCtx done ssCtxFull
      else w.finishPost done .writeAck (w.ackHeader c 6 c.header.dataLength) []

/-- `SockWorker::PostWriteSglAck`. -/
def postWriteSglAck : Reaction :=
  if w.upContext = 0 then ⟨[], ssError⟩
  else
    let done : List Effect := .takeQueueSpace :: c.iovLoads
    if !c.checkIovLen then reject done ssParamInvalid
    else if c.dataSize < c.dataOffset + (sizeSum c.iovs).toNat then reject done ssParamInvalid
    else
      let data := c.dataAddress + UInt64.ofNat c.dataOffset
      let r := copyLoop w.valid TransSgeIov.rAddress data 0 c.iovs
      let done := done ++ r.1
      match r.2 with
      | some code => reject done code
      | none =>
        if !w.opCtxLeft then reject done ssParamInvalid
        else if !w.sglCtxLeft then rejectCtx done ssParamInvalid
        else w.finishPost done .sglWriteAck (w.ackHeader c 10 c.header.dataLength) []

/-- The beginning of the four handlers of acknowledgements: the request is
taken out by its sequence number and must be one of this socket. -/
def withRequest (k : LocalRequest → Reaction) : Reaction :=
  if w.upContext = 0 then ⟨[], ssError⟩
  else
    match w.requests c.header.seqNo with
    | none => ⟨[.removeOpCtx c.header.seqNo], ssParamInvalid⟩
    | some req =>
      if req.sock ≠ w.sock then ⟨[.removeOpCtx c.header.seqNo], ssParamInvalid⟩
      else
        let r := k req
        ⟨.removeOpCtx c.header.seqNo :: r.effects, r.result⟩

/-- `SockWorker::PostReadAckHandle`. -/
def postReadAckHandle : Reaction :=
  w.withRequest c fun req =>
    let iov := req.first
    if iov.size ≠ c.header.dataLength then ⟨[], ssParamInvalid⟩
    else
      let r := memcpyS iov.lAddress iov.size.toUInt64 c.dataAddress iov.size.toUInt64
      let done := r.effects iov.lAddress c.dataAddress iov.size.toNat
      if !r.ok then ⟨done, ssParamInvalid⟩
      else ⟨done ++ [.oneSideDone c.header.seqNo], w.oneSideDoneResult⟩

/-- `SockWorker::PostReadSglAckHandle`. -/
def postReadSglAckHandle : Reaction :=
  w.withRequest c fun req =>
    if c.dataSize < sizeofIovCount then ⟨[], ssParamInvalid⟩
    else if c.iovCount = 0 ∨ c.iovCount > 4 ∨ c.iovCount.toNat ≠ req.iov.length then
      ⟨[.load c.dataAddress sizeofIovCount], ssParamInvalid⟩
    else if c.dataSize < c.dataOffset then
      ⟨[.load c.dataAddress sizeofIovCount], ssParamInvalid⟩
    else if req.dataLength + sizeSum c.iovs ≠ c.header.dataLength then
      ⟨[.load c.dataAddress c.dataOffset], ssParamInvalid⟩
    else
      let data := c.dataAddress + UInt64.ofNat c.dataOffset
      let r := copyLoop (fun _ => true) TransSgeIov.lAddress data 0 req.iov
      let done := .load c.dataAddress c.dataOffset :: r.1
      match r.2 with
      | some code => ⟨done, code⟩
      | none => ⟨done ++ [.oneSideDone c.header.seqNo], w.oneSideDoneResult⟩

/-- `SockWorker::PostWriteAckHandle` and
`SockWorker::PostWriteSglAckHandle`, which are the same. -/
def postWriteAckHandle : Reaction :=
  w.withRequest c fun req =>
    if req.dataLength ≠ c.header.dataLength then ⟨[], ssParamInvalid⟩
    else ⟨[.oneSideDone c.header.seqNo], w.oneSideDoneResult⟩

/-- **`SockWorker::HandleReceiveCtx`.** -/
def handleReceiveCtx : Reaction :=
  match c.header.kind with
  | some .twoSide | some .twoSideSgl => ⟨[.newRequest], w.newRequestResult⟩
  | some .read => w.postReadAck c
  | some .readAck => w.postReadAckHandle c
  | some .readSgl => w.postReadSglAck c
  | some .readSglAck => w.postReadSglAckHandle c
  | some .write => w.postWriteAck c
  | some .writeAck | some .writeSglAck => w.postWriteAckHandle c
  | some .writeSgl => w.postWriteSglAck c
  | some .replyRequired | none => ⟨[], ssParamInvalid⟩

end Worker

end Handlers

end Sock
