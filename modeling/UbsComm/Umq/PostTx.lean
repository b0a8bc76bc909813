import UbsComm.Umq.CreditProtocol

/-!
# Posting a chain of buffers

`umq_ub_post_tx` makes work requests out of a chain of buffers, takes room in the
peer's window for them, and hands them to the transport. A request is made of as
many buffers as the total size in its first one says.

The result of the model has the return code and the bad buffer, and in addition
which requests were given to the transport, which of them it has taken, how much
of the window was taken for them, and what the requests for credits did to it: a
return of credits that has failed is found when a request is sent, and gives them
back.

Whether requests consume a receive buffer of the peer, and so need room in the
window, is one flag for all of them, which each overwrites (`lastConsumesRqe`).
-/

namespace Umq.PostTx

/-! ## Return codes -/

/-- The return codes, without their signs. -/
inductive TxRet where
  | success
  | fail
  | enodev
  | einval
  | enomem
  | eperm
  | eagain
  | etimeout
  | eexist
  | einprogress
  | etsegNonImported
  | eflowctl
  deriving DecidableEq

/-- A return code of the flow control. -/
def TxRet.ofUmqRet : UmqRet → TxRet
  | .success => .success
  | .fail => .fail
  | .einval => .einval
  | .eflowctl => .eflowctl

/-- What the transport answers. -/
inductive UrmaStatus where
  | success
  | fail
  | eagain
  | enomem
  | enoperm
  | etimeout
  | einval
  | eexist
  | einprogress
  | other
  deriving DecidableEq

/-- `umq_status_convert` -/
def umqStatusConvert : UrmaStatus → TxRet
  | .success => .success
  | .fail => .fail
  | .eagain => .eagain
  | .enomem => .enomem
  | .enoperm => .eperm
  | .etimeout => .etimeout
  | .einval => .einval
  | .eexist => .eexist
  | .einprogress => .einprogress
  | .other => .fail

/-! ## Buffers and requests -/

/-- `umq_opcode_t` -/
inductive UmqOpcode where
  | write
  | writeImm
  | read
  | send
  | sendImm
  | nop
  deriving DecidableEq

/-- The opcodes for which the peer needs a receive buffer. -/
def UmqOpcode.consumesRqe : UmqOpcode → Bool
  | .send | .sendImm | .writeImm => true
  | .write | .read | .nop => false

/-- What is read of a buffer, and of its `umq_buf_pro_t`. `dataHead` is the pool
of the buffer that `umq_data_to_head` finds for the data, if it finds one. -/
structure TxBuffer where
  /-- Where the buffer is. -/
  addr : ℕ
  /-- What is to be done. -/
  opcode : UmqOpcode
  /-- The size of the request, in its first buffer. -/
  totalDataSize : ℕ
  /-- The size of the data of this buffer. -/
  dataSize : ℕ
  /-- The buffer is a header only. -/
  mempoolWithoutData : Bool := false
  /-- The pool of the buffer. -/
  mempoolId : ℕ := 0
  dataHead : Option ℕ := none
  /-- The remote memory of a one-sided request, … -/
  remoteLength : ℕ := 0
  /-- … and its pool. -/
  remoteMempoolId : ℕ := 0

/-- A chain of different buffers. -/
structure TxChain where
  first : TxBuffer
  rest : List TxBuffer
  nodup : ((first :: rest).map TxBuffer.addr).Nodup
  ne_zero : ∀ b ∈ first :: rest, b.addr ≠ 0

/-- The buffers of a chain. -/
def TxChain.bufs (chain : TxChain) : List TxBuffer := chain.first :: chain.rest

/-- What is read of the queue. -/
structure TxQueue where
  bound : Bool := true
  creditRequestThreshold : UInt16 := 0
  maxTxSge : ℕ
  txBufSize : ℕ
  remoteRxBufSize : ℕ
  /-- `tseg_list[mempool_id]` is not null. -/
  tseg : ℕ → Bool
  enableImportRemoteMem : Bool
  /-- `umq_ub_tseg_lookup` finds the segment. -/
  importedTseg : ℕ → Bool

/-- `max_send_size` -/
def TxQueue.maxSendSize (queue : TxQueue) : ℕ :=
  if queue.txBufSize < queue.remoteRxBufSize then queue.txBufSize else queue.remoteRxBufSize

/-- A work request: its context, which is its first buffer, and its buffers. -/
structure TxWr where
  userCtx : ℕ
  opcode : UmqOpcode
  bufs : List ℕ
  deriving DecidableEq

/-- `QBUF_POOL_MEMPOOL_ID_MAX` -/
def qbufPoolMempoolIdMax : ℕ := 1023

/-- `UMQ_MAX_TSEG_NUM` -/
def umqMaxTsegNum : ℕ := 1024

/-- `UMQ_BATCH_SIZE` -/
def umqBatchSize : ℕ := 64

/-- The ways in which the loop over the buffers ends early. -/
inductive TxFault where
  | tooLong
  | tooManySges
  | noHead
  | notPooled
  | noTseg
  | sizeNegative
  | sizeLeft
  | fillWr (ret : TxRet)
  | tooManyWrs
  deriving DecidableEq

/-- The return code: `ret` is still `UMQ_SUCCESS` where a buffer is not from a
pool. -/
def TxFault.ret : TxFault → TxRet
  | .tooLong | .tooManySges | .noHead | .noTseg | .sizeNegative | .tooManyWrs => .einval
  | .notPooled => .success
  | .sizeLeft => .enomem
  | .fillWr ret => ret

/-- Whether `bad_qbuf` is set to the first buffer; it is null otherwise. -/
def TxFault.setsBad : TxFault → Bool
  | .noHead | .notPooled | .noTseg => false
  | .tooLong | .tooManySges | .sizeNegative | .sizeLeft | .fillWr _ | .tooManyWrs => true

section Build

variable (queue : TxQueue)

/-- The part of `umq_ub_fill_wr` about the remote memory. -/
def fillRemote (b : TxBuffer) (fits : Bool) : TxRet :=
  if queue.enableImportRemoteMem = false then .eperm
  else if fits = false then .einval
  else if umqMaxTsegNum ≤ b.remoteMempoolId then .etsegNonImported
  else if queue.importedTseg b.remoteMempoolId = false then .etsegNonImported
  else .success

/-- `umq_ub_fill_wr` -/
def umqUbFillWr (b : TxBuffer) : TxRet :=
  match b.opcode with
  | .read => fillRemote queue b (b.remoteLength ≤ b.totalDataSize)
  | .writeImm | .write => fillRemote queue b (b.totalDataSize ≤ b.remoteLength)
  | .sendImm | .send | .nop => .success

/-- The inner loop: the buffers that add up to `restSize`; what is missing, and
the buffers after them. -/
def addSges : (restSize sgeNum : ℕ) → List TxBuffer → Except TxFault (ℕ × List TxBuffer)
  | restSize, _, [] => .ok (restSize, [])
  | restSize, sgeNum, b :: bs =>
    if restSize = 0 then .ok (0, b :: bs)
    else if queue.maxTxSge ≤ sgeNum then .error .tooManySges
    else
      match if b.mempoolWithoutData then b.dataHead else some b.mempoolId with
      | none => .error .noHead
      | some mempoolId =>
        if mempoolId = qbufPoolMempoolIdMax then .error .notPooled
        else if queue.tseg mempoolId = false then .error .noTseg
        else if restSize < b.dataSize then .error .sizeNegative
        else addSges (restSize - b.dataSize) (sgeNum + 1) bs

/-- The loop over the chain, with so many requests still allowed. A request of size
zero takes no buffer, so that the loop comes to the same one again. -/
def buildWrs : ℕ → List TxBuffer → Except TxFault (List TxWr)
  | _, [] => .ok []
  | 0, _ :: _ => .error .tooManyWrs
  | left + 1, b :: bs =>
    if queue.maxSendSize < b.totalDataSize ∧ (b.opcode = .send ∨ b.opcode = .sendImm) then
      .error .tooLong
    else
      match addSges queue b.totalDataSize 0 (b :: bs) with
      | .error fault => .error fault
      | .ok (restSize, bs') =>
        if restSize ≠ 0 then .error .sizeLeft
        else if umqUbFillWr queue b ≠ .success then .error (.fillWr (umqUbFillWr queue b))
        else
          match buildWrs left bs' with
          | .error fault => .error fault
          | .ok wrs =>
            let taken := (b :: bs).take ((b :: bs).length - bs'.length)
            .ok (⟨b.addr, b.opcode, taken.map TxBuffer.addr⟩ :: wrs)

end Build

/-- `opcode_consume_rqe` after the loop: the last request decides. -/
def lastConsumesRqe (wrs : List TxWr) : Bool := wrs.foldl (fun _ wr => wr.opcode.consumesRqe) false

/-! ## The transport -/

/-- What `urma_post_jetty_send_wr` answers: the status, and which request is bad, if
it says so. -/
structure TxOutcome where
  status : UrmaStatus := .success
  badWr : Option ℕ := none

/-- The requests that are taken: all before the bad one, and none if the transport
does not say which is bad. -/
def TxOutcome.accepted (outcome : TxOutcome) (posted : List TxWr) : List TxWr :=
  if outcome.status = .success then posted
  else
    match outcome.badWr with
    | none => []
    | some k => if k < posted.length then posted.take k else []

/-- `bad_wr` -/
def TxOutcome.bad (outcome : TxOutcome) (posted : List TxWr) : Option TxWr :=
  outcome.badWr.bind (posted[·]?)

/-- `umq_ub_tx_failed_num` -/
def umqUbTxFailedNum : List TxWr → ℕ → ℕ
  | [], _ => 0
  | wr :: wrs, bad => if wr.userCtx = bad then wrs.length + 1 else umqUbTxFailedNum wrs bad

/-! ## The post -/

/-- What a call has done. -/
structure PostTxResult (κ : Type) where
  state : SharedRq κ
  ret : TxRet
  badQbuf : ℕ
  posted : List TxWr := []
  handed : List TxWr := []
  taken : ℕ := 0
  restored : Int := 0

section Post

variable {κ : Type} [DecidableEq κ] (T : FcTables) (queue : TxQueue) (s : SharedRq κ) (q : κ)

/-- What has come back to the window. -/
def gain (s t : SharedRq κ) (q : κ) : Int := (t.window q : Int) - s.window q

/-- `umq_ub_credit_check_and_request_send` -/
def umqUbCreditCheckAndRequestSend (att : SendAttempt) : SharedRq κ × UmqRet :=
  let fc := (s.sub q).fc
  if fc.enabled = false then (s, .success)
  else if fc.remoteRxWindow
      ≤ umqUbFcThreasholdModify queue.creditRequestThreshold fc.peerRatio.toUInt8 then
    let r := umqUbSharedCreditReqSend T s q { att with bound := queue.bound }
    (r.1, r.2.1)
  else (s, .success)

/-- Too few credits: a request for more, and the return code. -/
def requestMore (att : SendAttempt) : SharedRq κ × TxRet :=
  let r := umqUbSharedCreditReqSend T s q { att with bound := queue.bound }
  (r.1, if r.2.1 ≠ .success then .ofUmqRet r.2.1 else .eagain)

/-- The part of `umq_ub_post_tx` after the loop. -/
def postWrs (att : SendAttempt) (outcome : TxOutcome) (qbuf : ℕ) (wrs : List TxWr) :
    PostTxResult κ :=
  let opcodeConsumeRqe := lastConsumesRqe wrs
  let wrIndex := UInt16.ofNat wrs.length
  let dec := if opcodeConsumeRqe then umqUbWindowDec T s q wrIndex else (s, wrIndex)
  let maxTx := dec.2.toNat
  let taken := s.window q - dec.1.window q
  if maxTx = 0 then
    let more := requestMore T queue dec.1 q att
    { state := more.1, ret := more.2, badQbuf := qbuf, taken := taken,
      restored := gain dec.1 more.1 q }
  else
    let posted := wrs.take maxTx
    if outcome.status ≠ .success then
      let bad := ((outcome.bad posted).map TxWr.userCtx).getD qbuf
      let failed := UInt16.ofNat (umqUbTxFailedNum posted bad)
      let state := if opcodeConsumeRqe then umqUbWindowInc T dec.1 q failed else dec.1
      { state := state, ret := umqStatusConvert outcome.status, badQbuf := bad,
        posted := posted, handed := outcome.accepted posted, taken := taken }
    else if h : maxTx < wrs.length then
      let more := requestMore T queue dec.1 q att
      { state := more.1, ret := more.2, badQbuf := (wrs.get ⟨maxTx, h⟩).userCtx,
        posted := posted, handed := posted, taken := taken, restored := gain dec.1 more.1 q }
    else
      { state := dec.1, ret := .success, badQbuf := 0, posted := posted, handed := posted,
        taken := taken }

/-- `umq_ub_post_tx`; `att` and `att'` are what the transport does for the requests
for credits before and after the post. -/
def umqUbPostTx (att att' : SendAttempt) (outcome : TxOutcome) (chain : TxChain) : PostTxResult κ :=
  let qbuf := chain.first.addr
  if queue.bound = false then { state := s, ret := .enodev, badQbuf := qbuf }
  else
    let check := umqUbCreditCheckAndRequestSend T queue s q att
    let restored := gain s check.1 q
    if check.2 ≠ .success then
      { state := check.1, ret := .ofUmqRet check.2, badQbuf := qbuf, restored := restored }
    else
      match buildWrs queue umqBatchSize chain.bufs with
      | .error fault =>
        { state := check.1, ret := fault.ret, badQbuf := if fault.setsBad then qbuf else 0,
          restored := restored }
      | .ok wrs =>
        let r := postWrs T queue check.1 q att' outcome qbuf wrs
        { r with restored := restored + r.restored }

end Post

end Umq.PostTx
