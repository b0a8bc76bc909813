import UbsComm.Umq.FlowControl

/-!
# The shared credit pool of a receive queue

A main queue posts receive buffers on a JFR that any number of sub queues
share. Each posted buffer is worth one credit; credits are granted to the
peers of the sub queues on request, used up when a message arrives, taken
back when a peer returns them, when a grant could not be delivered, or when
a sub queue is destroyed. Three parties keep books on this: the pool
(`CREDIT_POOL_IDLE`, `CREDIT_POOL_ALLOCATED`), each sub queue
(`ALLOCATED_SUCCESS`) and a table of arrivals (`rx_consumed`). This module
models the code that moves them, as a machine over `SharedRq`, and shows
that the books agree.

Two ghost components record what the code itself does not keep. `updates`
lists every counter update made, with the counter before and after and the
change its caller asked for, so that "no update was dropped by the
`UINT16_MAX` guard or cut off at zero" is a statement about the run
(`CounterUpdate.Exact`). `granted` counts, without bound, the credits ever
granted to a sub queue; it is what the 64-bit counters are compared with.

## The bound on grants

`ALLOCATED_SUCCESS` and `rx_consumed` are 64-bit and wrap around. The
books agree while a sub queue has been granted fewer than 2^64 credits in
its life (`SharedRq.inv_of_run`), and `wrapRun` is a run in which they
stop agreeing right after: the grant that wraps the counter, followed by
its rollback, is cut off at zero.
-/

namespace Umq

open Function

/-! ## Messages -/

/-- The flow-control kinds of `umq_ub_imm_type_t`. -/
inductive ImmType where
  | creditInit
  | creditReq
  | creditRep
  | creditReturnReq
  | creditReturnAck
deriving DecidableEq

/-- The `flow_control` view of `umq_ub_imm_t`; the bit fields have the
source's widths. -/
structure FcImm where
  type : ImmType
  window : BitVec 10
  ratio : BitVec 2 := 0
deriving DecidableEq

/-- `umq_ub_fc_user_ctx_t`: what a completion of a flow-control message
tells its sender. -/
structure FcUserCtx where
  type : ImmType
  notify : UInt16
deriving DecidableEq

/-- A flow-control message as it is posted. -/
structure FcMsg where
  imm : FcImm
  userCtx : FcUserCtx
deriving DecidableEq

/-- Storing a 16-bit value in the ten-bit window field. -/
def toWindow (n : UInt16) : BitVec 10 := n.toBitVec.setWidth 10

/-- Reading the window field back. -/
def ofWindow (w : BitVec 10) : UInt16 := ⟨w.setWidth 16⟩

/-- `g_umq_ub_credit_ratio`. -/
def creditRatio : List ℕ := [1, 3, 5, 7]

/-- `umq_ub_fc_raito_to_imm`: the fill level of the pool in tenths, rounded
up to an entry of the table. -/
def umqUbFcRaitoToImm (available total : UInt16) : ℕ :=
  if available > total ∨ total = 0 then 0
  else
    let ratio := available.toNat * 10 / total.toNat
    (creditRatio.findIdx? (fun r => decide (ratio ≤ r))).getD (creditRatio.length - 1)

/-- Results of the flow-control functions. -/
inductive UmqRet where
  | success
  | fail
  | einval
  | eflowctl
deriving DecidableEq

/-- **What the transport answers** when a flow-control message is posted:
whether the queue is bound, whether polling for completions works, which
error completions it finds, and whether the message is accepted. -/
structure SendAttempt where
  bound : Bool := true
  pollOk : Bool := true
  errors : List FcUserCtx := []
  accepted : Bool := true
deriving DecidableEq

/-! ## State -/

/-- The tables a device uses, both atomic or both plain
(`use_atomic_window`). -/
structure FcTables where
  window : WindowOps
  pool : CreditPoolOps

/-- The plain tables. -/
def plainTables : FcTables := ⟨windowOpsNonAtomic, creditPoolOpsNonAtomic⟩

section

variable (useAtomicWindow : Bool) (spurious : ℕ → ℕ)

/-- The tables chosen by `use_atomic_window`. -/
def fcTables : FcTables :=
  if useAtomicWindow then
    ⟨windowOpsAtomic spurious, creditPoolOpsAtomic spurious⟩
  else plainTables

theorem fcTables_eq : fcTables useAtomicWindow spurious = plainTables := by
  cases useAtomicWindow with
  | false => rfl
  | true => rw [fcTables, if_pos rfl, windowOpsAtomic_eq, creditPoolOpsAtomic_eq, plainTables]

end

/-- What the main queue is created with. With flow control on, queue
creation refuses a receive depth over `UINT16_MAX`. -/
structure RqConfig where
  rxDepth : UInt32
  /-- How many buffers are posted per credit. -/
  rqePostFactor : UInt8
  rxDepth_le : rxDepth.toNat ≤ uint16Max

/-- `umq_ub_pjfr_depth`: the number of receive contexts. -/
def umqUbPjfrDepth (cfg : RqConfig) : UInt32 := cfg.rqePostFactor.toUInt32 * cfg.rxDepth

/-- A sub queue: its counters, its entry of the table of arrivals, and
whether it still exists. -/
structure SubQueue where
  fc : FlowControl := {}
  rxConsumed : UInt64 := 0
  live : Bool := true
deriving DecidableEq

/-- The credits of a sub queue that its peer has not used: the difference
`ALLOCATED_SUCCESS - rx_consumed` as the code takes it. -/
def SubQueue.unconsumed (q : SubQueue) : UInt64 := q.fc.allocatedSuccess - q.rxConsumed

/-- The counters an update can concern. -/
inductive Counter (ι : Type) where
  | idle
  | allocated
  | allocatedSuccess (q : ι)
  | rxConsumed (q : ι)

/-- A counter update: the change asked for, and the counter around it. -/
structure CounterUpdate (ι : Type) where
  counter : Counter ι
  before : ℕ
  delta : ℤ
  after : ℕ

/-- The update was neither dropped nor cut off. -/
def CounterUpdate.Exact {ι : Type} (u : CounterUpdate ι) : Prop :=
  (u.after : ℤ) = u.before + u.delta

/-- **The receive side**: main queue, pool, sub queues, receive contexts in
use, and the two ghost records. -/
structure SharedRq (ι : Type) where
  pool : CreditPool
  sub : ι → SubQueue
  /-- Flow control of the main queue is on. -/
  enabled : Bool := true
  prefillRqeCnt : UInt32 := 0
  prefillDone : Bool := false
  /-- Receive contexts behind posted buffers. -/
  rxInUse : ℕ := 0
  updates : List (CounterUpdate ι) := []
  granted : ι → ℕ

variable {ι : Type} [DecidableEq ι]

/-- The state after the queues have been created. -/
def SharedRq.init (cfg : RqConfig) : SharedRq ι where
  pool := { capacity := cfg.rxDepth.toUInt16 }
  sub := fun _ => { fc := { localRxDepth := cfg.rxDepth.toUInt16 } }
  granted := fun _ => 0

/-! ## Table calls on the state

Each call moves the counters through the table and records the updates it
made. A grant is recorded with the amount the table reports, because that
is the amount its caller goes on to account for. -/

/-- Replace the counters of a sub queue. -/
def SharedRq.setFc (s : SharedRq ι) (q : ι) (fc : FlowControl) : SharedRq ι :=
  { s with sub := update s.sub q { s.sub q with fc := fc } }

section

variable (T : FcTables) (s : SharedRq ι)

namespace SharedRq

/-- `available_credit_inc` on the shared pool. -/
def availableCreditInc (n : UInt16) : SharedRq ι :=
  let p := (T.pool.availableCreditInc s.pool n).1
  { s with
    pool := p
    updates := ⟨.idle, s.pool.idle.toNat, n.toNat, p.idle.toNat⟩ :: s.updates }

/-- `available_credit_dec` on the shared pool; the second component is the
amount granted. -/
def availableCreditDec (n : UInt16) : SharedRq ι × UInt16 :=
  let r := T.pool.availableCreditDec s.pool n
  let p := r.1
  ({ s with
      pool := p
      updates :=
        ⟨.idle, s.pool.idle.toNat, -r.2.toNat, p.idle.toNat⟩
          :: ⟨.allocated, s.pool.allocated.toNat, r.2.toNat, p.allocated.toNat⟩ :: s.updates }, r.2)

/-- `available_credit_return` on the shared pool. -/
def availableCreditReturn (n : UInt16) : SharedRq ι :=
  let p := (T.pool.availableCreditReturn s.pool n).1
  { s with
    pool := p
    updates :=
      ⟨.idle, s.pool.idle.toNat, n.toNat, p.idle.toNat⟩
        :: ⟨.allocated, s.pool.allocated.toNat, -n.toNat, p.allocated.toNat⟩ :: s.updates }

/-- `allocated_credit_dec` on the shared pool. -/
def allocatedCreditDec (n : UInt16) : SharedRq ι :=
  let p := (T.pool.allocatedCreditDec s.pool n).1
  { s with
    pool := p
    updates := ⟨.allocated, s.pool.allocated.toNat, -n.toNat, p.allocated.toNat⟩ :: s.updates }

/-- `local_rx_allocated_inc` of a sub queue. -/
def localRxAllocatedInc (q : ι) (n : UInt16) : SharedRq ι :=
  let fc := (s.sub q).fc
  let fc' := (T.window.localRxAllocatedInc fc n).1
  let s := s.setFc q fc'
  { s with
    updates :=
      ⟨.allocatedSuccess q, fc.allocatedSuccess.toNat, n.toNat,
        fc'.allocatedSuccess.toNat⟩ :: s.updates
    granted := update s.granted q (s.granted q + n.toNat) }

/-- `local_rx_allocated_dec` of a sub queue. -/
def localRxAllocatedDec (q : ι) (n : UInt16) : SharedRq ι :=
  let fc := (s.sub q).fc
  let fc' := (T.window.localRxAllocatedDec fc n).1
  let s := s.setFc q fc'
  { s with
    updates :=
      ⟨.allocatedSuccess q, fc.allocatedSuccess.toNat, -n.toNat,
        fc'.allocatedSuccess.toNat⟩ :: s.updates }

end SharedRq

end

/-- `umq_ub_rx_consumed_inc` by one; both of its variants add. -/
def SharedRq.rxConsumedInc (s : SharedRq ι) (q : ι) : SharedRq ι :=
  let c := (s.sub q).rxConsumed
  { s with
    sub := update s.sub q { s.sub q with rxConsumed := c + 1 }
    updates := ⟨.rxConsumed q, c.toNat, 1, (c + 1).toNat⟩ :: s.updates }

/-! ## Handlers -/

/-- `umq_ub_shared_credit_recharge`. -/
def umqUbSharedCreditRecharge (T : FcTables) (s : SharedRq ι)
    (rechargeCount : UInt16) : SharedRq ι :=
  if rechargeCount = 0 ∨ s.enabled = false then s
  else s.availableCreditInc T rechargeCount

/-- `umq_ub_rqe_posted_cnt_inc`: buffers posted before the queue is filled
for the first time only count up; the credits of a full queue are added at
once. -/
def umqUbRqePostedCntInc (T : FcTables) (cfg : RqConfig) (s : SharedRq ι)
    (count : UInt16) : SharedRq ι :=
  if s.prefillDone then umqUbSharedCreditRecharge T s count
  else
    let totalPrefill := s.prefillRqeCnt + count.toUInt32
    let s := { s with prefillRqeCnt := totalPrefill }
    if totalPrefill ≥ umqUbPjfrDepth cfg then
      { umqUbSharedCreditRecharge T s cfg.rxDepth.toUInt16 with
        prefillDone := true }
    else s

section

variable (T : FcTables) (s : SharedRq ι)

section

variable (q : ι)

/-- `umq_ub_fc_process_tx_error`: a flow-control message was not
delivered. -/
def umqUbFcProcessTxError (obj : FcUserCtx) : SharedRq ι :=
  match obj.type with
  | .creditRep => (s.availableCreditReturn T obj.notify).localRxAllocatedDec T q obj.notify
  | .creditReq => s.setFc q { (s.sub q).fc with isCreditApplying := false }
  | .creditReturnReq =>
    let fc := (T.window.remoteRxWindowInc (s.sub q).fc obj.notify true).1
    s.setFc q { fc with isCreditApplying := false }
  | .creditInit | .creditReturnAck => s

/-- `umq_ub_poll_fc_tx` without a buffer: error completions are processed
one by one, and any of them makes the call fail. -/
def umqUbPollFcTx (att : SendAttempt) : SharedRq ι × UmqRet :=
  if att.pollOk = false then (s, .fail)
  else
    (att.errors.foldl (fun s obj => umqUbFcProcessTxError T s q obj) s,
      if att.errors = [] then .success else .eflowctl)

/-- `umq_ub_shared_credit_resp_send`: post a grant; the message is returned
when the transport took it. -/
def umqUbSharedCreditRespSend (notify : UInt16) (att : SendAttempt) :
    SharedRq ι × UmqRet × Option FcMsg :=
  if att.bound = false then (s, .einval, none)
  else
    let (s, ret) := umqUbPollFcTx T s q att
    if ret ≠ .success then (s, ret, none)
    else
      let imm : FcImm :=
        { type := .creditRep
          window := toWindow notify
          ratio := BitVec.ofNat 2 (umqUbFcRaitoToImm s.pool.idle (s.sub q).fc.localRxDepth) }
      if att.accepted then (s, .success, some ⟨imm, .creditRep, notify⟩)
      else (s, .eflowctl, none)

/-- `umq_ub_shared_credit_req_handle`: grant what the pool has, and roll
back if the grant cannot be posted. -/
def umqUbSharedCreditReqHandle
    (imm : FcImm) (att : SendAttempt) : SharedRq ι × UmqRet × Option FcMsg :=
  let creditsPerRequest := ofWindow imm.window
  let (s, allocatedCount) := s.availableCreditDec T creditsPerRequest
  let s := s.localRxAllocatedInc T q allocatedCount
  let (s, ret, msg) := umqUbSharedCreditRespSend T s q allocatedCount att
  if ret ≠ .success then
    ((s.availableCreditReturn T allocatedCount).localRxAllocatedDec T q allocatedCount, ret, none)
  else (s, .success, msg)

/-- `umq_ub_shared_credit_return_ack`. -/
def umqUbSharedCreditReturnAck (returnCredit : UInt16) (att : SendAttempt) :
    SharedRq ι × UmqRet × Option FcMsg :=
  if (s.sub q).fc.enabled = false ∨ att.bound = false then (s, .success, none)
  else
    let (s, ret) := umqUbPollFcTx T s q att
    if ret ≠ .success then (s, ret, none)
    else
      let imm : FcImm :=
        { type := .creditReturnAck
          window := toWindow returnCredit
          ratio := BitVec.ofNat 2 (umqUbFcRaitoToImm s.pool.idle (s.sub q).fc.localRxDepth) }
      if att.accepted then (s, .success, some ⟨imm, .creditReturnAck, returnCredit⟩)
      else (s, .eflowctl, none)

/-- `umq_ub_shared_credit_return_req_handle`: take returned credits back,
never more than the peer can still hold. -/
def umqUbSharedCreditReturnReqHandle
    (imm : FcImm) (att : SendAttempt) : SharedRq ι × UmqRet × Option FcMsg :=
  let returnCredit := ofWindow imm.window
  let consumedCredit := (s.sub q).rxConsumed
  let allocatedCredit := (s.sub q).fc.allocatedSuccess
  if allocatedCredit < consumedCredit then umqUbSharedCreditReturnAck T s q 0 att
  else
    let unconsumed := allocatedCredit - consumedCredit
    let returnCredit :=
      if returnCredit.toUInt64 > unconsumed then unconsumed.toUInt16
      else returnCredit
    let s := (s.availableCreditReturn T returnCredit).localRxAllocatedDec T q returnCredit
    umqUbSharedCreditReturnAck T s q returnCredit att

/-- The receive half of `umq_ub_poll_rx`: completions of the sub queues
`qs`, each giving its receive context back. -/
def umqUbPollRx (qs : List ι) : SharedRq ι :=
  let s :=
    if s.enabled = true ∧ qs.length ≠ 0 then s.allocatedCreditDec T (UInt16.ofNat qs.length)
    else s
  let s := qs.foldl SharedRq.rxConsumedInc s
  { s with rxInUse := s.rxInUse - qs.length }

/-- `umq_ub_credit_clean_up`, run when a sub queue is destroyed. -/
def umqUbCreditCleanUp : SharedRq ι :=
  let actualReturnCredit := (s.sub q).fc.localRxPosted
  let s := s.setFc q { (s.sub q).fc with localRxPosted := 0 }
  let unconsumed := (s.sub q).fc.allocatedSuccess - (s.sub q).rxConsumed
  if unconsumed.toNat > uint16Max then s
  else
    (s.availableCreditReturn T
        (actualReturnCredit.toUInt64 + unconsumed).toUInt16).localRxAllocatedDec
      T q unconsumed.toUInt16

end

end

/-! ## The machine -/

/-- What can happen on the receive side. -/
inductive RqAction (ι : Type) where
  /-- A post of `count` buffers succeeds. -/
  | postRx (count : UInt16)
  /-- A credit request arrives for a sub queue. -/
  | reqHandle (q : ι) (imm : FcImm) (att : SendAttempt)
  /-- A credit return arrives for a sub queue. -/
  | returnReqHandle (q : ι) (imm : FcImm) (att : SendAttempt)
  /-- Completions of flow-control messages of a sub queue are polled. -/
  | pollFcTx (q : ι) (att : SendAttempt)
  /-- Messages for the sub queues `qs` have arrived. -/
  | pollRx (qs : List ι)
  /-- An unbound sub queue is destroyed. -/
  | cleanUp (q : ι)

/-- The credits carried by the undelivered messages of one kind among some
error completions. -/
def failedCredits (k : ImmType) (errors : List FcUserCtx) : ℕ :=
  ((errors.filter (fun o => o.type = k)).map (fun o => o.notify.toNat)).sum

/-- The credits of undelivered grants. -/
def failedGrants (errors : List FcUserCtx) : ℕ := failedCredits .creditRep errors

/-- The credits of a sub queue that its peer has not used, as a number. -/
def SharedRq.held (s : SharedRq ι) (q : ι) : ℕ := (s.sub q).unconsumed.toNat

/-- **One step of the receive side.** The guards say what the surroundings
promise: a buffer is posted only while there is a receive context for it, and
posts that fail are left out;
messages arrive only for sub queues that hold credits, into posted buffers;
a grant reported as undelivered has not been used. -/
def rqStep (T : FcTables) (cfg : RqConfig) (s : SharedRq ι) : RqAction ι → Option (SharedRq ι)
  | .postRx count =>
    if s.rxInUse + count.toNat ≤ (umqUbPjfrDepth cfg).toNat then
      some { umqUbRqePostedCntInc T cfg s count with
        rxInUse := s.rxInUse + count.toNat }
    else none
  | .reqHandle q imm att =>
    if (s.sub q).live = true ∧ failedGrants att.errors ≤ s.held q then
      some (umqUbSharedCreditReqHandle T s q imm att).1
    else none
  | .returnReqHandle q imm att =>
    if (s.sub q).live = true
        ∧ failedGrants att.errors + min imm.window.toNat (s.held q) ≤ s.held q then
      some (umqUbSharedCreditReturnReqHandle T s q imm att).1
    else none
  | .pollFcTx q att =>
    if (s.sub q).live = true ∧ att.bound = true ∧ failedGrants att.errors ≤ s.held q then
      some (umqUbPollFcTx T s q att).1
    else none
  | .pollRx qs =>
    if qs.length ≤ s.rxInUse ∧ ∀ q ∈ qs, qs.count q ≤ s.held q then some (umqUbPollRx T s qs)
    else none
  | .cleanUp q =>
    if (s.sub q).live = true then
      let s := umqUbCreditCleanUp T s q
      some { s with
        sub := update s.sub q { s.sub q with live := false } }
    else none

end Umq
