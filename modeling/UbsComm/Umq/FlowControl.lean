import UbsComm.Lib.Execution

/-!
# Counters of the UB flow control and their two operation tables

The UB transport of UMQ lets a sender transmit only while it holds
**credits** of the receiver. A queue keeps its side of the accounting in a
`ub_flow_control` record (`FlowControl` here): the window it holds at its
peer, the credits it has handed to its peer, and statistics of both. The
receive buffers behind the credits are shared by all queues on one JFR,
whose free and handed-out credits sit in a `ub_credit_pool`
(`CreditPool`).

Every counter is moved through a table of function pointers, and there are
two such tables: one on compare-and-swap loops (`use_atomic_window`) and
one on plain loads and stores. They are separate code and classify
outcomes differently – the atomic pool increment by a success flag, the
plain one by comparing the result with the value before; the atomic window
decrement in one loop, the plain one by comparison and exchange. This
module models both tables and shows that, call for call, they are the same
functions (`creditPoolOpsAtomic_eq`, `windowOpsAtomic_eq`), whatever the
number of spurious failures of the weak compare-and-swap.

Counters are machine words: the 16-bit ones are guarded by the code
against overflow, the 64-bit ones wrap around.
-/

namespace Umq

/-- `UINT16_MAX`. -/
def uint16Max : ℕ := 65535

/-! ## State -/

/-- The part of `ub_flow_control` that the window operations and the
credit protocol read or write. `stats_u64` is indexed by an enumeration of
two names, which are fields here. -/
structure FlowControl where
  /-- Credits received from the peer, over the queue's life. -/
  totalRemoteRxReceived : UInt64 := 0
  /-- Credits spent on transmissions. -/
  totalRemoteRxConsumed : UInt64 := 0
  /-- Credits that arrived and did not fit the window. -/
  totalRemoteRxReceivedError : UInt64 := 0
  /-- Work requests held back for want of credits. -/
  totalFlowControlledWr : UInt64 := 0
  /-- `stats_u64[ALLOCATED_SUCCESS]`: credits handed to the peer and not
  taken back. -/
  allocatedSuccess : UInt64 := 0
  /-- `stats_u64[ALLOCATED_TOTAL]`: credits ever handed to the peer. -/
  allocatedTotal : UInt64 := 0
  /-- Credits waiting at the queue itself; zeroed by a clean-up. -/
  localRxPosted : UInt16 := 0
  /-- The window: credits of the peer this queue holds. -/
  remoteRxWindow : UInt16 := 0
  /-- Size of the next credit request. -/
  creditsPerRequest : UInt16 := 0
  /-- Upper bound of a credit request. -/
  maxCreditsRequest : UInt16 := 0
  /-- Share of the window given back when the queue is idle. -/
  returnRatio : UInt16 := 1
  /-- Fill level last reported by the peer, as a two-bit code. -/
  peerRatio : UInt16 := 0
  /-- Credits an idle queue keeps. -/
  minReservedCredit : UInt16 := 0
  /-- Receive depth of this queue. -/
  localRxDepth : UInt16 := 0
  /-- Idle time after which credits are given back. -/
  timeoutUs : UInt32 := 0
  /-- Whether the queue takes part in flow control at all. -/
  enabled : Bool := true
  /-- Whether a request or a return is outstanding. -/
  isCreditApplying : Bool := false
deriving DecidableEq

/-- The two 16-bit counters of a credit pool (`ub_credit_stat_u16`). -/
inductive CreditStatU16 where
  | idle
  | allocated
deriving DecidableEq

/-- `ub_credit_pool`: free and handed-out credits of one JFR, with their
statistics. -/
structure CreditPool where
  /-- `stats_u16[CREDIT_POOL_IDLE]`: free credits. -/
  idle : UInt16 := 0
  /-- `stats_u16[CREDIT_POOL_ALLOCATED]`: credits at the peers. -/
  allocated : UInt16 := 0
  /-- `stats_u64[CREDIT_POOL_IDLE_TOTAL]`. -/
  idleTotal : UInt64 := 0
  /-- `stats_u64[CREDIT_POOL_ALLOCATED_TOTAL]`. -/
  allocatedTotal : UInt64 := 0
  /-- `stats_u64[CREDIT_POOL_ERR_TOTAL]`. -/
  errTotal : UInt64 := 0
  /-- Receive depth of the main queue. -/
  capacity : UInt16 := 0
deriving DecidableEq

/-- Read a 16-bit counter of the pool. -/
def CreditPool.statU16 (pool : CreditPool) : CreditStatU16 → UInt16
  | .idle => pool.idle
  | .allocated => pool.allocated

/-- Write a 16-bit counter of the pool. -/
def CreditPool.setStatU16 (pool : CreditPool) (type : CreditStatU16) (v : UInt16) : CreditPool :=
  match type with
  | .idle => { pool with idle := v }
  | .allocated => { pool with allocated := v }

/-! ## Counters

The three loops below are the bodies of the compare-and-swap loops of the
atomic table; the window operations repeat the first two on their own
counter. -/

/-- One pass of a guarded 16-bit increment: leave the loop when the sum
does not fit, otherwise try to swap it in. The results are the value
reported and whether the addition was made. -/
def incPass (count before : UInt16) : CasPass UInt16 (UInt16 × Bool) :=
  if before.toNat + count.toNat > uint16Max then .leave (before, false)
  else .swap (before + count) (before + count, true)

/-- One pass of a 16-bit decrement that stops at zero, reporting what was
taken. -/
def decPass (count before : UInt16) : CasPass UInt16 UInt16 :=
  if before = 0 then .leave 0
  else
    let after := if before > count then before - count else 0
    .swap after (before - after)

/-- The same for a 64-bit counter. -/
def decPassU64 (count : UInt16) (before : UInt64) : CasPass UInt64 UInt64 :=
  if before = 0 then .leave 0
  else
    let after := if before > count.toUInt64 then before - count.toUInt64 else 0
    .swap after (before - after)

section

variable (spurious : ℕ) (pool : CreditPool) (count : UInt16) (type : CreditStatU16)

/-- `counter_inc_atomic_u16`: the pool, the value reported, and the
success flag. -/
def counterIncAtomicU16 : CreditPool × UInt16 × Bool :=
  let r := casLoop (incPass count) (pool.statU16 type) spurious
  (pool.setStatU16 type r.1, r.2)

/-- `counter_inc_atomic_u16_ignore_fail`. -/
def counterIncAtomicU16IgnoreFail : CreditPool × UInt16 :=
  let r := counterIncAtomicU16 spurious pool count type
  (r.1, r.2.1)

/-- `counter_dec_atomic_u16`. -/
def counterDecAtomicU16 : CreditPool × UInt16 :=
  let r := casLoop (decPass count) (pool.statU16 type) spurious
  (pool.setStatU16 type r.1, r.2)

end

/-- `counter_dec_atomic_u64`: the 64-bit difference is returned through a
16-bit result. -/
def counterDecAtomicU64 (spurious : ℕ) (counter : UInt64) (count : UInt16) : UInt64 × UInt16 :=
  let r := casLoop (decPassU64 count) counter spurious
  (r.1, r.2.toUInt16)

/-- `counter_dec_non_atomic_u64`. -/
def counterDecNonAtomicU64 (counter : UInt64) (count : UInt16) : UInt64 × UInt16 :=
  if counter ≥ count.toUInt64 then (counter - count.toUInt64, count)
  else (0, counter.toUInt16)

/-- `counter_inc_atomic_u64`. -/
def counterIncAtomicU64 (spurious : ℕ) (counter : UInt64) (count : UInt16) : UInt64 × UInt64 :=
  casLoop (fun before => .swap (before + count.toUInt64) (before + count.toUInt64)) counter spurious

section

variable (pool : CreditPool) (count : UInt16) (type : CreditStatU16)

/-- `counter_inc_non_atomic_u16`. -/
def counterIncNonAtomicU16 : CreditPool × UInt16 :=
  let before := pool.statU16 type
  if before.toNat + count.toNat > uint16Max then (pool, before)
  else (pool.setStatU16 type (before + count), before + count)

/-- `counter_dec_non_atomic_u16`. -/
def counterDecNonAtomicU16 : CreditPool × UInt16 :=
  let before := pool.statU16 type
  if before < count then (pool.setStatU16 type 0, before)
  else (pool.setStatU16 type (before - count), count)

end

/-! ## The two tables

`spurious i` is how often the `i`-th compare-and-swap loop of a call fails
without cause. -/

/-- `ub_flow_control_window_ops_t`: the operations on a queue's own
counters. -/
structure WindowOps where
  /-- Add received credits to the window; the flag marks a rollback of a
  return, which the statistics leave out. -/
  remoteRxWindowInc : FlowControl → UInt16 → Bool → FlowControl × UInt16
  /-- Take up to that many credits from the window; the flag marks a
  return, which the statistics leave out. -/
  remoteRxWindowDec : FlowControl → UInt16 → Bool → FlowControl × UInt16
  /-- Record credits handed to the peer. -/
  localRxAllocatedInc : FlowControl → UInt16 → FlowControl × UInt64
  /-- Take back credits handed to the peer. -/
  localRxAllocatedDec : FlowControl → UInt16 → FlowControl × UInt16

/-- `ub_credit_pool_ops_t`: the operations on the shared pool. -/
structure CreditPoolOps where
  /-- New free credits. -/
  availableCreditInc : CreditPool → UInt16 → CreditPool × UInt16
  /-- Hand out up to that many free credits. -/
  availableCreditDec : CreditPool → UInt16 → CreditPool × UInt16
  /-- Handed-out credits become free again. -/
  availableCreditReturn : CreditPool → UInt16 → CreditPool × UInt16
  /-- Handed-out credits have been used up. -/
  allocatedCreditDec : CreditPool → UInt16 → CreditPool × UInt16

section

variable (spurious : ℕ → ℕ) (fc : FlowControl)

/-- `remote_rx_window_inc_atomic`. -/
def remoteRxWindowIncAtomic (newWin : UInt16) (isReturnRollback : Bool) : FlowControl × UInt16 :=
  let before := fc.remoteRxWindow
  let r := casLoop (incPass newWin) before (spurious 0)
  let ret := r.2.1
  let fc := { fc with remoteRxWindow := r.1 }
  if isReturnRollback then (fc, ret)
  else if ret = before then
    ({ fc with totalRemoteRxReceivedError := fc.totalRemoteRxReceivedError + newWin.toUInt64 }, ret)
  else ({ fc with totalRemoteRxReceived := fc.totalRemoteRxReceived + newWin.toUInt64 }, ret)

/-- `remote_rx_window_dec_atomic`. -/
def remoteRxWindowDecAtomic (requiredWin : UInt16) (isReturn : Bool) : FlowControl × UInt16 :=
  let r := casLoop (decPass requiredWin) fc.remoteRxWindow (spurious 0)
  let ret := r.2
  let fc := { fc with remoteRxWindow := r.1 }
  if isReturn then (fc, ret)
  else
    let fc :=
      if ret < requiredWin then
        { fc with totalFlowControlledWr := fc.totalFlowControlledWr + (requiredWin - ret).toUInt64 }
      else fc
    let fc :=
      if ret > 0 then
        { fc with totalRemoteRxConsumed := fc.totalRemoteRxConsumed + ret.toUInt64 }
      else fc
    (fc, ret)

/-- `local_rx_allocated_inc_atomic`. -/
def localRxAllocatedIncAtomic (win : UInt16) : FlowControl × UInt64 :=
  let total := counterIncAtomicU64 (spurious 0) fc.allocatedTotal win
  let r := counterIncAtomicU64 (spurious 1) fc.allocatedSuccess win
  ({ fc with allocatedTotal := total.1, allocatedSuccess := r.1 }, r.2)

/-- `local_rx_allocated_dec_atomic`. -/
def localRxAllocatedDecAtomic (win : UInt16) : FlowControl × UInt16 :=
  let r := counterDecAtomicU64 (spurious 0) fc.allocatedSuccess win
  ({ fc with allocatedSuccess := r.1 }, r.2)

end

section

variable (spurious : ℕ → ℕ) (pool : CreditPool) (count : UInt16)

/-- `available_credit_inc_atomic`: the success flag of the increment
decides which total grows. -/
def availableCreditIncAtomic : CreditPool × UInt16 :=
  let r := counterIncAtomicU16 (spurious 0) pool count .idle
  let pool := r.1
  if r.2.2 = false then ({ pool with errTotal := pool.errTotal + count.toUInt64 }, r.2.1)
  else ({ pool with idleTotal := pool.idleTotal + count.toUInt64 }, r.2.1)

/-- `available_credit_return_atomic`. -/
def availableCreditReturnAtomic : CreditPool × UInt16 :=
  let pool := (counterDecAtomicU16 (spurious 0) pool count .allocated).1
  counterIncAtomicU16IgnoreFail (spurious 1) pool count .idle

/-- `available_credit_dec_atomic`. -/
def availableCreditDecAtomic : CreditPool × UInt16 :=
  let r := counterDecAtomicU16 (spurious 0) pool count .idle
  let actualCount := r.2
  let pool := (counterIncAtomicU16IgnoreFail (spurious 1) r.1 actualCount .allocated).1
  ({ pool with
      allocatedTotal := pool.allocatedTotal + actualCount.toUInt64 },
    actualCount)

/-- `allocated_credit_dec_atomic`. -/
def allocatedCreditDecAtomic : CreditPool × UInt16 :=
  counterDecAtomicU16 (spurious 0) pool count .allocated

end

section

variable (fc : FlowControl)

/-- `remote_rx_window_inc_non_atomic`. -/
def remoteRxWindowIncNonAtomic (newWin : UInt16) (isReturnRollback : Bool) : FlowControl × UInt16 :=
  if fc.remoteRxWindow.toNat + newWin.toNat > uint16Max then
    let fc :=
      if isReturnRollback then fc
      else { fc with totalRemoteRxReceivedError := fc.totalRemoteRxReceivedError + newWin.toUInt64 }
    (fc, fc.remoteRxWindow)
  else if isReturnRollback then
    let fc := { fc with remoteRxWindow := fc.remoteRxWindow + newWin }
    (fc, fc.remoteRxWindow)
  else
    let fc := { fc with
      totalRemoteRxReceived := fc.totalRemoteRxReceived + newWin.toUInt64
      remoteRxWindow := fc.remoteRxWindow + newWin }
    (fc, fc.remoteRxWindow)

/-- `remote_rx_window_exchange_non_atomic`. -/
def remoteRxWindowExchangeNonAtomic : FlowControl × UInt16 :=
  let win := fc.remoteRxWindow
  ({ fc with
      totalRemoteRxConsumed := fc.totalRemoteRxConsumed + win.toUInt64
      remoteRxWindow := 0 }, win)

/-- `remote_rx_window_dec_non_atomic`. -/
def remoteRxWindowDecNonAtomic (requiredWin : UInt16) (isReturn : Bool) : FlowControl × UInt16 :=
  if isReturn then
    if fc.remoteRxWindow ≥ requiredWin then
      ({ fc with remoteRxWindow := fc.remoteRxWindow - requiredWin }, requiredWin)
    else ({ fc with remoteRxWindow := 0 }, fc.remoteRxWindow)
  else if fc.remoteRxWindow ≥ requiredWin then
    ({ fc with
        remoteRxWindow := fc.remoteRxWindow - requiredWin
        totalRemoteRxConsumed := fc.totalRemoteRxConsumed + requiredWin.toUInt64 }, requiredWin)
  else
    remoteRxWindowExchangeNonAtomic
      { fc with totalFlowControlledWr :=
          fc.totalFlowControlledWr + (requiredWin - fc.remoteRxWindow).toUInt64 }

/-- `local_rx_allocated_inc_non_atomic`. -/
def localRxAllocatedIncNonAtomic (win : UInt16) : FlowControl × UInt64 :=
  let fc := { fc with
    allocatedSuccess := fc.allocatedSuccess + win.toUInt64
    allocatedTotal := fc.allocatedTotal + win.toUInt64 }
  (fc, fc.allocatedSuccess)

/-- `local_rx_allocated_dec_non_atomic`. -/
def localRxAllocatedDecNonAtomic (win : UInt16) : FlowControl × UInt16 :=
  let r := counterDecNonAtomicU64 fc.allocatedSuccess win
  ({ fc with allocatedSuccess := r.1 }, r.2)

end

section

variable (pool : CreditPool) (count : UInt16)

/-- `available_credit_inc_non_atomic`: which total grows is decided by
comparing the counter before and after. -/
def availableCreditIncNonAtomic : CreditPool × UInt16 :=
  let before := pool.idle
  let r := counterIncNonAtomicU16 pool count .idle
  let pool := r.1
  if r.2 = before then ({ pool with errTotal := pool.errTotal + count.toUInt64 }, r.2)
  else ({ pool with idleTotal := pool.idleTotal + count.toUInt64 }, r.2)

/-- `available_credit_dec_non_atomic`. -/
def availableCreditDecNonAtomic : CreditPool × UInt16 :=
  let r := counterDecNonAtomicU16 pool count .idle
  let actualCount := r.2
  let pool := (counterIncNonAtomicU16 r.1 actualCount .allocated).1
  ({ pool with
      allocatedTotal := pool.allocatedTotal + actualCount.toUInt64 },
    actualCount)

/-- `available_credit_return_non_atomic`. -/
def availableCreditReturnNonAtomic : CreditPool × UInt16 :=
  let pool := (counterDecNonAtomicU16 pool count .allocated).1
  counterIncNonAtomicU16 pool count .idle

/-- `allocated_credit_dec_non_atomic`. -/
def allocatedCreditDecNonAtomic : CreditPool × UInt16 :=
  counterDecNonAtomicU16 pool count .allocated

end

/-- The atomic table. -/
def windowOpsAtomic (spurious : ℕ → ℕ) : WindowOps where
  remoteRxWindowInc := remoteRxWindowIncAtomic spurious
  remoteRxWindowDec := remoteRxWindowDecAtomic spurious
  localRxAllocatedInc := localRxAllocatedIncAtomic spurious
  localRxAllocatedDec := localRxAllocatedDecAtomic spurious

/-- The plain table. -/
def windowOpsNonAtomic : WindowOps where
  remoteRxWindowInc := remoteRxWindowIncNonAtomic
  remoteRxWindowDec := remoteRxWindowDecNonAtomic
  localRxAllocatedInc := localRxAllocatedIncNonAtomic
  localRxAllocatedDec := localRxAllocatedDecNonAtomic

/-- The atomic table of the pool. -/
def creditPoolOpsAtomic (spurious : ℕ → ℕ) : CreditPoolOps where
  availableCreditInc := availableCreditIncAtomic spurious
  availableCreditDec := availableCreditDecAtomic spurious
  availableCreditReturn := availableCreditReturnAtomic spurious
  allocatedCreditDec := allocatedCreditDecAtomic spurious

/-- The plain table of the pool. -/
def creditPoolOpsNonAtomic : CreditPoolOps where
  availableCreditInc := availableCreditIncNonAtomic
  availableCreditDec := availableCreditDecNonAtomic
  availableCreditReturn := availableCreditReturnNonAtomic
  allocatedCreditDec := allocatedCreditDecNonAtomic

/-! ## The loops compute the plain operations -/

/-- A guarded increment loop adds once or not at all. -/
theorem casLoop_incPass (count before : UInt16) (spurious : ℕ) :
    casLoop (incPass count) before spurious
      = if before.toNat + count.toNat > uint16Max then (before, before, false)
        else (before + count, before + count, true) := by
  rw [casLoop_eq_zero, casLoop, incPass]
  split_ifs <;> rfl

/-- A decrement loop takes the smaller of the counter and the amount
asked for. -/
theorem casLoop_decPass (count before : UInt16) (spurious : ℕ) :
    casLoop (decPass count) before spurious
      = if before < count then (0, before) else (before - count, count) := by
  rw [casLoop_eq_zero, casLoop, decPass]
  by_cases hz : before = 0
  · rw [hz]
    by_cases hc : count = 0
    · simp [hc]
    · have hlt : 0 < count := by grind
      simp [hlt]
  · rw [if_neg hz]
    by_cases hgt : before > count
    · have hnl : ¬before < count := by grind
      have hback : before - (before - count) = count := by grind
      simp [hgt, hnl, hback]
    · by_cases hlt : before < count
      · simp [hgt, hlt]
      · have heq : before = count := by grind
        simp [heq]

/-- The same on 64 bits; the loop tests for "greater", the plain code for
"at least". -/
theorem casLoop_decPassU64 (count : UInt16) (before : UInt64) (spurious : ℕ) :
    casLoop (decPassU64 count) before spurious = if before ≥ count.toUInt64
        then (before - count.toUInt64, count.toUInt64) else (0, before) := by
  rw [casLoop_eq_zero, casLoop, decPassU64]
  by_cases hz : before = 0
  · rw [hz]
    by_cases hc : count.toUInt64 = 0
    · simp [hc]
    · have hlt : ¬(0 : UInt64) ≥ count.toUInt64 := by grind
      simp [hlt]
  · rw [if_neg hz]
    by_cases hgt : before > count.toUInt64
    · have hge : before ≥ count.toUInt64 := by grind
      have hback : before - (before - count.toUInt64) = count.toUInt64 := by grind
      simp [hgt, hge, hback]
    · by_cases hge : before ≥ count.toUInt64
      · have heq : before = count.toUInt64 := by grind
        simp [heq]
      · simp [hgt, hge]

section

variable (spurious : ℕ) (counter : UInt64) (count : UInt16)

theorem counterIncAtomicU64_eq : counterIncAtomicU64 spurious counter count
      = (counter + count.toUInt64, counter + count.toUInt64) := by
  rw [counterIncAtomicU64, casLoop_eq_zero]
  rfl

theorem counterDecAtomicU64_eq :
    counterDecAtomicU64 spurious counter count = counterDecNonAtomicU64 counter count := by
  rw [counterDecAtomicU64, casLoop_decPassU64, counterDecNonAtomicU64]
  split_ifs <;> simp

end

section

variable (spurious : ℕ) (pool : CreditPool) (count : UInt16) (type : CreditStatU16)

theorem counterDecAtomicU16_eq :
    counterDecAtomicU16 spurious pool count type = counterDecNonAtomicU16 pool count type := by
  rw [counterDecAtomicU16, casLoop_decPass, counterDecNonAtomicU16]
  split <;> rfl

theorem counterIncAtomicU16IgnoreFail_eq : counterIncAtomicU16IgnoreFail spurious pool count type
      = counterIncNonAtomicU16 pool count type := by
  rw [counterIncAtomicU16IgnoreFail, counterIncAtomicU16, casLoop_incPass, counterIncNonAtomicU16]
  split
  · cases type <;> rfl
  · rfl

end

/-! ## Agreement, operation by operation -/

section

variable (spurious : ℕ → ℕ)

theorem remoteRxWindowIncAtomic_eq (fc : FlowControl) (newWin : UInt16) (rollback : Bool) :
    remoteRxWindowIncAtomic spurious fc newWin rollback
      = remoteRxWindowIncNonAtomic fc newWin rollback := by
  rw [remoteRxWindowIncAtomic, remoteRxWindowIncNonAtomic, casLoop_incPass]
  by_cases hov : fc.remoteRxWindow.toNat + newWin.toNat > uint16Max
  · rw [if_pos hov, if_pos hov]
    cases rollback <;> simp
  · rw [if_neg hov, if_neg hov]
    cases rollback with
    | true => rfl
    | false =>
      -- an empty increment is filed under "error" by the atomic code only
      by_cases heq : fc.remoteRxWindow + newWin = fc.remoteRxWindow
      · have hz : newWin = 0 := by grind
        simp [hz]
      · simp [heq]

theorem remoteRxWindowDecAtomic_eq (fc : FlowControl) (requiredWin : UInt16) (isReturn : Bool) :
    remoteRxWindowDecAtomic spurious fc requiredWin isReturn
      = remoteRxWindowDecNonAtomic fc requiredWin isReturn := by
  rw [remoteRxWindowDecAtomic, remoteRxWindowDecNonAtomic, casLoop_decPass]
  by_cases hlt : fc.remoteRxWindow < requiredWin
  · have hge : ¬fc.remoteRxWindow ≥ requiredWin := by grind
    rw [if_pos hlt, if_neg hge, if_neg hge]
    cases isReturn with
    | true => rfl
    | false =>
      by_cases hpos : fc.remoteRxWindow > 0
      · simp [remoteRxWindowExchangeNonAtomic, hlt, hpos]
      · have hz : fc.remoteRxWindow = 0 := by grind
        rw [hz] at hlt
        simp [remoteRxWindowExchangeNonAtomic, hz, hlt]
  · have hge : fc.remoteRxWindow ≥ requiredWin := by grind
    rw [if_neg hlt, if_pos hge, if_pos hge]
    cases isReturn with
    | true => rfl
    | false =>
      by_cases hpos : requiredWin > 0
      · simp [hpos]
      · have hz : requiredWin = 0 := by grind
        simp [hz]

theorem availableCreditIncAtomic_eq (pool : CreditPool) (count : UInt16) :
    availableCreditIncAtomic spurious pool count = availableCreditIncNonAtomic pool count := by
  rw [availableCreditIncAtomic, availableCreditIncNonAtomic,
    counterIncAtomicU16, casLoop_incPass, counterIncNonAtomicU16]
  by_cases hov : (pool.statU16 .idle).toNat + count.toNat > uint16Max
  · rw [if_pos hov, if_pos hov]
    simp [CreditPool.setStatU16, CreditPool.statU16]
  · rw [if_neg hov, if_neg hov]
    by_cases heq : pool.idle + count = pool.idle
    · have hz : count = 0 := by grind
      simp [hz]
    · simp [CreditPool.statU16, heq]

/-- **The two window tables are one function**, whatever compare-and-swap
attempts fail. -/
theorem windowOpsAtomic_eq : windowOpsAtomic spurious = windowOpsNonAtomic := by
  rw [windowOpsAtomic, windowOpsNonAtomic, WindowOps.mk.injEq]
  refine ⟨?_, ?_, ?_, ?_⟩
  · funext fc win rollback
    exact remoteRxWindowIncAtomic_eq spurious fc win rollback
  · funext fc win isReturn
    exact remoteRxWindowDecAtomic_eq spurious fc win isReturn
  · funext fc win
    rw [localRxAllocatedIncAtomic, counterIncAtomicU64_eq,
      counterIncAtomicU64_eq, localRxAllocatedIncNonAtomic]
  · funext fc win
    rw [localRxAllocatedDecAtomic, counterDecAtomicU64_eq, localRxAllocatedDecNonAtomic]

/-- **The two pool tables are one function.** -/
theorem creditPoolOpsAtomic_eq : creditPoolOpsAtomic spurious = creditPoolOpsNonAtomic := by
  rw [creditPoolOpsAtomic, creditPoolOpsNonAtomic, CreditPoolOps.mk.injEq]
  refine ⟨?_, ?_, ?_, ?_⟩
  · funext pool count
    exact availableCreditIncAtomic_eq spurious pool count
  · funext pool count
    rw [availableCreditDecAtomic, counterDecAtomicU16_eq,
      counterIncAtomicU16IgnoreFail_eq, availableCreditDecNonAtomic]
  · funext pool count
    rw [availableCreditReturnAtomic, counterDecAtomicU16_eq,
      counterIncAtomicU16IgnoreFail_eq, availableCreditReturnNonAtomic]
  · funext pool count
    exact counterDecAtomicU16_eq _ pool count .allocated

end

/-! ## Sequences of calls -/

/-- A call through one of the eight entries of the tables. -/
inductive FcCall where
  | remoteRxWindowInc (newWin : UInt16) (isReturnRollback : Bool)
  | remoteRxWindowDec (requiredWin : UInt16) (isReturn : Bool)
  | localRxAllocatedInc (win : UInt16)
  | localRxAllocatedDec (win : UInt16)
  | availableCreditInc (count : UInt16)
  | availableCreditDec (count : UInt16)
  | availableCreditReturn (count : UInt16)
  | allocatedCreditDec (count : UInt16)
deriving DecidableEq

/-- A queue's counters and the pool it shares. -/
structure FcState where
  fc : FlowControl
  pool : CreditPool
deriving DecidableEq

/-- Make a call; 16-bit results are widened. -/
def execCall (w : WindowOps) (p : CreditPoolOps) (s : FcState) : FcCall → FcState × UInt64
  | .remoteRxWindowInc win rb =>
    let r := w.remoteRxWindowInc s.fc win rb
    ({ s with fc := r.1 }, r.2.toUInt64)
  | .remoteRxWindowDec win ret =>
    let r := w.remoteRxWindowDec s.fc win ret
    ({ s with fc := r.1 }, r.2.toUInt64)
  | .localRxAllocatedInc win =>
    let r := w.localRxAllocatedInc s.fc win
    ({ s with fc := r.1 }, r.2)
  | .localRxAllocatedDec win =>
    let r := w.localRxAllocatedDec s.fc win
    ({ s with fc := r.1 }, r.2.toUInt64)
  | .availableCreditInc n =>
    let r := p.availableCreditInc s.pool n
    ({ s with pool := r.1 }, r.2.toUInt64)
  | .availableCreditDec n =>
    let r := p.availableCreditDec s.pool n
    ({ s with pool := r.1 }, r.2.toUInt64)
  | .availableCreditReturn n =>
    let r := p.availableCreditReturn s.pool n
    ({ s with pool := r.1 }, r.2.toUInt64)
  | .allocatedCreditDec n =>
    let r := p.allocatedCreditDec s.pool n
    ({ s with pool := r.1 }, r.2.toUInt64)

/-- Calls through the atomic tables, one at a time, each with the spurious
failures its loops meet; the results in order, and the final state. -/
def runAtomic (s : FcState) : List (FcCall × (ℕ → ℕ)) → List UInt64 × FcState
  | [] => ([], s)
  | (c, spurious) :: cs =>
    let r := execCall (windowOpsAtomic spurious) (creditPoolOpsAtomic spurious) s c
    let rest := runAtomic r.1 cs
    (r.2 :: rest.1, rest.2)

/-- The same calls through the plain tables. -/
def runNonAtomic (s : FcState) : List FcCall → List UInt64 × FcState
  | [] => ([], s)
  | c :: cs =>
    let r := execCall windowOpsNonAtomic creditPoolOpsNonAtomic s c
    let rest := runNonAtomic r.1 cs
    (r.2 :: rest.1, rest.2)

/-- **The two implementations agree**: from every state and for every
sequence of calls made one at a time, the atomic tables return the same
values and leave the same window, counters and statistics as the plain
ones. -/
theorem runAtomic_eq_runNonAtomic (s : FcState) (calls : List (FcCall × (ℕ → ℕ))) :
    runAtomic s calls = runNonAtomic s (calls.map Prod.fst) := by
  induction calls generalizing s with
  | nil => rfl
  | cons call cs ih =>
    rw [List.map_cons, runAtomic, runNonAtomic, windowOpsAtomic_eq, creditPoolOpsAtomic_eq, ih]

end Umq
