import Mathlib.Algebra.BigOperators.Fin

/-!
# The options of a channel

What the operations of a channel read off it: how it polls, over how many
devices its one-sided transfers are spread, and the two thresholds that
decide how a two-sided message travels – in one piece, in fragments, or by
rendezvous.
-/

namespace Service

/-- `SerCode`, with the codes of the layers below. -/
inductive SerCode where
  | ok
  | error
  | invalidParam
  | newObjectFailed
  | notEstablished
  | timeout
  | splitInvalidMsg
  | other (code : ℤ)
deriving DecidableEq

/-- `UBSHcomServiceProtocol` -/
inductive UBSHcomServiceProtocol where
  | rdma
  | tcp
  | uds
  | shm
  | ubc
  | unknown
deriving DecidableEq

/-- `UINT32_MAX`, the threshold of what is not enabled. -/
def uint32Max : UInt32 := 0xFFFFFFFF

/-- `HcomChannelImp`: its options. -/
structure HcomChannelImp where
  selfPoll : Bool := false
  enableMultiRail : Bool := false
  multiRailThresh : UInt32 := 8192
  driverNum : ℕ := 1
  enableMrCache : Bool := false
  maxSendRecvDataSize : UInt32 := 1024
  protocol : UBSHcomServiceProtocol := .unknown
  userSplitSendThreshold : UInt32 := uint32Max
  rndvThreshold : UInt32 := uint32Max
  /-- A service has a driver. -/
  driverNum_pos : 0 < driverNum := by decide

/-! ## Thresholds -/

/-- The size of `UBSHcomNetTransHeader`. -/
def netTransHeaderSize : UInt32 := 28

/-- The size of `UBSHcomFragmentHeader`. -/
def fragmentHeaderSize : UInt32 := 24

/-- `SERVICE_MAX_TOTAL_LENGTH`. -/
def serviceMaxTotalLength : UInt32 := 2 * 1024 * 1024 * 1024

/-- `UBSHcomTwoSideThreshold` -/
structure UBSHcomTwoSideThreshold where
  splitThreshold : UInt32 := uint32Max
  rndvThreshold : UInt32 := uint32Max

namespace HcomChannelImp

variable (ch : HcomChannelImp)

/-- `CheckAndUpdateThreshold`, with the threshold for rendezvous and the
switch for split sends as the environment has them. -/
def checkAndUpdateThreshold (rndvThreshold : UInt32) (enabled : Bool) : HcomChannelImp :=
  if ¬enabled then if ¬ch.enableMrCache then ch else { ch with rndvThreshold }
  else if rndvThreshold < 65536 then ch
  else
    let ch := { ch with
      userSplitSendThreshold := 65536 - netTransHeaderSize - fragmentHeaderSize }
    if ¬ch.enableMrCache then ch else { ch with rndvThreshold }

/-- `SetTwoSideThreshold` -/
def setTwoSideThreshold (threshold : UBSHcomTwoSideThreshold) : SerCode × HcomChannelImp :=
  if threshold.splitThreshold = uint32Max then
    let ch := { ch with userSplitSendThreshold := uint32Max }
    if ¬ch.enableMrCache ∧ threshold.rndvThreshold ≠ uint32Max then (.invalidParam, ch)
    else (.ok, { ch with rndvThreshold := threshold.rndvThreshold })
  else if threshold.splitThreshold < 128 then (.invalidParam, ch)
  else if threshold.splitThreshold > ch.maxSendRecvDataSize then (.invalidParam, ch)
  else if threshold.splitThreshold > threshold.rndvThreshold then (.invalidParam, ch)
  else if ¬ch.enableMrCache ∧ threshold.rndvThreshold ≠ uint32Max then (.invalidParam, ch)
  else
    let ch :=
      if threshold.splitThreshold < threshold.rndvThreshold then
        { ch with
          userSplitSendThreshold :=
            threshold.splitThreshold - netTransHeaderSize - fragmentHeaderSize }
      else ch
    (.ok, { ch with rndvThreshold := threshold.rndvThreshold })

/-- `EstimateFragmentNum` -/
def estimateFragmentNum (size : UInt32) (withRndv : Bool) : UInt32 :=
  if ch.userSplitSendThreshold = uint32Max ∨ (withRndv ∧ size ≥ ch.rndvThreshold) then 1
  else if ch.protocol ≠ .ubc ∧ ch.protocol ≠ .tcp then 1
  else ((size.toUInt64 + ch.userSplitSendThreshold.toUInt64 - 1)
    / ch.userSplitSendThreshold.toUInt64).toUInt32

/-- Over how many rails a one-sided transfer is spread. -/
def multiNum (size : UInt32) : ℕ :=
  if ch.enableMultiRail ∧ size > ch.multiRailThresh then ch.driverNum else 1

theorem multiNum_pos (size : UInt32) : 0 < ch.multiNum size := by
  rw [multiNum]
  split
  · exact ch.driverNum_pos
  · exact Nat.one_pos

end HcomChannelImp

end Service
