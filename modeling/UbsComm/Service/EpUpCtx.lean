import UbsComm.Service.EpSelect

/-!
# Which endpoint has broken

An endpoint carries a word by which its channel is found when the endpoint breaks or
receives a request: a bit for a channel that has been made, five bits for the place
of the endpoint in it, and 58 bits for the pointer. A channel has up to 64 endpoints,
16 links over each of four devices. Those at the first 32 places are found again, and
no others: `survives_iff`.
-/

namespace Service.EpInfo

open Function

/-! ## The word -/

/-- `Ep2ChanUpCtx(connect, p, i)`: the fields take what fits into them. -/
def wholeUpCtx (connect p i : ℕ) : ℕ := connect % 2 + 2 * (i % 32) + 64 * (p % 2 ^ 58)

/-- The bit for a channel that has been made. -/
def connected (upCtx : ℕ) : ℕ := upCtx % 2

/-- `EpIdx` -/
def epIdx (upCtx : ℕ) : ℕ := upCtx / 2 % 32

/-- `Channel`, `Ptr` -/
def ptr (upCtx : ℕ) : ℕ := upCtx / 64 % 2 ^ 58

/-- `RspCtx` of a request that has come over an endpoint. -/
def rspCtx (mEpIdxInCh : ℕ) (mSeqNo : UInt32) : ℕ := mEpIdxInCh * 2 ^ 32 + mSeqNo.toNat

variable {Ep : Type} (info : EpInfo Ep) (chPtr : ℕ)

/-- `SetEpUpCtx` of the channel at `chPtr`, with the word of the endpoint at
each place. -/
def setEpUpCtx (upCtx : ℕ → ℕ) : ℕ → ℕ :=
  (List.range info.epSize).foldl (fun upCtx i => update upCtx i (wholeUpCtx 1 chPtr i)) upCtx

/-- `SetEpBroken` -/
def setEpBroken (index : ℕ) : EpInfo Ep :=
  if index ≥ info.epSize then info
  else { info with epState := update info.epState index .broken }

/-- What `ServiceEndPointBroken` does to the channels: nothing, where the connection is
not yet one. -/
def serviceEndPointBroken (channels : ℕ → Option (EpInfo Ep)) (upCtx : ℕ) :
    ℕ → Option (EpInfo Ep) :=
  if upCtx = 0 ∨ connected upCtx = 0 then channels
  else update channels (ptr upCtx) ((channels (ptr upCtx)).map (setEpBroken · (epIdx upCtx)))

/-- `ResponseWorkerPollEp` -/
def responseWorkerPollEp (rspCtx : ℕ) : Except SerCode Ep :=
  let epIndex := rspCtx / 2 ^ 32
  if ¬info.chEstablished then .error .notEstablished
  else if epIndex ≥ info.epSize then .error .invalidParam
  else if info.epState epIndex = .broken then .error .notEstablished
  else
    match info.epArr epIndex with
    | none => .error .notEstablished
    | some ep => .ok ep

/-! ## The endpoint is found again -/

/-- **The identity of an endpoint survives its word**: a breakage marks this endpoint
of this channel and nothing else, and a response goes over it. -/
structure Survives (i : Fin info.epSize) (upCtx : ℕ) : Prop where
  index : epIdx upCtx = i
  channel : ptr upCtx = chPtr
  marks : ∀ channels, channels chPtr = some info → serviceEndPointBroken channels upCtx
    = update channels chPtr (some { info with epState := update info.epState i .broken })
  selects : ∀ mSeqNo, info.chEstablished → info.epState i ≠ .broken →
    ∃ ep, info.epArr i = some ep ∧ info.responseWorkerPollEp (rspCtx (epIdx upCtx) mSeqNo) = .ok ep

theorem setEpUpCtx_apply (upCtx : ℕ → ℕ) {i : ℕ} (hi : i < info.epSize) :
    info.setEpUpCtx chPtr upCtx i = wholeUpCtx 1 chPtr i := by
  unfold setEpUpCtx
  generalize info.epSize = n at hi
  induction n with
  | zero => cases hi
  | succ n ih =>
    rw [List.range_succ, List.foldl_append, List.foldl_cons, List.foldl_nil, update_apply]
    split_ifs with h
    · rw [h]
    · exact ih (by omega)

/-- **Which endpoints are found again**: those whose place fits into five bits, of a
channel whose address fits into 58. -/
theorem survives_iff (info : EpInfo Ep) (chPtr : ℕ) (upCtx : ℕ → ℕ) (i : Fin info.epSize) :
    info.Survives chPtr i (info.setEpUpCtx chPtr upCtx i) ↔ (i : ℕ) < 32 ∧ chPtr < 2 ^ 58 := by
  rw [setEpUpCtx_apply info chPtr upCtx i.isLt]
  constructor
  · intro h
    have hi := h.index
    have hp := h.channel
    unfold epIdx wholeUpCtx at hi
    unfold ptr wholeUpCtx at hp
    omega
  · rintro ⟨hi, hp⟩
    have hindex : epIdx (wholeUpCtx 1 chPtr i) = i := by
      unfold epIdx wholeUpCtx
      omega
    have hptr : ptr (wholeUpCtx 1 chPtr i) = chPtr := by
      unfold ptr wholeUpCtx
      omega
    refine ⟨hindex, hptr, fun channels hself => ?_, fun mSeqNo hch hne => ?_⟩
    · have hmade : ¬(wholeUpCtx 1 chPtr i = 0 ∨ connected (wholeUpCtx 1 chPtr i) = 0) := by
        unfold connected wholeUpCtx
        omega
      rw [serviceEndPointBroken, if_neg hmade, hptr, hindex, hself, Option.map_some, setEpBroken,
        if_neg (not_le.mpr i.isLt)]
    · obtain ⟨ep, hep⟩ := Option.isSome_iff_exists.mp (info.epArr_isSome i i.isLt)
      have hdiv : rspCtx i mSeqNo / 2 ^ 32 = i := by
        have hlt := mSeqNo.toNat_lt
        unfold rspCtx
        omega
      refine ⟨ep, hep, ?_⟩
      rw [hindex, responseWorkerPollEp, if_neg (not_not_intro hch), hdiv,
        if_neg (not_le.mpr i.isLt),
        if_neg hne, hep]

/-- **The wrong endpoint is marked**: of the 64 endpoints of 16 links over four devices
the one at 32 breaks, and the one at 0 is marked. -/
theorem exists_wrong_endpoint_marked :
    ∃ info : EpInfo ℕ, ∃ h : 32 < info.epSize, info.epSize = 16 * 4 ∧
      serviceEndPointBroken (fun _ => some info) (info.setEpUpCtx 4096 (fun _ => 0) 32) 4096
        = some (info.setEpBroken 0) ∧
      ¬info.Survives 4096 ⟨32, h⟩ (info.setEpUpCtx 4096 (fun _ => 0) 32) := by
  refine ⟨⟨fun _ => .established, some, 64, 4, true, fun _ => 0, by decide, fun _ _ => rfl⟩,
    by decide, rfl, ?_, fun h => ?_⟩
  · rw [setEpUpCtx_apply _ _ _ (by decide)]
    rfl
  · have hindex := h.index
    rw [setEpUpCtx_apply _ _ _ (by decide)] at hindex
    cases hindex

end Service.EpInfo
