import UbsComm.Service.SpliceWhole

/-!
# From the sender to the receiver

The fragments that the sender makes of a message, in their order, are the
message again at either receiver, after the last of them and not before
(`roundTrip_of_configured`). The offsets, the lengths and the number of the
fragments are computed in 32 bits, apart from each other; what ties them
together is `Tiles`: the last fragment begins before the end of the message,
and they are enough for all of it. The number that `estimateFragmentNum`
gives tiles the message wherever it is split, since no threshold that the
channel takes is zero (`Configured.threshold_pos`).
-/

namespace Service

open List UBSHcomFragmentHeader HcomChannelImp Nat

/-! ## Headers -/

section

variable (header : UBSHcomFragmentHeader)
include header

theorem serviceHeader_encode
    (bytes : List UInt8) : serviceHeader (header.encode ++ bytes) = header := by
  obtain ⟨⟨epId, seqNo⟩, totalLength, offset⟩ := header
  have hepId : leField (encode ⟨⟨epId, seqNo⟩, totalLength, offset⟩ ++ bytes) 0 8 = epId.toNat := by
    rw [encode, append_assoc, leField_append_left]
    exact mod_eq_of_lt epId.toNat_lt
  have hrest : ∀ off w, leField (encode
      ⟨⟨epId, seqNo⟩, totalLength, offset⟩ ++ bytes) (8 + off) w
        = leField (leBytes 8 seqNo.toNat ++ (leBytes 4 totalLength.toNat
          ++ (leBytes 4 offset.toNat ++ bytes))) off w := by
    intro off w
    rw [encode, append_assoc, leField_append_right, append_assoc, append_assoc]
  have hseqNo := hrest 0 8
  have htotal := hrest (8 + 0) 4
  have hoffset := hrest (8 + (4 + 0)) 4
  rw [leField_append_left] at hseqNo
  rw [leField_append_right, leField_append_left] at htotal
  rw [leField_append_right, leField_append_right, leField_append_left] at hoffset
  rw [serviceHeader, hepId, hseqNo, htotal, hoffset,
    mod_eq_of_lt (show seqNo.toNat < 256 ^ 8 from seqNo.toNat_lt),
    mod_eq_of_lt (show totalLength.toNat < 256 ^ 4 from totalLength.toNat_lt),
    mod_eq_of_lt (show offset.toNat < 256 ^ 4 from offset.toNat_lt),
    UInt64.ofNat_toNat, UInt64.ofNat_toNat,
    UInt32.ofNat_toNat, UInt32.ofNat_toNat]

theorem length_encode : header.encode.length = 24 := by simp [encode]

theorem payload_encode (bytes : List UInt8) : payload (header.encode ++ bytes) = bytes :=
  drop_left' (length_encode header)

end

/-! ## Thresholds -/

/-- The channels that come about by the functions that set the thresholds. -/
inductive Configured : HcomChannelImp → Prop
  | new (ch : HcomChannelImp) (h : ch.userSplitSendThreshold = uint32Max) : Configured ch
  | update {ch : HcomChannelImp} (h : Configured ch) (rndvThreshold : UInt32)
      (enabled : Bool) :
      Configured (ch.checkAndUpdateThreshold rndvThreshold enabled)
  | set {ch : HcomChannelImp} (h : Configured ch)
      (threshold : UBSHcomTwoSideThreshold) :
      Configured (ch.setTwoSideThreshold threshold).2

theorem checkAndUpdateThreshold_threshold (ch : HcomChannelImp)
    (rndvThreshold : UInt32) (enabled : Bool) :
    let split := (ch.checkAndUpdateThreshold rndvThreshold enabled).userSplitSendThreshold
    split = ch.userSplitSendThreshold ∨ split = 65484 := by
  unfold checkAndUpdateThreshold
  dsimp only
  split_ifs
  · exact .inl rfl
  · exact .inr rfl
  · exact .inr rfl
  · exact .inl rfl
  · exact .inl rfl

theorem setTwoSideThreshold_threshold (ch : HcomChannelImp) (threshold : UBSHcomTwoSideThreshold) :
    let split := (ch.setTwoSideThreshold threshold).2.userSplitSendThreshold
    split = ch.userSplitSendThreshold ∨ split = uint32Max
      ∨ (128 ≤ threshold.splitThreshold ∧ threshold.splitThreshold ≤ ch.maxSendRecvDataSize)
        ∧ split = threshold.splitThreshold - 28 - 24 := by
  unfold setTwoSideThreshold
  dsimp only
  split_ifs with hoff _ hsmall hlarge
  · exact .inr (.inl rfl)
  · exact .inr (.inl rfl)
  · exact .inl rfl
  · exact .inl rfl
  · exact .inl rfl
  · exact .inl rfl
  · exact .inr (.inr ⟨⟨UInt32.not_lt.mp hsmall, UInt32.not_lt.mp hlarge⟩, rfl⟩)
  · exact .inl rfl

variable {ch : HcomChannelImp}

theorem toNat_sub_headers {split : UInt32} (h : 128 ≤ split) :
    (split - 28 - 24).toNat = split.toNat - 52 := by
  have hle : 128 ≤ split.toNat := h
  have hfirst : (split - 28).toNat = split.toNat - 28 :=
    UInt32.toNat_sub_of_le _ _ (UInt32.le_iff_toNat_le.mpr (le_trans (by decide) hle))
  have hsecond : (24 : UInt32).toNat ≤ (split - 28).toNat :=
    hfirst ▸ le_trans (by decide) (Nat.sub_le_sub_right hle 28)
  rw [UInt32.toNat_sub_of_le _ _ (UInt32.le_iff_toNat_le.mpr hsecond), hfirst]
  exact Nat.sub_sub ..

theorem Configured.threshold_pos (h : Configured ch) : 0 < ch.userSplitSendThreshold.toNat := by
  induction h with
  | new ch h =>
    rw [h]
    decide
  | @update ch h rndvThreshold enabled ih =>
    obtain heq | heq := checkAndUpdateThreshold_threshold ch rndvThreshold enabled
    · rw [heq]
      exact ih
    · rw [heq]
      decide
  | @set ch h threshold ih =>
    obtain heq | heq | ⟨⟨hle, -⟩, heq⟩ := setTwoSideThreshold_threshold ch threshold
    · rw [heq]
      exact ih
    · rw [heq]
      decide
    · rw [heq, toNat_sub_headers hle]
      exact Nat.sub_pos_of_lt (lt_of_lt_of_le (by decide) (UInt32.le_iff_toNat_le.mp hle))

theorem toNat_ceil_div {size threshold : UInt32} (hsize : 0 < size.toNat)
    (hpos : 0 < threshold.toNat) :
    ((size.toUInt64 + threshold.toUInt64 - 1) / threshold.toUInt64).toUInt32.toNat
      = (size.toNat + threshold.toNat - 1) / threshold.toNat := by
  have hs := size.toNat_lt
  have ht := threshold.toNat_lt
  have hsum : (size.toUInt64 + threshold.toUInt64).toNat = size.toNat + threshold.toNat := by
    rw [UInt64.toNat_add, UInt32.toNat_toUInt64, UInt32.toNat_toUInt64]
    exact mod_eq_of_lt (by omega)
  have hone : (1 : UInt64) ≤ size.toUInt64 + threshold.toUInt64 := UInt64.le_iff_toNat_le.mpr (by
      rw [hsum]
      exact le_trans hsize (le_add_right _ _))
  have hquot : (size.toNat + threshold.toNat - 1) / threshold.toNat < size.toNat + 1 := by
    rw [div_lt_iff_lt_mul hpos]
    have := Nat.le_mul_of_pos_right size.toNat hpos
    rw [add_mul]
    omega
  rw [UInt64.toNat_toUInt32, UInt64.toNat_div, UInt64.toNat_sub_of_le _ _ hone, hsum]
  exact mod_eq_of_lt (by
    show (size.toNat + threshold.toNat - 1) / threshold.toNat < 2 ^ 32
    omega)

/-- **The fragments tile the message**: the last one begins before its end, and
together they reach it. -/
structure Tiles (ch : HcomChannelImp) (size n : ℕ) : Prop where
  pos : 0 < n
  begins : (n - 1) * ch.userSplitSendThreshold.toNat < size
  reaches : size ≤ n * ch.userSplitSendThreshold.toNat

/-- As many fragments as are needed, where a message is split or fits into
one. -/
theorem HcomChannelImp.estimateFragmentNum_tiles (ch : HcomChannelImp)
    (hpos : 0 < ch.userSplitSendThreshold.toNat) {size : UInt32}
    (hsize : 0 < size.toNat) {withRndv : Bool}
    (hsplit : 1 < ch.estimateFragmentNum size withRndv ∨ size ≤ ch.userSplitSendThreshold) :
    Tiles ch size.toNat (ch.estimateFragmentNum size withRndv).toNat := by
  have hone : size ≤ ch.userSplitSendThreshold → Tiles ch size.toNat 1 := by
    refine fun hle => ⟨one_pos, ?_, ?_⟩
    · rw [Nat.zero_mul]
      exact hsize
    · rw [one_mul]
      exact UInt32.le_iff_toNat_le.mp hle
  unfold estimateFragmentNum at hsplit ⊢
  split_ifs at hsplit ⊢
  · exact hone (hsplit.resolve_left (by decide))
  · exact hone (hsplit.resolve_left (by decide))
  · rw [toNat_ceil_div hsize hpos]
    have hmod := div_add_mod (size.toNat + ch.userSplitSendThreshold.toNat - 1)
      ch.userSplitSendThreshold.toNat
    have hlt := mod_lt (size.toNat + ch.userSplitSendThreshold.toNat - 1) hpos
    have hq := div_pos (a := size.toNat + ch.userSplitSendThreshold.toNat - 1) (by omega) hpos
    rw [mul_comm] at hmod
    refine ⟨hq, ?_, by omega⟩
    rw [Nat.sub_mul]
    omega

variable {st : MsgReceived} {acc : List UInt8} {i : ℕ}

/-- The distance of the fragments of a message. -/
abbrev HcomChannelImp.stride (ch : HcomChannelImp) : ℕ := ch.userSplitSendThreshold.toNat

section Fragments

variable {ch : HcomChannelImp} {req : List UInt8} {n i k : ℕ}

theorem Tiles.offset_lt (h : Tiles ch req.length n) (hi : i < n) : i * ch.stride < req.length :=
  (mul_le_mul_right _ (le_sub_one_of_lt hi)).trans_lt h.begins

/-- The last fragment, and no other, ends where the message ends. -/
theorem Tiles.end_iff (h : Tiles ch req.length n) (hi : i < n) :
    i * ch.stride + min ch.stride (req.length - i * ch.stride) = req.length ↔ i + 1 = n := by
  have hoffset := h.offset_lt hi
  constructor
  · intro hend
    by_contra hne
    have hnext := h.offset_lt (show i + 1 < n by omega)
    rw [add_mul] at hnext
    omega
  · rintro rfl
    have hreaches : _ ≤ (i + 1) * ch.stride := h.reaches
    rw [add_mul] at hreaches
    omega

/-- What has come of a message when its first `k` bytes have. -/
def received (req : List UInt8) (k : ℕ) : List UInt8 :=
  req.take k ++ List.replicate (req.length - k) 0

theorem received_of_le (h : req.length ≤ k) : received req k = req := by
  unfold received
  rw [take_of_length_le h, Nat.sub_eq_zero_of_le h, replicate_zero, append_nil]

@[simp] theorem length_received (k : ℕ) : (received req k).length = req.length := by
  unfold received
  rw [length_append, length_take, length_replicate]
  omega

theorem overlay_received {t : ℕ} (hk : k ≤ req.length) :
    overlay (received req k) k ((req.drop k).take t) = received req (k + t) := by
  have htake : (req.take k).length = k := by
    rw [length_take]
    exact min_eq_left hk
  have hlength : ((req.drop k).take t).length = min t (req.length - k) := by
    rw [length_take, length_drop]
  have hdrop : (req.take k).drop (k + min t (req.length - k)) = [] :=
    drop_of_length_le (by rw [htake]; exact le_add_right _ _)
  unfold overlay received
  rw [take_left' htake, hlength, drop_append, htake, hdrop, nil_append, drop_replicate, take_add]
  congr 2
  omega

/-! ## A fragment at the receivers -/

variable (hmax : req.length < serviceMaxTotalLength.toNat) (msgId : UBSHcomFragmentMessageId)

include hmax

theorem toNat_ofNat_of_le (hk : k ≤ req.length) : (UInt32.ofNat k).toNat = k := by
  exact mod_eq_of_lt (hk.trans_lt (hmax.trans (by decide)))

theorem Tiles.toNat_offset (h : Tiles ch req.length n) (hi : i < n) :
    (UInt32.ofNat i * ch.userSplitSendThreshold).toNat = i * ch.stride := by
  have hoffset := h.offset_lt hi
  have hpos : 0 < ch.stride := by
    refine pos_of_ne_zero fun hzero => ?_
    have hreaches : _ ≤ n * ch.stride := h.reaches
    rw [hzero] at hreaches
    exact absurd hoffset ((hreaches.trans (zero_le _)).not_gt)
  have hle := (Nat.le_mul_of_pos_right i hpos).trans (hoffset.le)
  rw [UInt32.toNat_mul, toNat_ofNat_of_le hmax hle]
  exact mod_eq_of_lt (hoffset.trans (hmax.trans (by decide)))

/-- What a fragment says and has. -/
structure IsFragment (ch : HcomChannelImp) (msgId : UBSHcomFragmentMessageId)
    (req : List UInt8) (i : ℕ) (msg : List UInt8) : Prop where
  size : ¬msg.length < fragmentHeaderSize.toNat
  msgId : (serviceHeader msg).msgId = msgId
  totalLength : (serviceHeader msg).totalLength.toNat = req.length
  offset : (serviceHeader msg).offset.toNat = i * ch.userSplitSendThreshold.toNat
  bytes : payload msg
    = (req.drop (i * ch.userSplitSendThreshold.toNat)).take ch.userSplitSendThreshold.toNat

theorem Tiles.isFragment (h : Tiles ch req.length n) (hi : i < n) :
    IsFragment ch msgId req i (ch.segment msgId req (UInt32.ofNat i)) := by
  have hoffset := h.toNat_offset hmax hi
  have hle : UInt32.ofNat i * ch.userSplitSendThreshold ≤ UInt32.ofNat req.length := by
    rw [UInt32.le_iff_toNat_le, hoffset, toNat_ofNat_of_le hmax le_rfl]
    exact (h.offset_lt hi).le
  unfold HcomChannelImp.segment
  refine ⟨?_, ?_, ?_, ?_, ?_⟩
  · rw [length_append]
    exact (le_add_right _ _).not_gt
  · rw [serviceHeader_encode]
  · rw [serviceHeader_encode]
    exact toNat_ofNat_of_le hmax le_rfl
  · rw [serviceHeader_encode]
    exact hoffset
  · rw [payload_encode, UInt32.toNat_min, UInt32.toNat_sub_of_le _ _ hle, hoffset,
      toNat_ofNat_of_le hmax le_rfl, ← length_drop,
      ← take_eq_take_min]

variable {msgId} {msg msg : List UInt8}

omit hmax in
theorem IsFragment.length_payload (hmsg : IsFragment ch msgId req i msg) :
    (payload msg).length = min ch.stride (req.length - i * ch.stride) := by
  rw [hmsg.bytes, length_take, length_drop]

theorem IsFragment.not_ge (hmsg : IsFragment ch msgId req i msg) :
    ¬(serviceHeader msg).totalLength ≥ serviceMaxTotalLength := by
  intro hge
  have hge := UInt32.le_iff_toNat_le.mp hge
  rw [hmsg.totalLength] at hge
  exact hmax.not_ge hge

omit hmax in
/-- The first fragment, and no other, begins where the message begins. -/
theorem IsFragment.offset_eq_zero_iff (hmsg : IsFragment ch msgId req i msg)
    (hpos : 0 < ch.stride) : (serviceHeader msg).offset = 0 ↔ i = 0 := by
  rw [← UInt32.toNat_inj, hmsg.offset]
  constructor
  · intro hzero
    exact (Nat.mul_eq_zero.mp hzero).resolve_right (hpos.ne')
  · rintro rfl
    exact zero_mul _

/-- The receiver has the fragments before the one with the number `i`. -/
def Awaits (ch : HcomChannelImp) (req : List UInt8)
    (msgId : UBSHcomFragmentMessageId) (i : ℕ) (st : MsgReceived) : Prop :=
  if i = 0 then st msgId = none
  else ∃ m, st msgId = some m ∧ m.buffer = received req (i * ch.userSplitSendThreshold.toNat)

section

variable (hmsg : IsFragment ch msgId req i msg) (hpos : 0 < ch.stride) {answers : SpliceAnswers}
include hmsg hpos

/-- The receiver finds or makes a buffer for the next fragment. -/
theorem IsFragment.spliceMessage_eq (hst : Awaits ch req msgId i st)
    (hallocated : answers.allocated = true) (hprepared : answers.prepared.1 = .ok) :
    ∃ m : Incomplete, m.buffer = received req (i * ch.stride)
      ∧ spliceMessage st msg answers = copyFragment st msg answers m := by
  unfold spliceMessage
  rw [if_neg hmsg.size, if_neg (hmsg.not_ge hmax), hmsg.msgId]
  by_cases hi : i = 0
  · rw [Awaits, if_pos hi] at hst
    have hfirst := (hmsg.offset_eq_zero_iff hpos).mpr hi
    rw [hfirst, hst, hallocated, hprepared, hmsg.totalLength]
    refine ⟨_, ?_, rfl⟩
    rw [hi, zero_mul]
    rfl
  · rw [Awaits, if_neg hi] at hst
    obtain ⟨m, hm, hbuffer⟩ := hst
    have hlater := mt (hmsg.offset_eq_zero_iff hpos).mp hi
    simp only [hlater, hm]
    exact ⟨m, hbuffer, rfl⟩

/-- **A fragment in its turn**: the last one completes the message, and after
any other the receiver awaits the next. -/
theorem IsFragment.spliceMessage_spec (h : Tiles ch req.length n) (hi : i < n)
    (hst : Awaits ch req msgId i st)
    (hallocated : answers.allocated = true) (hprepared : answers.prepared.1 = .ok) :
    let r := spliceMessage st msg answers
    (i + 1 = n → ∃ source, r.1 = .ok req source)
      ∧ (i + 1 ≠ n → r.1 = .indeterminate ∧ Awaits ch req msgId (i + 1) r.2) := by
  obtain ⟨m, hbuffer, heq⟩ := hmsg.spliceMessage_eq hmax hpos hst hallocated hprepared
  have hoffset := h.offset_lt hi
  have hlength : m.buffer.length = req.length := by rw [hbuffer, length_received]
  have hcopy : (m.copy msg).buffer = received req ((i + 1) * ch.stride) := by
    show overlay m.buffer (serviceHeader msg).offset.toNat (payload msg) = _
    rw [hbuffer, hmsg.offset, hmsg.bytes, overlay_received (hoffset.le), add_mul, one_mul]
  have hend : (serviceHeader msg).offset.toNat + (payload msg).length
      = (serviceHeader msg).totalLength.toNat ↔ i + 1 = n := by
    rw [hmsg.offset, hmsg.length_payload, hmsg.totalLength]
    exact h.end_iff hi
  rw [heq, copyFragment_of_fits st msg answers m (by rw [hmsg.offset, hlength]; exact hoffset)
    (by rw [show _ = i * ch.stride from hmsg.offset, hmsg.length_payload]; omega)]
  constructor
  · intro hlast
    rw [if_pos (hend.mpr hlast), hcopy, hlast, received_of_le h.reaches]
    exact ⟨_, rfl⟩
  · intro hmore
    rw [if_neg (mt hend.mp hmore), hmsg.msgId]
    refine ⟨rfl, ?_⟩
    exact ⟨_, Function.update_self .., hcopy⟩

/-- **A fragment in its turn**, at a self-polling endpoint. -/
theorem IsFragment.syncSpliceFragment_eq (h : Tiles ch req.length n) (hi : i < n)
    (hacc : acc = if i = 0 then [] else received req (i * ch.stride)) :
    syncSpliceFragment acc msg = .ok (received req ((i + 1) * ch.stride), decide (i + 1 = n)) := by
  have hoffset := h.offset_lt hi
  have hbuffer : (if (serviceHeader msg).offset = 0 then
        acc.take req.length ++ List.replicate (req.length - acc.length) 0
      else acc) = received req (i * ch.stride) := by
    by_cases hi : i = 0
    · rw [if_pos ((hmsg.offset_eq_zero_iff hpos).mpr hi), hacc, if_pos hi, hi,
        Nat.zero_mul, take_nil]
      rfl
    · rw [if_neg (mt (hmsg.offset_eq_zero_iff hpos).mp hi), hacc, if_neg hi]
  have htotal : ¬(serviceHeader msg).totalLength ≠ UInt32.ofNat
      (received req (i * ch.stride)).length := by
    rw [not_not, ← UInt32.toNat_inj, hmsg.totalLength, length_received,
      toNat_ofNat_of_le hmax le_rfl]
  have hroom : i * ch.stride < (received req (i * ch.stride)).length := by
    rw [length_received]
    exact hoffset
  have hcopied : memcpyS (received req (i * ch.stride)) (i * ch.stride) (payload msg)
      = (true, overlay _ _ (payload msg)) :=
    memcpyS_of_fits hroom (by rw [length_received, hmsg.length_payload]; omega)
  have hend : i * ch.stride + (payload msg).length = req.length ↔ i + 1 = n := by
    rw [hmsg.length_payload]
    exact h.end_iff hi
  unfold syncSpliceFragment
  simp only [if_neg hmsg.size, if_neg (hmsg.not_ge hmax), hmsg.totalLength, hbuffer,
    if_neg htotal, hmsg.offset, if_neg (Nat.not_lt_of_lt hroom), hcopied, hend,
    not_true_eq_false, if_false]
  rw [hmsg.bytes, overlay_received (hoffset.le), add_mul, one_mul]

end

end Fragments

/-! ## The whole message -/

/-- What the receiver of a channel gives for the messages that come. -/
def spliceAll (answers : List UInt8 → SpliceAnswers) :
    MsgReceived → List (List UInt8) → List SpliceMessageResult
  | _, [] => []
  | st, msg :: msgs =>
    (spliceMessage st msg (answers msg)).1
      :: spliceAll answers (spliceMessage st msg (answers msg)).2 msgs

/-- **The fragments are the message again**: there are as many as was
estimated, and each receiver gives the message after the last of them and not
before. -/
structure RoundTrip (msgId : UBSHcomFragmentMessageId) (req : List UInt8)
    (fragmentNum : UInt32) (fragments : List (List UInt8)) : Prop where
  length : fragments.length = fragmentNum.toNat
  splice : ∀ (st : MsgReceived) (answers : List UInt8 → SpliceAnswers), st msgId = none →
    (∀ msg, (answers msg).allocated = true ∧ (answers msg).prepared.1 = .ok) →
    ∃ source, spliceAll answers st fragments
      = List.replicate (fragmentNum.toNat - 1) .indeterminate ++ [.ok req source]
  syncSplice : ∀ k ≤ fragmentNum.toNat,
    syncSpliceMessage ((fragments.take k).map fun msg => .ok (.fragment, msg))
      = if k = fragmentNum.toNat then some (.ok req) else none

section RoundTrip

variable {ch : HcomChannelImp} {req : List UInt8} {n : ℕ}
  (hmax : req.length < serviceMaxTotalLength.toNat)
  (hpos : 0 < ch.stride)
  (h : Tiles ch req.length n) (msgId : UBSHcomFragmentMessageId)

include hmax hpos h

/-- The fragments from the one with the number `i` on. -/
theorem spliceAll_segments {answers : List UInt8 → SpliceAnswers}
    (hanswers : ∀ msg, (answers msg).allocated = true ∧ (answers msg).prepared.1 = .ok) {r : ℕ}
    (hr : i + (r + 1) = n) (hst : Awaits ch req msgId i st) :
    ∃ source, spliceAll answers st ((List.range' i (r + 1)).map fun segIndex =>
        ch.segment msgId req (UInt32.ofNat segIndex))
      = replicate r .indeterminate ++ [.ok req source] := by
  induction r generalizing i st with
  | zero =>
    have hi : i < n := by omega
    obtain ⟨hlast, -⟩ := (h.isFragment hmax msgId hi).spliceMessage_spec hmax hpos h hi
      hst (hanswers _).1 (hanswers _).2
    obtain ⟨source, hsource⟩ := hlast hr
    exact ⟨source, congrArg (· :: []) hsource⟩
  | succ r ih =>
    have hi : i < n := by omega
    obtain ⟨-, hmore⟩ := (h.isFragment hmax msgId hi).spliceMessage_spec hmax hpos h hi
      hst (hanswers _).1 (hanswers _).2
    obtain ⟨hresult, hawaits⟩ := hmore (by omega)
    obtain ⟨source, hsource⟩ := ih (by omega) hawaits
    refine ⟨source, ?_⟩
    rw [range'_succ, map_cons, spliceAll, hresult, hsource]
    rfl

/-- The fragments from the one with the number `i` on, at a self-polling
endpoint. -/
theorem syncSpliceLoop_segments {r : ℕ} (hi : i < n) (hr : i + r ≤ n)
    (hacc : acc = if i = 0 then [] else received req (i * ch.stride)) :
    syncSpliceLoop acc ((range' i r).map fun segIndex =>
        .ok (.fragment, ch.segment msgId req (UInt32.ofNat segIndex)))
      = if i + r = n then some (.ok req) else none := by
  induction r generalizing i acc with
  | zero =>
    rw [add_zero, if_neg (hi.ne)]
    rfl
  | succ r ih =>
    rw [range'_succ, map_cons, syncSpliceLoop,
      (h.isFragment hmax msgId hi).syncSpliceFragment_eq hmax hpos h hi hacc]
    by_cases hlast : i + 1 = n
    · rw [decide_eq_true hlast, if_pos (by omega), hlast, received_of_le h.reaches]
    · rw [decide_eq_false hlast]
      show syncSpliceLoop _ _ = _
      rw [ih (by omega) (by omega) (if_neg (succ_ne_zero i)).symm, succ_add]
      rfl

end RoundTrip

theorem syncSpliceMessage_fragments (msgs : List (List UInt8)) :
    syncSpliceMessage (msgs.map fun msg => .ok (.fragment, msg))
      = syncSpliceLoop [] (msgs.map fun msg => .ok (.fragment, msg)) := by
  cases msgs with
  | nil => rfl
  | cons msg msgs => rfl

theorem Tiles.roundTrip {req : List UInt8} {fragmentNum : UInt32}
    (h : Tiles ch req.length fragmentNum.toNat) (hmax : req.length < serviceMaxTotalLength.toNat)
    (hpos : 0 < ch.stride) (msgId : UBSHcomFragmentMessageId) :
    RoundTrip msgId req fragmentNum (ch.segments msgId req fragmentNum) where
  length := by rw [segments, length_map, length_range]
  splice st answers hst hanswers := by
    have hnum : 0 + (fragmentNum.toNat - 1 + 1) = fragmentNum.toNat := by
      rw [zero_add]
      exact Nat.sub_add_cancel h.pos
    have hall := spliceAll_segments hmax hpos h msgId hanswers hnum
      (show Awaits ch req msgId 0 st from hst)
    rw [Nat.sub_add_cancel h.pos, ← range_eq_range'] at hall
    exact hall
  syncSplice k hk := by
    have hloop := syncSpliceLoop_segments hmax hpos h msgId h.pos
      ((zero_add k).symm ▸ hk) (if_pos rfl).symm
    rw [zero_add, ← range_eq_range'] at hloop
    rw [syncSpliceMessage_fragments, segments, ← map_take, take_range, min_eq_left hk, map_map]
    exact hloop

/-- **Fragments round trip**: whatever thresholds a channel has come to have, a
message that is split – or that fits into one fragment – is the same at the
receivers, after as many fragments as were estimated and not before. -/
theorem roundTrip_of_configured {ch : HcomChannelImp} (hch : Configured ch)
    (msgId : UBSHcomFragmentMessageId) {req : List UInt8} (hreq : 0 < req.length)
    (hmax : req.length < serviceMaxTotalLength.toNat) (withRndv : Bool)
    (hsplit : 1 < ch.estimateFragmentNum (UInt32.ofNat req.length) withRndv
      ∨ req.length ≤ ch.userSplitSendThreshold.toNat) :
    ∀ send ∈ [ch.syncSendSplitWithWorkerPoll, ch.syncSendSplitWithSelfPoll,
        ch.asyncSendSplitWithWorkerPoll],
      RoundTrip msgId req (ch.estimateFragmentNum (UInt32.ofNat req.length) withRndv)
        (send msgId req (ch.estimateFragmentNum (UInt32.ofNat req.length) withRndv)) := by
  have hsize := toNat_ofNat_of_le hmax (le_rfl)
  have htiles : Tiles ch (UInt32.ofNat req.length).toNat
      (ch.estimateFragmentNum (UInt32.ofNat req.length) withRndv).toNat :=
    ch.estimateFragmentNum_tiles hch.threshold_pos (by rw [hsize]; exact hreq)
      (hsplit.imp_right fun hle => UInt32.le_iff_toNat_le.mpr (by rw [hsize]; exact hle))
  rw [hsize] at htiles
  have hround := htiles.roundTrip hmax hch.threshold_pos msgId
  intro send hsend
  rw [mem_cons, mem_cons, mem_singleton] at hsend
  obtain rfl | rfl | rfl := hsend <;> exact hround

/-- A channel with fragments of 76 bytes. -/
def smallFragments : HcomChannelImp :=
  (HcomChannelImp.setTwoSideThreshold { protocol := .ubc } { splitThreshold := 128 }).2

theorem configured_smallFragments : Configured smallFragments :=
  .set (.new { protocol := .ubc } rfl) { splitThreshold := 128 }

/-- A hundred bytes in two fragments. -/
theorem roundTrip_smallFragments : smallFragments.estimateFragmentNum 100 true = 2
      ∧ ∀ send ∈ [smallFragments.syncSendSplitWithWorkerPoll,
          smallFragments.syncSendSplitWithSelfPoll,
          smallFragments.asyncSendSplitWithWorkerPoll],
        RoundTrip ⟨7, 1⟩ (List.replicate 100 42)
          (smallFragments.estimateFragmentNum 100 true)
          (send ⟨7, 1⟩ (List.replicate 100 42) (smallFragments.estimateFragmentNum 100 true)) :=
  ⟨by decide, roundTrip_of_configured configured_smallFragments ⟨7, 1⟩ (by decide)
    (by decide) true (.inl (by decide))⟩

end Service
