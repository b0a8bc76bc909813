import Mathlib.Algebra.BigOperators.Fin

/-!
# Cutting the user's data into requests

`WriteV` is given a list of io vectors and sends them without copying: it
builds work requests whose buffers point into the vectors. It goes over the
list twice with an `IovConverter`, a position in the list that a call moves
forward – once to count how many buffers it needs (`Cut`), and, when they are
allocated, once more to let them point into the vectors (`CutLast`).

An io vector is modelled by its bytes. A buffer that is filled in is a segment
of a vector.

**The requests** (`cutsCorrectly_iff`): both passes build the same requests,
each with at most six segments and no longer than an io buffer, and what is in
them is the user's data from its beginning. The one exception is a list that
begins with an empty vector: the length of the first vector that is not empty
is then not compared with the room there is, and a request is built that is
longer than an io buffer (`buildRequests_overlong`).
-/

namespace Brpc

open List Nat Option UInt32

/-! ## Sizes -/

/-- `umq_buf_block_size_t`, as far as it is told apart. -/
inductive UmqBufBlockSize where
  | blockSize8K
  | blockSize16K
  | blockSize32K
  | blockSize64K
  | other
deriving DecidableEq

/-- `BrpcIOBufSize`: a block without its head of 32 bytes. -/
def brpcIOBufSize : UmqBufBlockSize → UInt32
  | .blockSize8K => 8192 - 32
  | .blockSize16K => 16384 - 32
  | .blockSize32K => 32768 - 32
  | .blockSize64K => 65536 - 32
  | .other => 8192 - 32

/-- `SGE_MAX`. -/
def sgeMax : ℕ := 6

/-- `POST_BATCH_MAX`. -/
def postBatchMax : ℕ := 64

/-! ## The position -/

/-- `IovConverter`: a position in the list. -/
structure IovConverter where
  iovIdx : ℕ := 0
  iovOffset : UInt32 := 0

open IovConverter

/-- What a buffer points at: a part of an io vector. -/
structure Segment where
  idx : ℕ
  offset : UInt32
  dataSize : UInt32
deriving DecidableEq

section Cut

variable (iov : List (List UInt8))

/-- `m_iov[idx]`. -/
def iovAt (idx : ℕ) : List UInt8 := iov.getD idx []

/-- How many empty vectors there are at the beginning of a list. -/
def emptyCount : List (List UInt8) → ℕ
  | [] => 0
  | v :: vs => if v.length = 0 then emptyCount vs + 1 else 0

/-- The loop over empty vectors, from an index on. -/
def skipEmpty (idx : ℕ) : ℕ := idx + emptyCount (iov.drop idx)

/-- `Cut`: how many bytes the position has been moved. -/
def IovConverter.cut (c : IovConverter) (len : UInt32) : UInt32 × IovConverter :=
  if c.iovIdx < iov.length then
    if (c.iovOffset + len).toNat ≥ (iovAt iov c.iovIdx).length then
      let idx := skipEmpty iov c.iovIdx
      if idx ≥ iov.length then (0, { c with iovIdx := idx })
      else (UInt32.ofNat (iovAt iov idx).length - c.iovOffset, ⟨skipEmpty iov (idx + 1), 0⟩)
    else (len, { c with iovOffset := c.iovOffset + len })
  else (0, c)

/-- `CutLast`: what the buffer points at afterwards, if it is filled in, and
whether the position is at the end. -/
def IovConverter.cutLast (c : IovConverter) (len : UInt32) : Option Segment × Bool × IovConverter :=
  if c.iovIdx < iov.length then
    if (c.iovOffset + len).toNat ≥ (iovAt iov c.iovIdx).length then
      let idx := skipEmpty iov c.iovIdx
      if idx ≥ iov.length then (none, false, { c with iovIdx := idx })
      else
        let movedLen := UInt32.ofNat (iovAt iov idx).length - c.iovOffset
        let c' : IovConverter := ⟨skipEmpty iov (idx + 1), 0⟩
        (some ⟨idx, c.iovOffset, movedLen⟩, !decide (c'.iovIdx < iov.length), c')
    else
      (some ⟨c.iovIdx, c.iovOffset, len⟩, !decide (c.iovIdx < iov.length),
        { c with iovOffset := c.iovOffset + len })
  else (none, !decide (c.iovIdx < iov.length), c)

/-! ## Counting -/

/-- What one request takes: how many buffers, how many bytes, and where the
position is then. -/
structure CountedRequest where
  umqBufCnt : ℕ
  cutTotalLen : UInt32
  conv : IovConverter

/-- The loop over the segments of a request, for so many of them. -/
def countSges (size : UInt32) : ℕ → IovConverter → UInt32 → UInt32 → CountedRequest
  | 0, c, _, cutTotalLen => ⟨0, cutTotalLen, c⟩
  | sges + 1, c, wrLeftLen, cutTotalLen =>
    if cutTotalLen < size then
      let (cutLen, c) := c.cut iov wrLeftLen
      if cutLen ≠ 0 then
        let r := countSges size sges c (wrLeftLen - cutLen) (cutTotalLen + cutLen)
        { r with umqBufCnt := r.umqBufCnt + 1 }
      else ⟨0, cutTotalLen, c⟩
    else ⟨0, cutTotalLen, c⟩

/-- The loop over the requests, for so many of them: `batch` and
`umq_buf_cnt`. -/
def countBatch (size : UInt32) : ℕ → IovConverter → ℕ × ℕ
  | 0, _ => (0, 0)
  | n + 1, c =>
    let r := countSges iov size sgeMax c size 0
    if r.cutTotalLen ≠ 0 then
      let (batch, umqBufCnt) := countBatch size n r.conv
      (batch + 1, umqBufCnt + r.umqBufCnt)
    else (0, r.umqBufCnt)

/-! ## Filling in -/

/-- The buffers of a request, how many are left of those that are allocated,
and where the position is. A buffer that is not filled in is empty. -/
structure FilledRequest where
  segments : List (Option Segment)
  bufsLeft : ℕ
  conv : IovConverter

/-- The length of a segment, if there is one. -/
def dataSizeOf (seg : Option Segment) : UInt32 := (seg.map Segment.dataSize).getD 0

/-- The loop over the buffers of a request, with so many buffers left. -/
def fillSges (size : UInt32) : ℕ → ℕ → IovConverter → UInt32 → UInt32 → FilledRequest
  | 0, _, c, _, _ => ⟨[], 0, c⟩
  | bufs + 1, sgeIdx, c, wrLeftLen, movedTotalLen =>
    let (seg, last, c) := c.cutLast iov wrLeftLen
    let movedTotalLen := movedTotalLen + dataSizeOf seg
    if last = true ∨ sgeIdx + 1 ≥ sgeMax ∨ movedTotalLen ≥ size then ⟨[seg], bufs, c⟩
    else
      let r := fillSges size bufs (sgeIdx + 1) c (wrLeftLen - dataSizeOf seg) movedTotalLen
      { r with segments := seg :: r.segments }

/-- The loop over the requests; without a result if there is no buffer left
for one of them. -/
def fillBatch (size : UInt32) : ℕ → ℕ → IovConverter → Option (List (List (Option Segment)))
  | 0, _, _ => some []
  | batch + 1, bufs, c =>
    if bufs = 0 then none
    else
      let r := fillSges iov size bufs 0 c size 0
      (fillBatch size batch r.bufsLeft r.conv).map fun reqs => r.segments :: reqs

/-- What `WriteV` posts. -/
structure Built where
  umqBufCnt : ℕ
  requests : List (List (Option Segment))

/-- The requests that `WriteV` builds. No buffer cannot be allocated, and
there is nothing to post then. -/
def buildRequests (windowSize : ℕ) (blockSize : UmqBufBlockSize) : Option Built :=
  let size := brpcIOBufSize blockSize
  let (batch, umqBufCnt) := countBatch iov size (min windowSize postBatchMax) {}
  if umqBufCnt = 0 then some ⟨0, []⟩
  else (fillBatch iov size batch umqBufCnt {}).map fun requests => ⟨umqBufCnt, requests⟩

/-! ## What is asked of the requests -/

/-- The bytes that a buffer points at. -/
def Segment.bytes (seg : Segment) : List UInt8 :=
  ((iovAt iov seg.idx).drop seg.offset.toNat).take seg.dataSize.toNat

/-- A segment lies in one vector. -/
def Segment.Inside (seg : Segment) : Prop :=
  seg.idx < iov.length ∧ seg.offset.toNat + seg.dataSize.toNat ≤ (iovAt iov seg.idx).length

/-- Its bytes. -/
def bufBytes (seg : Option Segment) : List UInt8 :=
  match seg with
  | none => []
  | some seg => seg.bytes iov

/-- **The requests are cut correctly.** -/
structure Built.Correct (b : Built) (windowSize : ℕ) (blockSize : UmqBufBlockSize) : Prop where
  batch : b.requests.length ≤ min windowSize postBatchMax
  sges : ∀ req ∈ b.requests, req.length ≤ sgeMax
  size : ∀ req ∈ b.requests, (req.flatMap (bufBytes iov)).length ≤ (brpcIOBufSize blockSize).toNat
  inside : ∀ req ∈ b.requests, ∀ buf ∈ req, ∃ seg, buf = some seg ∧ seg.Inside iov
  bytes : (b.requests.flatten.flatMap (bufBytes iov)) <+: iov.flatten
  counted : b.umqBufCnt = b.requests.flatten.length
  whole : b.requests.length < min windowSize postBatchMax →
    b.requests.flatten.flatMap (bufBytes iov) = iov.flatten

/-- If the first vector is empty, the first one that is not fits into an io
buffer. -/
def FirstFits (blockSize : UmqBufBlockSize) : Prop :=
  iov.head? = some [] → (iovAt iov (skipEmpty iov 0)).length ≤ (brpcIOBufSize blockSize).toNat
deriving Decidable

end Cut

/-! ## A position that is not at an empty vector -/

variable {seg : Segment} {c' : IovConverter}

section Position

variable {iov : List (List UInt8)} {c c' : IovConverter} {len : UInt32}

/-- The bytes from a position on. -/
def IovConverter.rest (iov : List (List UInt8)) (c : IovConverter) : List UInt8 :=
  (iovAt iov c.iovIdx).drop c.iovOffset.toNat ++ (iov.drop (c.iovIdx + 1)).flatten

/-- There is a byte at the position, if it is not the end. -/
def IovConverter.AtByte (iov : List (List UInt8)) (c : IovConverter) : Prop :=
  c.iovIdx < iov.length → c.iovOffset.toNat < (iovAt iov c.iovIdx).length

/-- A call for so many bytes may be made: no sum that it computes wraps around. -/
structure IovConverter.Ready (iov : List (List UInt8)) (c : IovConverter) (len : ℕ) : Prop where
  atByte : c.AtByte iov
  wrap : c.iovOffset.toNat + len < 2 ^ 32
  whole : iov.flatten.length < 2 ^ 32

theorem iovAt_of_le {idx : ℕ} (h : iov.length ≤ idx) : iovAt iov idx = [] := by
  rw [iovAt, getD_eq_getElem?_getD, getElem?_eq_none h]
  rfl

theorem drop_eq_iovAt_cons {idx : ℕ} (h : idx < iov.length) :
    iov.drop idx = iovAt iov idx :: iov.drop (idx + 1) := by
  rw [iovAt, getD_eq_getElem?_getD, getElem?_eq_getElem h, getD_some, drop_eq_getElem_cons h]

theorem rest_of_le (h : iov.length ≤ c.iovIdx) : c.rest iov = [] := by
  rw [rest, iovAt_of_le h, drop_nil, drop_of_length_le (by omega)]
  rfl

theorem rest_eq_nil_iff (h : c.AtByte iov) : c.rest iov = [] ↔ iov.length ≤ c.iovIdx := by
  constructor
  · intro hnil
    by_contra hlt
    have hbyte := h (Nat.not_le.mp hlt)
    have hlen := length_eq_zero_iff.mpr (append_eq_nil_iff.mp hnil).1
    rw [length_drop] at hlen
    omega
  · exact rest_of_le

theorem flatten_drop_emptyCount (vs : List (List UInt8)) :
    (vs.drop (emptyCount vs)).flatten = vs.flatten
      ∧ (emptyCount vs < vs.length → 0 < (vs.getD (emptyCount vs) []).length) := by
  induction vs with
  | nil => exact ⟨rfl, fun h => absurd h (not_lt_zero _)⟩
  | cons v vs ih =>
    rw [emptyCount]
    by_cases hv : v.length = 0
    · rw [if_pos hv]
      refine ⟨?_, fun hlt => ?_⟩
      · rw [drop_succ_cons, ih.1, flatten_cons, length_eq_zero_iff.mp hv, nil_append]
      · exact ih.2 (lt_of_succ_lt_succ hlt)
    · rw [if_neg hv]
      exact ⟨rfl, fun _ => Nat.pos_of_ne_zero hv⟩

/-- Past empty vectors there is a byte, and nothing has been skipped. -/
theorem skipEmpty_spec (iov : List (List UInt8)) (idx : ℕ) :
    IovConverter.AtByte iov ⟨skipEmpty iov idx, 0⟩
      ∧ rest iov ⟨skipEmpty iov idx, 0⟩ = (iov.drop idx).flatten := by
  obtain ⟨hflat, hpos⟩ := flatten_drop_emptyCount (iov.drop idx)
  constructor
  · intro hlt
    have hlt' : emptyCount (iov.drop idx) < (iov.drop idx).length := by
      rw [length_drop]
      exact lt_sub_of_add_lt (by rw [Nat.add_comm]; exact hlt)
    have hpos := hpos hlt'
    rw [getD_eq_getElem?_getD, getElem?_drop] at hpos
    exact hpos
  · rw [drop_drop] at hflat
    rw [← hflat]
    by_cases hlt : skipEmpty iov idx < iov.length
    · show _ = (iov.drop (skipEmpty iov idx)).flatten
      rw [drop_eq_iovAt_cons hlt]
      rfl
    · rw [rest_of_le (Nat.not_lt.mp hlt)]
      show _ = (iov.drop (skipEmpty iov idx)).flatten
      rw [drop_of_length_le (Nat.not_lt.mp hlt)]
      rfl

theorem skipEmpty_eq (h : c.AtByte iov) (hlt : c.iovIdx < iov.length) :
    skipEmpty iov c.iovIdx = c.iovIdx := by
  have hbyte := h hlt
  rw [skipEmpty, drop_eq_iovAt_cons hlt, emptyCount, if_neg (by omega), Nat.add_zero]

theorem length_iovAt_le (iov : List (List UInt8)) (idx : ℕ) :
    (iovAt iov idx).length ≤ iov.flatten.length := by
  by_cases hlt : idx < iov.length
  · have hmem : iovAt iov idx ∈ iov := by
      rw [iovAt, getD_eq_getElem?_getD, getElem?_eq_getElem hlt]
      exact getElem_mem hlt
    exact (sublist_flatten_of_mem hmem).length_le
  · rw [iovAt_of_le (Nat.not_lt.mp hlt)]
    exact zero_le _

/-- A call has moved the position over a segment. -/
structure Moved (iov : List (List UInt8)) (c : IovConverter) (len : UInt32) (seg : Segment)
    (c' : IovConverter) : Prop where
  pos : 0 < seg.dataSize
  le : seg.dataSize ≤ len
  inside : seg.Inside iov
  bytes : seg.bytes iov ++ c'.rest iov = c.rest iov
  atByte : c'.AtByte iov
  offset : c'.iovOffset.toNat ≤ c.iovOffset.toNat + seg.dataSize.toNat

theorem Moved.toNat_sub (h : Moved iov c len seg c') :
    (len - seg.dataSize).toNat + seg.dataSize.toNat = len.toNat := by
  rw [UInt32.toNat_sub_of_le _ _ h.le, Nat.sub_add_cancel (le_iff_toNat_le.mp h.le)]

theorem Moved.ready (h : Moved iov c len seg c') (hc : c.Ready iov len.toNat) :
    c'.Ready iov (len - seg.dataSize).toNat := by
  have hsub := h.toNat_sub
  have hoff := h.offset
  have hwrap := hc.wrap
  exact ⟨h.atByte, by omega, hc.whole⟩

theorem Moved.toNat_add {size total : UInt32} (h : Moved iov c len seg c')
    (hsum : total.toNat + len.toNat = size.toNat) :
    (total + seg.dataSize).toNat = total.toNat + seg.dataSize.toNat
      ∧ (total + seg.dataSize).toNat + (len - seg.dataSize).toNat = size.toNat := by
  have hsub := h.toNat_sub
  have hsize := size.toNat_lt
  have hadd : (total + seg.dataSize).toNat = total.toNat + seg.dataSize.toNat := by
    rw [UInt32.toNat_add, mod_eq_of_lt (by omega)]
  exact ⟨hadd, by omega⟩

theorem not_lt_eq_isEmpty (h : c.AtByte iov) :
    (!decide (c.iovIdx < iov.length)) = (c.rest iov).isEmpty := by
  rw [Bool.eq_iff_iff, List.isEmpty_iff, rest_eq_nil_iff h, Bool.not_eq_true',
    decide_eq_false_iff_not,
    Nat.not_lt]

theorem cutLast_end (h : c.AtByte iov) (hnil : c.rest iov = []) :
    c.cutLast iov len = (none, true, c) := by
  have hle := (rest_eq_nil_iff h).mp hnil
  rw [cutLast, if_neg (Nat.not_lt.mpr hle), decide_eq_false (Nat.not_lt.mpr hle)]
  rfl

theorem moved_rest (h : c.AtByte iov) (hlt : c.iovIdx < iov.length)
    (hiov : iov.flatten.length < 2 ^ 32)
    (hle : (iovAt iov c.iovIdx).length ≤ c.iovOffset.toNat + len.toNat) :
    Moved iov c len ⟨c.iovIdx, c.iovOffset, ofNat (iovAt iov c.iovIdx).length - c.iovOffset⟩
      ⟨skipEmpty iov (c.iovIdx + 1), 0⟩ := by
  have hbyte := h hlt
  have hlen := Nat.lt_of_le_of_lt (length_iovAt_le iov c.iovIdx) hiov
  have hof : (ofNat (iovAt iov c.iovIdx).length).toNat = (iovAt iov c.iovIdx).length :=
    toNat_ofNat_of_lt' hlen
  have hsize : (ofNat (iovAt iov c.iovIdx).length - c.iovOffset).toNat
      = (iovAt iov c.iovIdx).length - c.iovOffset.toNat := by
    rw [UInt32.toNat_sub_of_le _ _ (le_iff_toNat_le.mpr (by omega)), hof]
  obtain ⟨hat, hrest⟩ := skipEmpty_spec iov (c.iovIdx + 1)
  constructor
  case pos =>
    rw [lt_iff_toNat_lt, hsize]
    exact Nat.sub_pos_of_lt hbyte
  case le =>
    rw [le_iff_toNat_le, hsize]
    omega
  case inside =>
    refine ⟨hlt, ?_⟩
    show c.iovOffset.toNat + (ofNat _ - c.iovOffset).toNat ≤ (iovAt iov c.iovIdx).length
    omega
  case bytes =>
    rw [hrest, Segment.bytes, hsize, take_of_length_le (Nat.le_of_eq length_drop)]
    rfl
  case atByte => exact hat
  case offset => exact zero_le _

theorem moved_part (hlt : c.iovIdx < iov.length) (hlen : 0 < len)
    (hle : c.iovOffset.toNat + len.toNat < (iovAt iov c.iovIdx).length)
    (hadd : (c.iovOffset + len).toNat = c.iovOffset.toNat + len.toNat) :
    Moved iov c len ⟨c.iovIdx, c.iovOffset, len⟩ { c with iovOffset := c.iovOffset + len } := by
  constructor
  case pos => exact hlen
  case le => exact UInt32.le_refl _
  case inside => exact ⟨hlt, Nat.le_of_lt hle⟩
  case bytes => rw [rest, rest, Segment.bytes, hadd, ← append_assoc, ← drop_drop, take_append_drop]
  case atByte =>
    intro _
    show (c.iovOffset + len).toNat < _
    rw [hadd]
    exact hle
  case offset => exact Nat.le_of_eq hadd

/-- **A call that is not at the end moves the position over a segment.** -/
theorem cutLast_spec (h : c.Ready iov len.toNat) (hlen : 0 < len) (hne : c.rest iov ≠ []) :
    ∃ seg c', c.cutLast iov len = (some seg, (c'.rest iov).isEmpty, c')
      ∧ Moved iov c len seg c' := by
  have hlt : c.iovIdx < iov.length := by
    rw [← Nat.not_le, ← rest_eq_nil_iff h.atByte]
    exact hne
  have hadd : (c.iovOffset + len).toNat = c.iovOffset.toNat + len.toNat := by
    rw [UInt32.toNat_add, mod_eq_of_lt h.wrap]
  rw [cutLast, if_pos hlt, skipEmpty_eq h.atByte hlt, hadd]
  by_cases hle : (iovAt iov c.iovIdx).length ≤ c.iovOffset.toNat + len.toNat
  · have hmoved := moved_rest h.atByte hlt h.whole hle
    rw [if_pos hle, if_neg (Nat.not_le.mpr hlt)]
    refine ⟨_, _, ?_, hmoved⟩
    rw [← not_lt_eq_isEmpty hmoved.atByte]
  · have hmoved := moved_part hlt hlen (Nat.not_le.mp hle) hadd
    rw [if_neg hle]
    refine ⟨_, _, ?_, hmoved⟩
    rw [← not_lt_eq_isEmpty hmoved.atByte]

theorem cut_eq (c : IovConverter) (len : UInt32) :
    c.cut iov len = (dataSizeOf (c.cutLast iov len).1, (c.cutLast iov len).2.2) := by
  unfold cut cutLast
  dsimp only
  split_ifs <;> rfl

end Position

/-! ## One request -/

section Request

variable {iov : List (List UInt8)} {size left total : UInt32} {c : IovConverter}

/-- The segments of a request: from a position, for so many segments and with
so much room. -/
def cutRequest (iov : List (List UInt8)) : ℕ → IovConverter → UInt32 → List Segment × IovConverter
  | 0, c, _ => ([], c)
  | sges + 1, c, left =>
    if left = 0 then ([], c)
    else
      match c.cutLast iov left with
      | (none, _, c) => ([], c)
      | (some seg, _, c) =>
        let r := cutRequest iov sges c (left - seg.dataSize)
        (seg :: r.1, r.2)

/-- What is known of a request. -/
structure RequestSpec (iov : List (List UInt8)) (sges : ℕ) (c : IovConverter) (left : UInt32)
    (r : List Segment × IovConverter) : Prop where
  sges : r.1.length ≤ sges
  size : (r.1.flatMap (Segment.bytes iov)).length ≤ left.toNat
  inside : ∀ seg ∈ r.1, seg.Inside iov
  bytes : r.1.flatMap (Segment.bytes iov) ++ r.2.rest iov = c.rest iov
  atByte : r.2.AtByte iov
  offset : r.2.iovOffset.toNat ≤ c.iovOffset.toNat + left.toNat

theorem Segment.Inside.length_bytes (h : seg.Inside iov) :
    (seg.bytes iov).length = seg.dataSize.toNat := by
  have hle := h.2
  rw [Segment.bytes, length_take, length_drop]
  omega

theorem RequestSpec.stop (h : c.AtByte iov) (sges : ℕ) (left : UInt32) :
    RequestSpec iov sges c left ([], c) :=
  ⟨zero_le _, zero_le _, nofun, rfl, h, Nat.le_add_right ..⟩

theorem cutRequest_succ (sges : ℕ) (h : c.Ready iov left.toNat) (hleft : 0 < left)
    (hne : c.rest iov ≠ []) :
    ∃ seg c', c.cutLast iov left = (some seg, (c'.rest iov).isEmpty, c') ∧ Moved iov c left seg c'
      ∧ cutRequest iov (sges + 1) c left = (seg :: (cutRequest iov sges c' (left - seg.dataSize)).1,
          (cutRequest iov sges c' (left - seg.dataSize)).2) := by
  obtain ⟨seg, c', heq, hmoved⟩ := cutLast_spec h hleft hne
  refine ⟨seg, c', heq, hmoved, ?_⟩
  rw [cutRequest, if_neg (UInt32.pos_iff_ne_zero.mp hleft), heq]

theorem cutRequest_end (h : c.AtByte iov) (hnil : c.rest iov = []) (sges : ℕ) (left : UInt32) :
    cutRequest iov sges c left = ([], c) := by
  cases sges with
  | zero => rfl
  | succ sges =>
    rw [cutRequest, cutLast_end h hnil]
    exact ite_self _

theorem cutRequest_zero (c : IovConverter) (sges : ℕ) : cutRequest iov sges c 0 = ([], c) := by
  cases sges with
  | zero => rfl
  | succ sges => exact if_pos rfl

theorem cutRequest_spec (sges : ℕ) (h : c.Ready iov left.toNat) :
    RequestSpec iov sges c left (cutRequest iov sges c left) := by
  induction sges generalizing c left with
  | zero => exact .stop h.atByte 0 left
  | succ sges ih =>
    by_cases hleft : left = 0
    · rw [hleft, cutRequest_zero]
      exact .stop h.atByte _ 0
    · by_cases hnil : c.rest iov = []
      · rw [cutRequest_end h.atByte hnil]
        exact .stop h.atByte _ left
      · obtain ⟨seg, c', -, hmoved, hreq⟩ :=
          cutRequest_succ sges h (UInt32.pos_iff_ne_zero.mpr hleft) hnil
        rw [hreq]
        have hsub := hmoved.toNat_sub
        have hoff := hmoved.offset
        have hspec := ih (hmoved.ready h)
        constructor
        case sges => exact succ_le_succ hspec.sges
        case size =>
          have hsize := hspec.size
          rw [flatMap_cons, length_append, hmoved.inside.length_bytes]
          omega
        case inside => exact forall_mem_cons.mpr ⟨hmoved.inside, hspec.inside⟩
        case bytes => rw [flatMap_cons, append_assoc, hspec.bytes, hmoved.bytes]
        case atByte => exact hspec.atByte
        case offset =>
          have hoffset := hspec.offset
          show (cutRequest iov sges c' (left - seg.dataSize)).2.iovOffset.toNat ≤ _
          omega

theorem countSges_succ {sges : ℕ} {cutLen : UInt32} (hmore : total < size)
    (hcut : c.cut iov left = (cutLen, c')) (hne : cutLen ≠ 0) :
    countSges iov size (sges + 1) c left total
      = let r := countSges iov size sges c' (left - cutLen) (total + cutLen)
        ⟨r.umqBufCnt + 1, r.cutTotalLen, r.conv⟩ := by
  rw [countSges, if_pos hmore, hcut]
  exact if_pos hne

/-- The first pass counts the segments of a request. -/
theorem countSges_eq (sges : ℕ) (h : c.Ready iov left.toNat)
    (hsum : total.toNat + left.toNat = size.toNat) :
    let r := countSges iov size sges c left total
    let req := cutRequest iov sges c left
    r.umqBufCnt = req.1.length ∧ r.conv = req.2
      ∧ r.cutTotalLen.toNat = total.toNat + (req.1.flatMap (Segment.bytes iov)).length := by
  induction sges generalizing c left total with
  | zero => exact ⟨rfl, rfl, rfl⟩
  | succ sges ih =>
    by_cases hleft : left = 0
    · subst hleft
      have hfull : ¬total < size := by
        rw [lt_iff_toNat_lt, ← hsum]
        exact Nat.lt_irrefl _
      rw [countSges, if_neg hfull]
      exact ⟨rfl, rfl, rfl⟩
    · have hpos : 0 < left := UInt32.pos_iff_ne_zero.mpr hleft
      have hposNat := lt_iff_toNat_lt.mp hpos
      have hmore : total < size := by
        rw [lt_iff_toNat_lt, ← hsum]
        exact Nat.lt_add_of_pos_right hposNat
      by_cases hnil : c.rest iov = []
      · rw [countSges, if_pos hmore, cut_eq, cutLast_end h.atByte hnil,
          cutRequest_end h.atByte hnil]
        exact ⟨rfl, rfl, rfl⟩
      · obtain ⟨seg, c', heq, hmoved, hreq⟩ := cutRequest_succ sges h hpos hnil
        obtain ⟨hadd, hsum'⟩ := hmoved.toNat_add hsum
        obtain ⟨hcnt, hconv, htotal⟩ := ih (hmoved.ready h) hsum'
        have hcut : c.cut iov left = (seg.dataSize, c') := by
          rw [cut_eq, heq]
          rfl
        rw [countSges_succ hmore hcut (UInt32.pos_iff_ne_zero.mp hmoved.pos), hreq]
        refine ⟨congrArg (· + 1) hcnt, hconv, ?_⟩
        rw [flatMap_cons, length_append, hmoved.inside.length_bytes, ← Nat.add_assoc, ← hadd]
        exact htotal

/-- The second pass fills the segments of a request in. -/
theorem fillSges_eq (sges bufs sgeIdx : ℕ) (h : c.Ready iov left.toNat)
    (hsum : total.toNat + left.toNat = size.toNat) (hleft : 0 < left) (hne : c.rest iov ≠ [])
    (hsges : sgeIdx + (sges + 1) = sgeMax) {req} (hreq : cutRequest iov (sges + 1) c left = req)
    (hbufs : req.1.length ≤ bufs) : fillSges iov size bufs sgeIdx c left total
      = ⟨req.1.map some, bufs - req.1.length, req.2⟩ := by
  subst hreq
  induction sges generalizing bufs sgeIdx c left total with
  | zero =>
    obtain ⟨seg, c', heq, -, hreq⟩ := cutRequest_succ 0 h hleft hne
    rw [hreq] at hbufs ⊢
    obtain ⟨bufs, rfl⟩ := Nat.exists_eq_add_of_le' hbufs
    have hstop : sgeIdx + 1 ≥ sgeMax := Nat.le_of_eq hsges.symm
    rw [cutRequest, length_singleton, fillSges, heq]
    exact if_pos (.inr (.inl hstop))
  | succ sges ih =>
    obtain ⟨seg, c', heq, hmoved, hreq⟩ := cutRequest_succ (sges + 1) h hleft hne
    obtain ⟨-, hsum'⟩ := hmoved.toNat_add hsum
    rw [hreq] at hbufs ⊢
    obtain ⟨bufs, rfl⟩ : ∃ n, bufs = n + 1 :=
      exists_eq_succ_of_ne_zero (Nat.ne_of_gt (Nat.lt_of_lt_of_le (succ_pos _) hbufs))
    have hbufs := le_of_succ_le_succ hbufs
    rw [fillSges, heq]
    by_cases hstop : (c'.rest iov).isEmpty = true ∨ sgeIdx + 1 ≥ sgeMax
        ∨ total + dataSizeOf (some seg) ≥ size
    · -- the request ends here, and so it does in `cutRequest`
      have hend : cutRequest iov (sges + 1) c' (left - seg.dataSize) = ([], c') := by
        rcases hstop with hnil | hmax | hfull
        · exact cutRequest_end hmoved.atByte (isEmpty_iff.mp hnil) _ _
        · omega
        · have hfull : size.toNat ≤ (total + seg.dataSize).toNat := le_iff_toNat_le.mp hfull
          have hzero : left - seg.dataSize = 0 := UInt32.toNat_inj.mp (by
            show _ = 0
            omega)
          rw [hzero]
          exact cutRequest_zero c' _
      rw [hend]
      exact if_pos hstop
    · have hnil : c'.rest iov ≠ [] := fun hnil => hstop (.inl (isEmpty_iff.mpr hnil))
      have hleft' : 0 < left - seg.dataSize := by
        have hfull : ¬size.toNat ≤ (total + seg.dataSize).toNat := fun hfull =>
          hstop (.inr (.inr (le_iff_toNat_le.mpr hfull)))
        rw [lt_iff_toNat_lt]
        show 0 < _
        omega
      have hrec := ih bufs (sgeIdx + 1) (hmoved.ready h) hsum' hleft' hnil (by omega) hbufs
      refine (if_neg hstop).trans ?_
      refine (congrArg (fun r : FilledRequest => { r with segments := some seg :: r.segments })
        hrec).trans ?_
      rw [map_cons, length_cons, Nat.add_sub_add_right]

end Request

/-! ## All requests -/

section Requests

variable {iov : List (List UInt8)} {size : UInt32} {c : IovConverter}

/-- The requests from a position on, at most so many. -/
def cutRequests (iov : List (List UInt8)) (size : UInt32) : ℕ → IovConverter → List (List Segment)
  | 0, _ => []
  | n + 1, c =>
    if (c.rest iov).isEmpty then []
    else
      let r := cutRequest iov sgeMax c size
      r.1 :: cutRequests iov size n r.2

theorem cutRequests_end (hnil : c.rest iov = []) (n : ℕ) : cutRequests iov size n c = [] := by
  cases n with
  | zero => rfl
  | succ n => exact if_pos (isEmpty_iff.mpr hnil)

theorem cutRequests_succ (hne : c.rest iov ≠ []) (n : ℕ) :
    cutRequests iov size (n + 1) c = (cutRequest iov sgeMax c size).1
      :: cutRequests iov size n (cutRequest iov sgeMax c size).2 :=
  if_neg fun hempty => hne (isEmpty_iff.mp hempty)

/-- What is known of all requests. -/
structure RequestsSpec (iov : List (List UInt8)) (size : UInt32) (n : ℕ) (c : IovConverter)
    (reqs : List (List Segment)) : Prop where
  batch : reqs.length ≤ n
  sges : ∀ req ∈ reqs, req.length ≤ sgeMax
  size : ∀ req ∈ reqs, (req.flatMap (Segment.bytes iov)).length ≤ size.toNat
  inside : ∀ req ∈ reqs, ∀ seg ∈ req, seg.Inside iov
  bytes : reqs.flatten.flatMap (Segment.bytes iov) <+: c.rest iov
  whole : reqs.length < n → reqs.flatten.flatMap (Segment.bytes iov) = c.rest iov

/-- Ready for the requests is ready for the first of them, and then for the rest. -/
theorem IovConverter.Ready.request {n : ℕ} (h : c.Ready iov ((n + 1) * size.toNat)) :
    c.Ready iov size.toNat ∧ (cutRequest iov sgeMax c size).2.Ready iov (n * size.toNat) := by
  have hwrap := h.wrap
  rw [succ_mul] at hwrap
  have hfirst : c.Ready iov size.toNat := ⟨h.atByte, by omega, h.whole⟩
  have hspec := cutRequest_spec sgeMax hfirst
  have hoff := hspec.offset
  exact ⟨hfirst, hspec.atByte, by omega, h.whole⟩

theorem cutRequests_spec (n : ℕ) (h : c.Ready iov (n * size.toNat)) :
    RequestsSpec iov size n c (cutRequests iov size n c) := by
  induction n generalizing c with
  | zero =>
    exact ⟨Nat.le_refl 0, nofun, nofun, nofun, nil_prefix, fun hlt => absurd hlt (Nat.lt_irrefl 0)⟩
  | succ n ih =>
    by_cases hnil : c.rest iov = []
    · rw [cutRequests_end hnil]
      exact ⟨zero_le _, nofun, nofun, nofun, nil_prefix, fun _ => hnil.symm⟩
    · rw [cutRequests_succ hnil]
      have hspec := cutRequest_spec sgeMax h.request.1
      have hrest := ih h.request.2
      constructor
      case batch => exact succ_le_succ hrest.batch
      case sges => exact forall_mem_cons.mpr ⟨hspec.sges, hrest.sges⟩
      case size => exact forall_mem_cons.mpr ⟨hspec.size, hrest.size⟩
      case inside => exact forall_mem_cons.mpr ⟨hspec.inside, hrest.inside⟩
      case bytes =>
        rw [flatten_cons, flatMap_append, ← hspec.bytes]
        exact (prefix_append_right_inj _).mpr hrest.bytes
      case whole =>
        intro hlt
        rw [flatten_cons, flatMap_append, hrest.whole (lt_of_succ_lt_succ hlt), hspec.bytes]

theorem cutRequest_pos (h : c.Ready iov size.toNat) (hpos : 0 < size) (hne : c.rest iov ≠ []) :
    0 < (cutRequest iov sgeMax c size).1.length
      ∧ 0 < ((cutRequest iov sgeMax c size).1.flatMap (Segment.bytes iov)).length := by
  obtain ⟨seg, c', -, hmoved, hreq⟩ := cutRequest_succ 5 h hpos hne
  rw [sgeMax, hreq]
  refine ⟨succ_pos _, ?_⟩
  rw [flatMap_cons, length_append, hmoved.inside.length_bytes]
  exact Nat.lt_of_lt_of_le (lt_iff_toNat_lt.mp hmoved.pos) (Nat.le_add_right ..)

/-- **The first pass counts the requests and their segments.** -/
theorem countBatch_eq (n : ℕ) (h : c.Ready iov (n * size.toNat)) (hpos : 0 < size) :
    countBatch iov size n c
      = ((cutRequests iov size n c).length, (cutRequests iov size n c).flatten.length) := by
  induction n generalizing c with
  | zero => rfl
  | succ n ih =>
    obtain ⟨hfirst, hrest⟩ := h.request
    obtain ⟨hcnt, hconv, htotal⟩ := countSges_eq sgeMax hfirst
      (show (0 : UInt32).toNat + size.toNat = size.toNat from Nat.zero_add _)
    rw [countBatch, hcnt, hconv]
    by_cases hnil : c.rest iov = []
    · rw [cutRequest_end h.atByte hnil] at htotal ⊢
      have hzero : (countSges iov size sgeMax c size 0).cutTotalLen = 0 :=
        UInt32.toNat_inj.mp htotal
      rw [hzero, cutRequests_end hnil]
      rfl
    · obtain ⟨-, hbytes⟩ := cutRequest_pos hfirst hpos hnil
      have hne : (countSges iov size sgeMax c size 0).cutTotalLen ≠ 0 := by
        intro hzero
        rw [hzero] at htotal
        omega
      rw [if_pos hne, cutRequests_succ hnil, ih hrest, length_cons, flatten_cons, length_append,
        Nat.add_comm (cutRequest iov sgeMax c size).1.length]

/-- **The second pass fills the same requests in.** -/
theorem fillBatch_eq (n : ℕ) (h : c.Ready iov (n * size.toNat)) (hpos : 0 < size) :
    fillBatch iov size (cutRequests iov size n c).length (cutRequests iov size n c).flatten.length c
      = some ((cutRequests iov size n c).map fun req => req.map some) := by
  induction n generalizing c with
  | zero => rfl
  | succ n ih =>
    obtain ⟨hfirst, hrest⟩ := h.request
    by_cases hnil : c.rest iov = []
    · rw [cutRequests_end hnil]
      rfl
    · obtain ⟨hlen, -⟩ := cutRequest_pos hfirst hpos hnil
      have hfill := fillSges_eq 5 ((cutRequest iov sgeMax c size).1
        :: cutRequests iov size n (cutRequest iov sgeMax c size).2).flatten.length 0
        hfirst (show (0 : UInt32).toNat + size.toNat = size.toNat from Nat.zero_add _)
        hpos hnil rfl rfl (by rw [flatten_cons, length_append]; exact Nat.le_add_right ..)
      rw [cutRequests_succ hnil, length_cons, fillBatch, if_neg, hfill]
      · rw [flatten_cons, length_append]
        show Option.map _ (fillBatch iov size _ ((cutRequest iov sgeMax c size).1.length + _
          - (cutRequest iov sgeMax c size).1.length) (cutRequest iov sgeMax c size).2) = _
        rw [Nat.add_sub_cancel_left, ih hrest]
        rfl
      · rw [flatten_cons, length_append]
        omega

theorem cutRequests_pos {n : ℕ} (h : c.Ready iov (n * size.toNat)) (hpos : 0 < size)
    (hne : cutRequests iov size n c ≠ []) :
    0 < (cutRequests iov size n c).flatten.length ∧ c.rest iov ≠ [] := by
  cases n with
  | zero => exact absurd rfl hne
  | succ n =>
    have hnil : c.rest iov ≠ [] := fun hnil => hne (cutRequests_end hnil _)
    obtain ⟨hlen, -⟩ := cutRequest_pos h.request.1 hpos hnil
    refine ⟨?_, hnil⟩
    rw [cutRequests_succ hnil, flatten_cons, length_append]
    exact Nat.lt_of_lt_of_le hlen (Nat.le_add_right ..)

end Requests

/-! ## The beginning of the list -/

section Start

variable {iov : List (List UInt8)} {size : UInt32} {windowSize : ℕ} {last : Bool}

section

variable (iov : List (List UInt8))

/-- Where the first byte is. -/
def firstByte : IovConverter := ⟨skipEmpty iov 0, 0⟩

theorem firstByte_atByte : (firstByte iov).AtByte iov := (skipEmpty_spec iov 0).1

theorem rest_firstByte : (firstByte iov).rest iov = iov.flatten := (skipEmpty_spec iov 0).2

end

theorem firstByte_eq (h : iov.head? ≠ some []) : firstByte iov = {} := by
  cases iov with
  | nil => rfl
  | cons v vs =>
    have hv : ¬v.length = 0 := fun hv => h (congrArg some (length_eq_zero_iff.mp hv))
    rw [firstByte, skipEmpty, drop_zero, emptyCount, if_neg hv]

theorem iovAt_zero_of_head (h : iov.head? = some []) :
    0 < iov.length ∧ (iovAt iov 0).length = 0 := by
  cases iov with
  | nil => exact nomatch h
  | cons v vs =>
    cases h
    exact ⟨succ_pos _, rfl⟩

/-- A list that begins with an empty vector: the comparison is with that one,
and the first vector that is not empty is taken whole. -/
theorem cutLast_start (h : iov.head? = some []) (hlt : skipEmpty iov 0 < iov.length)
    (len : UInt32) :
    cutLast iov {} len = (some ⟨skipEmpty iov 0, 0, ofNat (iovAt iov (skipEmpty iov 0)).length - 0⟩,
        !decide (skipEmpty iov (skipEmpty iov 0 + 1) < iov.length),
        ⟨skipEmpty iov (skipEmpty iov 0 + 1), 0⟩) := by
  obtain ⟨hpos, hempty⟩ := iovAt_zero_of_head h
  rw [cutLast, if_pos hpos]
  exact (if_pos (Nat.le_trans (Nat.le_of_eq hempty) (zero_le _))).trans
    (if_neg (Nat.not_le.mpr hlt))

section

variable (hfits : iov.head? = some [] → (iovAt iov (skipEmpty iov 0)).length ≤ size.toNat)
include hfits

/-- Where the comparison does no harm, the first call is as from the first
byte. -/
theorem cutLast_firstByte (hlt : skipEmpty iov 0 < iov.length) :
    cutLast iov {} size = (firstByte iov).cutLast iov size := by
  by_cases hhead : iov.head? = some []
  · have hle : ((0 : UInt32) + size).toNat ≥ (iovAt iov (skipEmpty iov 0)).length := by
      rw [UInt32.zero_add]
      exact hfits hhead
    have hskip : skipEmpty iov (skipEmpty iov 0) = skipEmpty iov 0 :=
      skipEmpty_eq (firstByte_atByte iov) hlt
    rw [cutLast_start hhead hlt, firstByte]
    refine ((if_pos hlt).trans ((if_pos hle).trans ?_)).symm
    rw [hskip]
    exact if_neg (Nat.not_le.mpr hlt)
  · rw [firstByte_eq hhead]

theorem cut_firstByte : cut iov {} size = (firstByte iov).cut iov size := by
  by_cases hlt : skipEmpty iov 0 < iov.length
  · rw [cut_eq, cut_eq, cutLast_firstByte hfits hlt]
  · by_cases hhead : iov.head? = some []
    · obtain ⟨hpos, hempty⟩ := iovAt_zero_of_head hhead
      have hend : (firstByte iov).cut iov size = (0, firstByte iov) := if_neg hlt
      rw [hend, cut, if_pos hpos]
      exact (if_pos (Nat.le_trans (Nat.le_of_eq hempty) (zero_le _))).trans
        (if_pos (Nat.not_lt.mp hlt))
    · rw [firstByte_eq hhead]

theorem countBatch_firstByte (hpos : 0 < size) (n : ℕ) :
    countBatch iov size n {} = countBatch iov size n (firstByte iov) := by
  cases n with
  | zero => rfl
  | succ n =>
    have hcount : countSges iov size sgeMax {} size 0
        = countSges iov size sgeMax (firstByte iov) size 0 := by
      rw [sgeMax, countSges, if_pos hpos, cut_firstByte hfits, countSges, if_pos hpos]
    rw [countBatch, countBatch, hcount]

theorem fillBatch_firstByte (hlt : skipEmpty iov 0 < iov.length) (batch bufs : ℕ) :
    fillBatch iov size batch bufs {} = fillBatch iov size batch bufs (firstByte iov) := by
  cases batch with
  | zero => rfl
  | succ batch =>
    cases bufs with
    | zero => rfl
    | succ bufs =>
      have hfill : fillSges iov size (bufs + 1) 0 {} size 0
          = fillSges iov size (bufs + 1) 0 (firstByte iov) size 0 := by
        rw [fillSges, fillSges, cutLast_firstByte hfits hlt]
      rw [fillBatch, fillBatch, hfill]

end

/-- A first segment that is longer than an io buffer makes a request of its
own, in the first pass … -/
theorem countBatch_overlong (hpos : 0 < size) (hwindow : 0 < windowSize)
    (hfull : seg.dataSize ≥ size)
    (hcut : cutLast iov {} size = (some seg, last, c')) :
    ∃ batch umqBufCnt, countBatch iov size (min windowSize postBatchMax) {}
      = (batch + 1, umqBufCnt + 1) := by
  have hne : seg.dataSize ≠ 0 := UInt32.pos_iff_ne_zero.mp (UInt32.lt_of_lt_of_le hpos hfull)
  have hcut' : cut iov {} size = (seg.dataSize, c') := by
    rw [cut_eq, hcut]
    rfl
  have hstop : countSges iov size 5 c' (size - seg.dataSize) (0 + seg.dataSize)
      = ⟨0, seg.dataSize, c'⟩ := by
    rw [UInt32.zero_add]
    exact if_neg (UInt32.not_lt.mpr hfull)
  have hsges : countSges iov size sgeMax {} size 0 = ⟨1, seg.dataSize, c'⟩ := by
    rw [sgeMax, countSges_succ hpos hcut' hne, hstop]
  obtain ⟨n, hn⟩ : ∃ n, min windowSize postBatchMax = n + 1 :=
    exists_eq_succ_of_ne_zero (Nat.ne_of_gt (Nat.lt_min.mpr ⟨hwindow, succ_pos _⟩))
  rw [hn, countBatch, hsges]
  exact ⟨_, _, if_pos hne⟩

end Start

/-! ## The whole of it -/

section Whole

variable {iov : List (List UInt8)} {windowSize : ℕ} {blockSize : UmqBufBlockSize}

theorem brpcIOBufSize_pos (blockSize : UmqBufBlockSize) : 0 < brpcIOBufSize blockSize := by
  cases blockSize <;> decide

theorem RequestsSpec.correct {reqs : List (List Segment)}
    (h : RequestsSpec iov (brpcIOBufSize blockSize) (min windowSize postBatchMax) (firstByte iov)
      reqs) :
    Built.Correct iov ⟨reqs.flatten.length, reqs.map fun req => req.map some⟩ windowSize
      blockSize where
  batch := by simpa using h.batch
  sges := by simpa using h.sges
  size := by
    refine forall_mem_map.mpr fun req hreq => ?_
    rw [flatMap_map]
    exact h.size req hreq
  inside := by simpa using h.inside
  bytes := by
    rw [← map_flatten, flatMap_map, ← rest_firstByte]
    exact h.bytes
  counted := by rw [← map_flatten, length_map]
  whole := by
    rw [length_map, ← map_flatten, flatMap_map, ← rest_firstByte]
    exact h.whole

theorem buildRequests_correct (hiov : iov.flatten.length < 2 ^ 32)
    (hfits : FirstFits iov blockSize) :
    ∃ b, buildRequests iov windowSize blockSize = some b ∧ b.Correct iov windowSize blockSize := by
  have hpos := brpcIOBufSize_pos blockSize
  have hready : (firstByte iov).Ready iov
      (min windowSize postBatchMax * (brpcIOBufSize blockSize).toNat) := by
    refine ⟨firstByte_atByte iov, ?_, hiov⟩
    have hmul := Nat.mul_le_mul (Nat.min_le_right windowSize postBatchMax)
      (show (brpcIOBufSize blockSize).toNat ≤ 65504 by cases blockSize <;> decide)
    have hmul : _ ≤ 64 * 65504 := hmul
    show 0 + _ < _
    omega
  have hspec := cutRequests_spec (min windowSize postBatchMax) hready
  have hfill := fillBatch_eq (min windowSize postBatchMax) hready hpos
  refine ⟨_, ?_, hspec.correct⟩
  rw [buildRequests, countBatch_firstByte hfits hpos,
    countBatch_eq (min windowSize postBatchMax) hready hpos]
  by_cases hnone : cutRequests iov (brpcIOBufSize blockSize) (min windowSize postBatchMax)
      (firstByte iov) = []
  · rw [hnone]
    rfl
  · obtain ⟨hlen, hrest⟩ := cutRequests_pos hready hpos hnone
    have hlt : skipEmpty iov 0 < iov.length := by
      rw [← Nat.not_le]
      exact fun hle => hrest ((rest_eq_nil_iff hready.atByte).mpr hle)
    refine (if_neg (Nat.ne_of_gt hlen)).trans ?_
    rw [fillBatch_firstByte hfits hlt, hfill, map_some]

/-- The first request if the first vector that is not empty is taken whole and
does not fit. -/
theorem buildRequests_overlong_head (hwindow : 0 < windowSize)
    (hiov : iov.flatten.length < 2 ^ 32) (hfits : ¬FirstFits iov blockSize) {b : Built}
    (hb : buildRequests iov windowSize blockSize = some b) :
    ∃ req ∈ b.requests, (brpcIOBufSize blockSize).toNat < (req.flatMap (bufBytes iov)).length := by
  rw [FirstFits, Classical.not_imp, Nat.not_le] at hfits
  obtain ⟨hhead, hlong⟩ := hfits
  have hlt : skipEmpty iov 0 < iov.length := by
    by_contra hle
    rw [iovAt_of_le (Nat.not_lt.mp hle)] at hlong
    cases hlong
  have hlen := Nat.lt_of_le_of_lt (length_iovAt_le iov (skipEmpty iov 0)) hiov
  -- what the first call moves the position by
  obtain ⟨seg, hseg⟩ : ∃ seg : Segment, seg = ⟨skipEmpty iov 0, 0,
    ofNat (iovAt iov (skipEmpty iov 0)).length - 0⟩ := ⟨_, rfl⟩
  have hsize : seg.dataSize.toNat = (iovAt iov (skipEmpty iov 0)).length := by
    rw [hseg]
    show (ofNat _ - 0).toNat = _
    rw [UInt32.sub_zero, toNat_ofNat_of_lt' hlen]
  have hbytes : (seg.bytes iov).length = (iovAt iov (skipEmpty iov 0)).length := by
    rw [Segment.bytes, hsize, hseg, length_take]
    show min _ ((iovAt iov (skipEmpty iov 0)).drop 0).length = _
    rw [drop_zero, Nat.min_self]
  have hfull : seg.dataSize ≥ brpcIOBufSize blockSize :=
    le_iff_toNat_le.mpr (hsize ▸ Nat.le_of_lt hlong)
  have hcutLast := cutLast_start hhead hlt (brpcIOBufSize blockSize)
  rw [← hseg] at hcutLast
  obtain ⟨batch, umqBufCnt, hcount⟩ :=
    countBatch_overlong (brpcIOBufSize_pos _) hwindow hfull hcutLast
  rw [buildRequests, hcount] at hb
  have hb : Option.map _ (fillBatch iov (brpcIOBufSize blockSize) (batch + 1) (umqBufCnt + 1) {})
    = some b := hb
  rw [map_eq_some_iff] at hb
  obtain ⟨reqs, hfill, rfl⟩ := hb
  rw [fillBatch, if_neg (succ_ne_zero _), fillSges, hcutLast] at hfill
  dsimp only at hfill
  rw [UInt32.zero_add, if_pos (.inr (.inr hfull)), map_eq_some_iff] at hfill
  obtain ⟨rest, -, rfl⟩ := hfill
  refine ⟨[some seg], mem_cons_self, ?_⟩
  rw [flatMap_singleton]
  exact hbytes ▸ hlong

/-- **The requests are cut correctly exactly if the first vector that is not
empty fits into an io buffer or is the first of all.** -/
theorem cutsCorrectly_iff (iov : List (List UInt8)) (windowSize : ℕ) (blockSize : UmqBufBlockSize)
    (hwindow : 1 ≤ windowSize ∧ windowSize ≤ 65535) (hiov : iov.flatten.length < 2 ^ 32) :
    (∃ b, buildRequests iov windowSize blockSize = some b ∧ b.Correct iov windowSize blockSize)
      ↔ FirstFits iov blockSize := by
  constructor
  · rintro ⟨b, hb, hcorrect⟩
    by_contra hfits
    obtain ⟨req, hreq, hlong⟩ := buildRequests_overlong_head hwindow.1 hiov hfits hb
    exact absurd (hcorrect.size req hreq) (Nat.not_le.mpr hlong)
  · exact buildRequests_correct hiov

/-- A list with empty vectors in it, the first one among them. -/
theorem cutsCorrectly_iff_empty_first :
    (∃ b, buildRequests [[], [1, 2, 3], [], [4]] 5 .blockSize8K = some b
        ∧ b.Correct [[], [1, 2, 3], [], [4]] 5 .blockSize8K)
      ↔ FirstFits [[], [1, 2, 3], [], [4]] .blockSize8K :=
  cutsCorrectly_iff [[], [1, 2, 3], [], [4]] 5 .blockSize8K (by decide) (by decide)

/-- A vector behind an empty one, with one byte more than an io buffer has. -/
theorem buildRequests_behind_empty {v : List UInt8} (hv : v.length = 8161) :
    buildRequests [[], v] 1 .blockSize8K = some ⟨1, [[some ⟨1, 0, 8161⟩]]⟩ := by
  simp [buildRequests, countBatch, countSges, cut, skipEmpty, emptyCount, iovAt,
    fillBatch, fillSges, cutLast, brpcIOBufSize, postBatchMax, sgeMax, hv]

/-- **Behind an empty vector, a vector of 8161 bytes is one request**, and that
is one byte more than an io buffer has. -/
theorem buildRequests_overlong :
    buildRequests [[], List.replicate 8161 0] 1 .blockSize8K = some ⟨1, [[some ⟨1, 0, 8161⟩]]⟩
      ∧ ¬Built.Correct [[], List.replicate 8161 0] ⟨1, [[some ⟨1, 0, 8161⟩]]⟩ 1 .blockSize8K := by
  refine ⟨buildRequests_behind_empty length_replicate, fun hcorrect => ?_⟩
  have hsize := hcorrect.size [some ⟨1, 0, 8161⟩] mem_cons_self
  rw [flatMap_singleton] at hsize
  have hlen : (bufBytes [[], replicate 8161 0] (some ⟨1, 0, 8161⟩)).length = 8161 := by
    show (((replicate 8161 (0 : UInt8)).drop 0).take 8161).length = 8161
    rw [drop_zero, length_take, length_replicate, Nat.min_self]
  rw [hlen] at hsize
  exact absurd hsize (by decide)

end Whole

end Brpc
