import UbsComm.Sock.OneSide

/-!
# What the one-sided handlers touch

A reaction to a frame is **safe** (`Reaction.Safe`) when every byte it
reads lies in the received body or in a registered region, every byte it
writes lies in a registered region or in the buffers of the matching local
request, and a write request that is rejected has written nothing.

`Worker.HoldsWhen` says, kind by kind and in terms of the frame and of what
the worker finds outside it, when the reaction is safe, and
`handleReceiveCtx_safe_iff` that it is safe exactly then. The conditions
are those the handlers do not check:

- the region check is made on an address sum that wraps, so a size that
  reaches past the top of the address space is accepted;
- the single write does not compare the size in its element with what has
  been received, and the scattered write does so on a 32-bit sum that wraps;
- the answer to a scattered read is checked by the sizes the peer reports
  and then copied by the sizes of the request;
- both writes can be rejected after bytes have been copied: when no context
  object is left for the acknowledgement, and, element after element, when
  a later element is refused.
-/

namespace Sock

open Effect Worker TransSgeIov OpCtx Reaction CopyResult
open List hiding count

/-! ## Safety -/

/-- The memory an effect reads. -/
def Effect.reads : Effect → List (UInt64 × ℕ)
  | .load address count => [(address, count)]
  | .copy _ src count => [(src, count)]
  | .post _ _ segments => segments
  | _ => []

/-- The memory an effect writes. -/
def Effect.writes : Effect → List (UInt64 × ℕ)
  | .copy dest _ count => [(dest, count)]
  | .zero dest count => [(dest, count)]
  | _ => []

/-- The effect hands an acknowledgement to the socket. -/
def Effect.IsPost : Effect → Prop
  | .post _ _ _ => True
  | _ => False

/-- Every byte of the memory satisfies `P`. -/
def Covered (P : UInt64 → Prop) (segments : List (UInt64 × ℕ)) : Prop :=
  ∀ seg ∈ segments, ∀ i < seg.2, P (seg.1 + UInt64.ofNat i)

/-- The byte at `a` lies in the received body. -/
def OpCtx.InBody (c : OpCtx) (a : UInt64) : Prop :=
  c.dataAddress.toNat ≤ a.toNat ∧ a.toNat < c.dataAddress.toNat + c.body.length

/-- The byte at `a` lies in one of the elements of the request. -/
def LocalRequest.Holds (req : LocalRequest) (a : UInt64) : Prop :=
  ∃ iov ∈ req.iov, ∃ i < iov.size.toNat, a = iov.lAddress + UInt64.ofNat i

variable {α : Type}

section Safety

variable (w : Worker) (c : OpCtx)

/-- The local request a frame answers; a request of the peer answers
none. -/
def Worker.matching : Option LocalRequest :=
  match c.header.kind with
  | some .readAck | some .readSglAck => w.requests c.header.seqNo
  | _ => none

/-- What may be read: the body and registered memory. -/
def Worker.MayRead (a : UInt64) : Prop := c.InBody a ∨ w.ranges.Registered a

/-- What may be written: registered memory and the buffers of the request. -/
def Worker.MayWrite (a : UInt64) : Prop := w.ranges.Registered a ∨ ∃ req ∈ w.matching c, req.Holds a

/-- The effect reads and writes only what it may. -/
def Worker.Allows (e : Effect) : Prop :=
  Covered (w.MayRead c) e.reads ∧ Covered (w.MayWrite c) e.writes

/-- The frame asks for a write. -/
def OpCtx.IsWrite : Prop := c.header.kind = some .write ∨ c.header.kind = some .writeSgl

/-- No acknowledgement has been handed to the socket. -/
def Reaction.Rejected (r : Reaction) : Prop := ∀ e ∈ r.effects, ¬e.IsPost

/-- **A safe reaction**: received bytes and registered memory are all that
is read, registered memory and the matching local request are all that is
written, and a write request that is rejected has written nothing. -/
def Reaction.Safe (r : Reaction) : Prop :=
  (∀ e ∈ r.effects, w.Allows c e) ∧ (c.IsWrite → r.Rejected → ∀ e ∈ r.effects, e.writes = [])

/-! ## When the handlers are safe -/

/-- The region check has not been made on a sum that has wrapped. -/
def TransSgeIov.NoWrap (iov : TransSgeIov) : Prop := iov.rAddress.toNat + iov.size.toNat < 2 ^ 64

/-- What of the `count` bytes from an offset of the body on lies past the
body is registered; there is nothing of that kind when they fit. -/
def Worker.PastBodyRegistered (off count : ℕ) : Prop :=
  ∀ i < count, c.body.length ≤ off + i →
    w.ranges.Registered (c.dataAddress + UInt64.ofNat (off + i))

/-- Both context objects of an acknowledgement can be had. -/
def Worker.ContextsLeft : Prop := w.opCtxLeft = true ∧ w.sglCtxLeft = true

/-- The elements with the 32-bit offsets their bytes are copied from. -/
def copyPlan : UInt32 → List TransSgeIov → List (UInt32 × TransSgeIov)
  | _, [] => []
  | copyOffset, iov :: rest => (copyOffset, iov) :: copyPlan (copyOffset + iov.size) rest

/-- What becomes of one element of the plan. -/
def copyOutcome (valid : TransSgeIov → Bool) (dest : TransSgeIov → UInt64)
    (data : UInt64) (p : UInt32 × TransSgeIov) : CopyResult :=
  if valid p.2 then memcpyS (dest p.2) p.2.size.toUInt64 (data + p.1.toUInt64) p.2.size.toUInt64
  else .refused

/-- The beginning of a list up to its first element that fails, included. -/
def reached (ok : α → Bool) : List α → List α
  | [] => []
  | a :: rest => if ok a then a :: reached ok rest else [a]

/-- The outcome of each element of a scattered write. -/
def Worker.writeOutcome (p : UInt32 × TransSgeIov) : CopyResult :=
  copyOutcome w.valid TransSgeIov.rAddress (c.dataAddress + UInt64.ofNat c.dataOffset) p

/-- The outcome of each element of the request a scattered read answers. -/
def OpCtx.readOutcome (p : UInt32 × TransSgeIov) : CopyResult :=
  copyOutcome (fun _ => true) TransSgeIov.lAddress (c.dataAddress + UInt64.ofNat c.dataOffset) p

namespace Worker

/-- A read is safe unless its region check has wrapped. -/
def ReadHolds : Prop :=
  sizeofIov ≤ c.dataSize → w.valid (c.iovAt 0) = true → w.ContextsLeft → (c.iovAt 0).NoWrap

/-- A scattered read is safe unless one of its region checks has wrapped. -/
def ReadSglHolds : Prop :=
  c.checkIovLen = true → c.iovs.all w.valid = true → w.ContextsLeft → ∀ iov ∈ c.iovs, iov.NoWrap

/-- A write is safe when it copies nothing, or when it is answered, its
region check has not wrapped and its bytes have been received. -/
def WriteHolds : Prop :=
  sizeofIov ≤ c.dataSize → w.valid (c.iovAt 0) = true →
    match memcpyS (c.iovAt 0).rAddress (c.iovAt 0).size.toUInt64
      (c.dataAddress + UInt64.ofNat sizeofIov) (c.iovAt 0).size.toUInt64 with
    | .refused | .same => True
    | .reset => False
    | .copied => w.ContextsLeft ∧ (c.iovAt 0).NoWrap
        ∧ w.PastBodyRegistered c sizeofIov (c.iovAt 0).size.toNat

/-- All elements of a scattered write can be copied, and the contexts for
the acknowledgement can be had. -/
def WriteSglAnswered : Prop :=
  (∀ p ∈ copyPlan 0 c.iovs, (w.writeOutcome c p).ok = true) ∧ w.ContextsLeft

/-- A scattered write is safe when all its elements are copied and it is
answered, each with a region check that has not wrapped and bytes that have
been received; or when nothing is copied before it is rejected. -/
def WriteSglHolds : Prop :=
  c.checkIovLen = true → c.dataOffset + (sizeSum c.iovs).toNat ≤ c.dataSize →
    (w.WriteSglAnswered c → ∀ p ∈ copyPlan 0 c.iovs, w.writeOutcome c p = .copied → p.2.NoWrap
        ∧ w.PastBodyRegistered c (c.dataOffset + p.1.toNat) p.2.size.toNat)
    ∧ (¬w.WriteSglAnswered c → ∀ p ∈ reached (fun p => (w.writeOutcome c p).ok) (copyPlan 0 c.iovs),
        w.writeOutcome c p ≠ .copied ∧ w.writeOutcome c p ≠ .reset)

/-- The answer to a scattered read is safe when the bytes the request has
room for have been received. -/
def ReadSglAckHolds (req : LocalRequest) : Prop :=
  req.sock = w.sock → c.checkIovLen = true → c.iovCount.toNat = req.iov.length →
    req.dataLength + sizeSum c.iovs = c.header.dataLength →
    ∀ p ∈ reached (fun p => (c.readOutcome p).ok) (copyPlan 0 req.iov),
      c.readOutcome p = .copied → w.PastBodyRegistered c (c.dataOffset + p.1.toNat) p.2.size.toNat

/-- **The frames that are handled safely**, by their kind. -/
def HoldsWhen : Prop :=
  w.upContext ≠ 0 → match c.header.kind with
    | some .read => w.ReadHolds c
    | some .readSgl => w.ReadSglHolds c
    | some .write => w.WriteHolds c
    | some .writeSgl => w.WriteSglHolds c
    | some .readSglAck => ∀ req ∈ w.requests c.header.seqNo, w.ReadSglAckHolds c req
    | _ => True

end Worker

end Safety

/-! ## Bytes and addresses -/

theorem toNat_add_ofNat (a : UInt64) (i : ℕ) :
    (a + UInt64.ofNat i).toNat = (a.toNat + i) % 2 ^ 64 := by
  rw [UInt64.toNat_add, UInt64.toNat_ofNat', Nat.add_mod_mod]

theorem covered_nil (P : UInt64 → Prop) : Covered P [] := nofun

variable {a : UInt64} {l : List α} {count : ℕ}

theorem covered_singleton {P : UInt64 → Prop} {n : ℕ} :
    Covered P [(a, n)] ↔ ∀ i < n, P (a + UInt64.ofNat i) := by
  unfold Covered
  simp only [mem_singleton, forall_eq]

/-- The top byte of the address space is in no region: the end of a region
is a machine word itself. -/
theorem RangeCache.not_registered_top (cache : RangeCache) (ha : a.toNat = 2 ^ 64 - 1) :
    ¬cache.Registered a := by
  rintro ⟨_, range, -, -, hlt⟩
  have hend := range.2.toNat_lt
  rw [UInt64.lt_iff_toNat_lt] at hlt
  omega

theorem OpCtx.not_inBody_top (c : OpCtx) (ha : a.toNat = 2 ^ 64 - 1) : ¬c.InBody a := by
  rintro ⟨-, hlt⟩
  have hend := c.dataEnd_lt
  omega

theorem OpCtx.dataOffset_lt (c : OpCtx) : c.dataOffset ≤ 2 ^ 32 := by
  have hcount := c.iovCount.toNat_lt
  unfold dataOffset sizeofIovCount sizeofIov
  omega

namespace Worker

section Bytes

variable {w : Worker} {c : OpCtx} {iov : TransSgeIov}

section

variable (h : w.valid iov = true)
include h

/-- What the region check has accepted: a region with the machine-word
inequalities. -/
theorem valid_spec : ∃ range, w.ranges iov.rKey = some range ∧ range.1 ≤ iov.rAddress
      ∧ iov.rAddress + iov.size.toUInt64 ≤ range.2 := by
  unfold valid RangeCache.validate at h
  split_ifs at h
  split at h
  next => cases h
  next range hrange => exact ⟨range, hrange, of_decide_eq_true h⟩

/-- Without a wrap, what the region check accepts is registered. -/
theorem registered_of_valid (hwrap : iov.NoWrap) {i : ℕ} (hi : i < iov.size.toNat) :
    w.ranges.Registered (iov.rAddress + UInt64.ofNat i) := by
  obtain ⟨range, hrange, hfirst, hend⟩ := valid_spec h
  unfold TransSgeIov.NoWrap at hwrap
  rw [UInt64.le_iff_toNat_le] at hfirst hend
  rw [UInt64.toNat_add, UInt32.toNat_toUInt64] at hend
  have ha : (iov.rAddress + UInt64.ofNat i).toNat = iov.rAddress.toNat + i := by
    rw [toNat_add_ofNat, Nat.mod_eq_of_lt (by omega)]
  refine ⟨iov.rKey, range, hrange, ?_, ?_⟩
  · rw [UInt64.le_iff_toNat_le]
    omega
  · rw [UInt64.lt_iff_toNat_lt]
    omega

omit h in
/-- With a wrap, the top byte is among those the check has accepted. -/
theorem exists_top_of_wrap (hwrap : ¬iov.NoWrap) :
    ∃ i < iov.size.toNat, (iov.rAddress + UInt64.ofNat i).toNat = 2 ^ 64 - 1 := by
  unfold TransSgeIov.NoWrap at hwrap
  have hlt := iov.rAddress.toNat_lt
  refine ⟨2 ^ 64 - 1 - iov.rAddress.toNat, by omega, ?_⟩
  rw [toNat_add_ofNat]
  omega

/-- An element that has passed the region check may be read exactly when
the check has not wrapped. -/
theorem covered_read_iff : Covered (w.MayRead c) [(iov.rAddress, iov.size.toNat)] ↔ iov.NoWrap := by
  rw [covered_singleton]
  constructor
  · intro hread
    by_contra hwrap
    obtain ⟨i, hi, htop⟩ := exists_top_of_wrap hwrap
    exact (hread i hi).elim (c.not_inBody_top htop) (w.ranges.not_registered_top htop)
  · intro hwrap i hi
    exact .inr (registered_of_valid h hwrap hi)

/-- The same for writing, in a frame that answers no local request. -/
theorem covered_write_iff (hnone : w.matching c = none) :
    Covered (w.MayWrite c) [(iov.rAddress, iov.size.toNat)] ↔ iov.NoWrap := by
  rw [covered_singleton]
  constructor
  · intro hwrite
    by_contra hwrap
    obtain ⟨i, hi, htop⟩ := exists_top_of_wrap hwrap
    rcases hwrite i hi with hreg | ⟨req, hreq, -⟩
    · exact w.ranges.not_registered_top htop hreg
    · rw [hnone] at hreq
      exact absurd hreq (Option.not_mem_none req)
  · intro hwrap i hi
    exact .inl (registered_of_valid h hwrap hi)

end

/-- The byte at an offset of the body is in the body exactly when the
offset is. -/
theorem inBody_offset {off : ℕ} (hoff : off < 2 ^ 64) :
    c.InBody (c.dataAddress + UInt64.ofNat off) ↔ off < c.body.length := by
  have hend := c.dataEnd_lt
  unfold OpCtx.InBody
  rw [toNat_add_ofNat]
  omega

/-- What is read from an offset of the body on may be read exactly when
what lies past the body is registered. -/
theorem covered_body_iff {off : ℕ} (h : off + count ≤ 2 ^ 64) :
    Covered (w.MayRead c) [(c.dataAddress + UInt64.ofNat off, count)]
      ↔ w.PastBodyRegistered c off count := by
  have hshift : ∀ i, c.dataAddress + UInt64.ofNat off + UInt64.ofNat i
      = c.dataAddress + UInt64.ofNat (off + i) := fun i => by
    rw [UInt64.ofNat_add, UInt64.add_assoc]
  rw [covered_singleton]
  refine forall₂_congr fun i hi => ?_
  unfold MayRead
  rw [hshift, inBody_offset (by omega), ← not_le, ← imp_iff_not_or]

theorem covered_load (h : count ≤ c.dataSize) : Covered (w.MayRead c) [(c.dataAddress, count)] := by
  have hlen := c.length_body
  have hend := c.dataEnd_lt
  rw [covered_singleton]
  intro i hi
  refine .inl ((inBody_offset (by unfold dataSize at h; omega)).mpr ?_)
  unfold dataSize at h
  omega

end Bytes

/-! ## Ways out of a handler -/

section WaysOut

variable {w : Worker} {c : OpCtx} {done pre : List Effect} {code : SResult} {op : SockOpType}
  {header : SockTransHeader} {segments : List (UInt64 × ℕ)} {code₁ code₂ : SResult}

/-- An effect on queue space or context objects is always allowed. -/
theorem allows_of_inert {e : Effect} (hr : e.reads = []) (hw : e.writes = []) : w.Allows c e := by
  unfold Allows
  rw [hr, hw]
  exact ⟨covered_nil _, covered_nil _⟩

/-- Effects that are allowed, write nothing and answer nothing. -/
def Harmless (w : Worker) (c : OpCtx) (es : List Effect) : Prop :=
  ∀ e ∈ es, w.Allows c e ∧ e.writes = [] ∧ ¬e.IsPost

/-- What the effects so far have to satisfy when the request is rejected
now: they are allowed, and a write has written nothing. -/
def RejectSafe (w : Worker) (c : OpCtx) (done : List Effect) : Prop :=
  (∀ e ∈ done, w.Allows c e) ∧ (c.IsWrite → ∀ e ∈ done, e.writes = [])

theorem Harmless.rejectSafe (h : w.Harmless c done) : w.RejectSafe c done :=
  ⟨fun e he => (h e he).1, fun _ e he => (h e he).2.1⟩

/-- Harmless effects count neither before nor after others. -/
theorem Harmless.rejectSafe_append (h : w.Harmless c pre) :
    w.RejectSafe c (pre ++ done) ↔ w.RejectSafe c done := by
  unfold RejectSafe
  simp only [forall_mem_append]
  constructor
  · rintro ⟨⟨-, hall⟩, hwrite⟩
    exact ⟨hall, fun hw => (hwrite hw).2⟩
  · rintro ⟨hall, hwrite⟩
    exact ⟨⟨h.rejectSafe.1, hall⟩, fun hw => ⟨h.rejectSafe.2 hw, hwrite hw⟩⟩

/-- A way out that adds only harmless effects, with no acknowledgement
before them. -/
theorem Harmless.safe_append {more : List Effect}
    (hmore : w.Harmless c more) (hpost : ∀ e ∈ done, ¬e.IsPost) :
    (Reaction.mk (done ++ more) code).Safe w c ↔ w.RejectSafe c done := by
  have hrej : (Reaction.mk (done ++ more) code).Rejected := fun e he =>
    (mem_append.mp he).elim (hpost e) fun h => (hmore e h).2.2
  constructor
  · rintro ⟨hall, hwrite⟩
    exact ⟨fun e he => hall e (mem_append_left _ he), fun hw e he =>
      hwrite hw hrej e (mem_append_left _ he)⟩
  · rintro ⟨hall, hwrite⟩
    refine ⟨fun e he => ?_, fun hw _ e he => ?_⟩
    · exact (mem_append.mp he).elim (hall e) fun h => (hmore e h).1
    · exact (mem_append.mp he).elim (hwrite hw e) fun h => (hmore e h).2.1

theorem harmless_inert {e : Effect} (hr : e.reads = []) (hw : e.writes = []) (hp : ¬e.IsPost) :
    w.Allows c e ∧ e.writes = [] ∧ ¬e.IsPost :=
  ⟨allows_of_inert hr hw, hw, hp⟩

/-- Nor is there one among harmless effects. -/
theorem Harmless.not_isPost_append (h : w.Harmless c pre) (hpost : ∀ e ∈ done, ¬e.IsPost) :
    ∀ e ∈ pre ++ done, ¬e.IsPost :=
  forall_mem_append.mpr ⟨fun e he => (h e he).2.2, hpost⟩

theorem reject_safe_iff (hpost : ∀ e ∈ done, ¬e.IsPost) :
    (reject done code).Safe w c ↔ w.RejectSafe c done := by
  refine Harmless.safe_append (fun e he => ?_) hpost
  rw [mem_singleton.mp he]
  exact harmless_inert rfl rfl id

theorem rejectCtx_safe_iff (hpost : ∀ e ∈ done, ¬e.IsPost) :
    (rejectCtx done code).Safe w c ↔ w.RejectSafe c done := by
  refine Harmless.safe_append (fun e he => ?_) hpost
  simp only [mem_cons, not_mem_nil, or_false] at he
  rcases he with rfl | rfl | rfl <;> exact harmless_inert rfl rfl id

theorem Harmless.reject_safe (h : w.Harmless c done) : (reject done code).Safe w c :=
  (reject_safe_iff fun e he => (h e he).2.2).mpr h.rejectSafe

/-- A check of a handler: what fails it is turned away safely. -/
theorem ite_safe_iff {fails passes P : Prop} [Decidable fails] {r k : Reaction}
    (hr : r.Safe w c) (hpasses : passes ↔ ¬fails) (hk : passes → (k.Safe w c ↔ P)) :
    (if fails then r else k).Safe w c ↔ (passes → P) := by
  split_ifs with h
  · exact iff_of_true hr fun hp => absurd h (hpasses.mp hp)
  · rw [hk (hpasses.mpr h), forall_prop_of_true (hpasses.mpr h)]

/-- … what remains is that all its effects, and the memory it sends, are allowed. -/
theorem finishPost_safe_iff : (w.finishPost done op header segments).Safe w c
      ↔ (∀ e ∈ done, w.Allows c e) ∧ Covered (w.MayRead c) segments := by
  -- the acknowledgement is among the effects, whatever the socket answers
  unfold finishPost
  split_ifs
  all_goals
    -- an answered request is not rejected
    refine (and_iff_left fun _ hrej => absurd trivial
      (hrej (.post op header segments) (by simp))).trans ?_
    simp only [Allows, forall_and, forall_mem_append]
    simp [reads, writes, covered_nil]
    exact and_right_comm

theorem answer_safe_iff {P : Prop} (hquiet : ∀ e ∈ done, ¬e.IsPost)
    (hreject : ¬w.ContextsLeft → (w.RejectSafe c done ↔ P))
    (hanswer : w.ContextsLeft → ((∀ e ∈ done, w.Allows c e) ∧ Covered (w.MayRead c) segments ↔ P)) :
    (if !w.opCtxLeft then reject done code₁ else if !w.sglCtxLeft then rejectCtx done code₂
      else w.finishPost done op header segments).Safe w c ↔ P := by
  split_ifs with hop hsgl
  · rw [reject_safe_iff hquiet]
    exact hreject fun h => by simp [h.1] at hop
  · rw [rejectCtx_safe_iff hquiet]
    exact hreject fun h => by simp [h.2] at hsgl
  · rw [finishPost_safe_iff]
    exact hanswer ⟨by simpa using hop, by simpa using hsgl⟩

/-- When nothing has been written before it, only what is sent counts. -/
theorem Harmless.answer_safe_iff (h : w.Harmless c done) :
    (if !w.opCtxLeft then reject done code₁ else if !w.sglCtxLeft then rejectCtx done code₂
      else w.finishPost done op header segments).Safe w c
      ↔ (w.ContextsLeft → Covered (w.MayRead c) segments) :=
  Worker.answer_safe_iff (fun e he => (h e he).2.2)
    (fun hno => iff_of_true h.rejectSafe fun hleft => absurd hleft hno)
    fun hleft => ⟨fun hs _ => hs.2, fun hs => ⟨h.rejectSafe.1, hs hleft⟩⟩

/-- What the answering handlers have done before they look at elements. -/
theorem harmless_queue : w.Harmless c [.takeQueueSpace] := by
  intro e he
  rw [mem_singleton.mp he]
  exact harmless_inert rfl rfl id

theorem harmless_load (h : count ≤ c.dataSize) :
    w.Harmless c [.takeQueueSpace, .load c.dataAddress count] := by
  intro e he
  simp only [mem_cons, not_mem_nil, or_false] at he
  rcases he with rfl | rfl
  · exact harmless_inert rfl rfl id
  · exact ⟨⟨covered_load h, covered_nil _⟩, rfl, id⟩

theorem checkIovLen_iff : c.checkIovLen = true ↔ sizeofIovCount ≤ c.dataSize
      ∧ ¬(c.iovCount = 0 ∨ c.iovCount > 4) ∧ c.dataOffset ≤ c.dataSize := by
  unfold checkIovLen
  split_ifs with hlen hcount
  · exact iff_of_false not_false fun h => absurd h.1 hlen.not_ge
  · exact iff_of_false not_false fun h => h.2.1 hcount
  · rw [decide_eq_true_iff, not_lt]
    exact ⟨fun h => ⟨not_lt.mp hlen, hcount, h⟩, fun h => h.2.2⟩

theorem harmless_iovLoads : w.Harmless c (.takeQueueSpace :: c.iovLoads) := by
  unfold iovLoads
  split_ifs with hlen hcheck
  · exact harmless_queue
  · exact harmless_load (checkIovLen_iff.mp hcheck).2.2
  · exact harmless_load (not_lt.mp hlen)

end WaysOut

/-! ## Reads -/

section Reads

variable {w : Worker} {c : OpCtx}

theorem postReadAck_safe_iff (hup : w.upContext ≠ 0) :
    (w.postReadAck c).Safe w c ↔ w.ReadHolds c := by
  unfold postReadAck ReadHolds
  rw [if_neg hup]
  refine ite_safe_iff harmless_queue.reject_safe not_lt.symm fun hlen => ?_
  have hdone := harmless_load (w := w) hlen
  refine ite_safe_iff hdone.reject_safe (by simp) fun hvalid => ?_
  rw [hdone.answer_safe_iff, covered_read_iff hvalid]

theorem postReadSglAck_safe_iff (hup : w.upContext ≠ 0) :
    (w.postReadSglAck c).Safe w c ↔ w.ReadSglHolds c := by
  have hdone := harmless_iovLoads (w := w) (c := c)
  unfold postReadSglAck ReadSglHolds
  rw [if_neg hup]
  refine ite_safe_iff hdone.reject_safe (by simp) fun hcheck => ?_
  refine ite_safe_iff hdone.reject_safe (by simp) fun hvalid => ?_
  rw [hdone.answer_safe_iff]
  refine forall_congr' fun _ => ?_
  unfold Covered
  rw [forall_mem_map]
  refine forall₂_congr fun iov hiov => ?_
  rw [← covered_read_iff (c := c) (all_eq_true.mp hvalid iov hiov), covered_singleton]

end Reads

/-! ## The copies -/

section Copies

variable {w : Worker} {c : OpCtx} {dest src : UInt64} {count : ℕ} {r : CopyResult}

theorem not_isPost : ∀ e ∈ r.effects dest src count, ¬e.IsPost := by
  intro e he
  cases r with
  | copied | reset =>
    rw [mem_singleton.mp he]
    exact id
  | same | refused => cases he

/-- In a write that is rejected, no copy may have been made or reset. -/
theorem rejectSafe_iff (hw : c.IsWrite) :
    w.RejectSafe c (r.effects dest src count) ↔ r ≠ .copied ∧ r ≠ .reset := by
  have hnone : w.RejectSafe c [] := ⟨by simp, by simp⟩
  cases r with
  | copied =>
    refine iff_of_false (fun h => ?_) fun h => h.1 rfl
    exact absurd (h.2 hw (.copy dest src count) mem_cons_self) (cons_ne_nil _ _)
  | reset =>
    refine iff_of_false (fun h => ?_) fun h => h.2 rfl
    exact absurd (h.2 hw (.zero dest count) mem_cons_self) (cons_ne_nil _ _)
  | same | refused => exact iff_of_true hnone ⟨by decide, by decide⟩

/-- A call that has returned 0 is allowed when what it has copied is. -/
theorem allows_iff (hok : r.ok = true) : (∀ e ∈ r.effects dest src count, w.Allows c e)
      ↔ (r = .copied → Covered (w.MayRead c) [(src, count)]
        ∧ Covered (w.MayWrite c) [(dest, count)]) := by
  cases r with
  | copied =>
    show (∀ e ∈ [copy dest src count], w.Allows c e) ↔ _
    rw [forall_mem_singleton]
    exact ⟨fun h _ => h, fun h => h rfl⟩
  | same => exact iff_of_true (by simp [CopyResult.effects]) nofun
  | refused | reset => cases hok

variable {valid : TransSgeIov → Bool} {target : TransSgeIov → UInt64} {data : UInt64}
  {ok : α → Bool}

/-- **The copying loop, by its plan**: its effects are those of the
elements reached, and it ends without a failure when no element fails. -/
theorem copyLoop_spec (off : UInt32) (iovs : List TransSgeIov) :
    let done := copyOutcome valid target data
    (copyLoop valid target data off iovs).1
        = (reached (fun p => (done p).ok) (copyPlan off iovs)).flatMap (fun p =>
          (done p).effects (target p.2) (data + p.1.toUInt64) p.2.size.toNat)
      ∧ ((copyLoop valid target data off iovs).2 = none
        ↔ ∀ p ∈ copyPlan off iovs, (done p).ok = true) := by
  dsimp only
  induction iovs generalizing off with
  | nil => exact ⟨rfl, iff_of_true rfl (by simp [copyPlan])⟩
  | cons iov rest ih =>
    obtain ⟨iheff, ihnone⟩ := ih (off + iov.size)
    rw [copyLoop, copyPlan, reached, forall_mem_cons]
    by_cases hvalid : valid iov = true
    · have hout : copyOutcome valid target data (off, iov)
          = memcpyS (target iov) iov.size.toUInt64 (data + off.toUInt64)
              iov.size.toUInt64 := if_pos hvalid
      rw [hout, if_neg (by simp [hvalid])]
      dsimp only
      by_cases hok : (memcpyS (target iov) iov.size.toUInt64
          (data + off.toUInt64) iov.size.toUInt64).ok = true
      · rw [if_neg (by simp [hok]), if_pos hok]
        refine ⟨?_, ihnone.trans (and_iff_right hok).symm⟩
        rw [flatMap_cons, hout, iheff]
      · rw [if_pos (by simp [hok]), if_neg hok]
        refine ⟨?_, iff_of_false (by simp) fun h => hok h.1⟩
        rw [flatMap_singleton, hout]
    · have hout : copyOutcome valid target data (off, iov) = .refused := if_neg hvalid
      rw [hout, if_pos (by simp [hvalid]), if_neg (by decide)]
      refine ⟨?_, iff_of_false (by simp) fun h => absurd h.1 (by decide)⟩
      rw [flatMap_singleton, hout]
      rfl

theorem reached_eq_self (h : ∀ a ∈ l, ok a = true) : reached ok l = l := by
  induction l with
  | nil => rfl
  | cons a l ih =>
    rw [forall_mem_cons] at h
    rw [reached, if_pos h.1, ih h.2]

theorem mem_of_mem_reached {a : α} (h : a ∈ reached ok l) : a ∈ l := by
  induction l with
  | nil => exact h
  | cons b l ih =>
    rw [reached] at h
    split_ifs at h with hb
    · exact (mem_cons.mp h).elim (fun he => he ▸ mem_cons_self) fun hl => mem_cons_of_mem b (ih hl)
    · rw [mem_singleton.mp h]
      exact mem_cons_self

theorem mem_copyPlan {off : UInt32} {iovs : List TransSgeIov}
    {p : UInt32 × TransSgeIov} (h : p ∈ copyPlan off iovs) : p.2 ∈ iovs := by
  induction iovs generalizing off with
  | nil => cases h
  | cons iov rest ih =>
    rcases mem_cons.mp h with rfl | h
    · exact mem_cons_self
    · exact mem_cons_of_mem iov (ih h)

/-- The source of a copy that starts at an offset of the body. -/
theorem covered_copy_iff {base : ℕ} (hbase : base ≤ 2 ^ 32) (off size : UInt32) :
    Covered (w.MayRead c) [(c.dataAddress + UInt64.ofNat base + off.toUInt64, size.toNat)]
      ↔ w.PastBodyRegistered c (base + off.toNat) size.toNat := by
  have hoff := off.toNat_lt
  have hsize := size.toNat_lt
  rw [← UInt64.ofNat_uInt32ToNat, UInt64.add_assoc, ← UInt64.ofNat_add]
  exact covered_body_iff (by omega)

end Copies

/-! ## Writes -/

section Writes

variable {w : Worker} {c : OpCtx}

theorem matching_eq_none (hw : c.IsWrite) : w.matching c = none := by
  unfold matching
  rcases hw with h | h <;> rw [h]

theorem postWriteAck_safe_iff (hup : w.upContext ≠ 0) (hw : c.IsWrite) :
    (w.postWriteAck c).Safe w c ↔ w.WriteHolds c := by
  unfold postWriteAck WriteHolds
  rw [if_neg hup]
  dsimp only
  refine ite_safe_iff harmless_queue.reject_safe not_lt.symm fun hlen => ?_
  have hpre := harmless_load (w := w) hlen
  refine ite_safe_iff hpre.reject_safe (by simp) fun hvalid => ?_
  -- from here on the one call of `memcpy_s` decides
  set r := memcpyS (c.iovAt 0).rAddress (c.iovAt 0).size.toUInt64
    (c.dataAddress + UInt64.ofNat sizeofIov) (c.iovAt 0).size.toUInt64
  split
  · rw [reject_safe_iff (hpre.not_isPost_append not_isPost), hpre.rejectSafe_append,
      rejectSafe_iff hw]
    cases hr : r <;> simp_all [ok]
  next hok =>
  rw [Bool.not_eq_true', Bool.not_eq_false] at hok
  refine answer_safe_iff (hpre.not_isPost_append not_isPost) (fun hno => ?_) fun hleft => ?_
  · rw [hpre.rejectSafe_append, rejectSafe_iff hw]
    cases hr : r <;> simp_all
  · have hpreAll := hpre.rejectSafe.1
    have hnil : Covered (w.MayRead c) [] := covered_nil _
    rw [forall_mem_append, allows_iff hok, covered_write_iff hvalid (matching_eq_none hw),
      covered_body_iff (by have := (c.iovAt 0).size.toNat_lt; unfold sizeofIov; omega)]
    cases hr : r with
    | copied =>
      exact ⟨fun h => ⟨hleft, (h.1.2 rfl).2, (h.1.2 rfl).1⟩, fun h =>
        ⟨⟨hpreAll, fun _ => ⟨h.2.2, h.2.1⟩⟩, hnil⟩⟩
    | same => exact iff_of_true ⟨⟨hpreAll, nofun⟩, hnil⟩ trivial
    | refused | reset => rw [hr] at hok; cases hok

theorem rejectSafe_flatMap {f : α → List Effect} :
    w.RejectSafe c (l.flatMap f) ↔ ∀ a ∈ l, w.RejectSafe c (f a) := by
  unfold RejectSafe
  simp only [forall_mem_flatMap]
  exact ⟨fun h a ha => ⟨h.1 a ha, fun hw => h.2 hw a ha⟩, fun h =>
    ⟨fun a ha => (h a ha).1, fun hw a ha => (h a ha).2 hw⟩⟩

/-- What the loop of a scattered write does before it is rejected. -/
theorem writeLoop_rejectSafe_iff (hw : c.IsWrite) : w.RejectSafe c (copyLoop w.valid rAddress
        (c.dataAddress + UInt64.ofNat c.dataOffset) 0 c.iovs).1
      ↔ ∀ p ∈ reached (fun p => (w.writeOutcome c p).ok) (copyPlan 0 c.iovs),
        w.writeOutcome c p ≠ .copied ∧ w.writeOutcome c p ≠ .reset := by
  rw [(copyLoop_spec 0 c.iovs).1, rejectSafe_flatMap]
  exact forall₂_congr fun p _ => rejectSafe_iff hw

/-- What the loop of a scattered write does when no element fails. -/
theorem writeLoop_allows_iff (hw : c.IsWrite)
    (hok : ∀ p ∈ copyPlan 0 c.iovs, (w.writeOutcome c p).ok = true) :
    (∀ e ∈ (copyLoop w.valid rAddress
        (c.dataAddress + UInt64.ofNat c.dataOffset) 0 c.iovs).1, w.Allows c e)
      ↔ ∀ p ∈ copyPlan 0 c.iovs, w.writeOutcome c p = .copied → p.2.NoWrap
        ∧ w.PastBodyRegistered c (c.dataOffset + p.1.toNat) p.2.size.toNat := by
  have hall := reached_eq_self hok
  unfold writeOutcome at hall
  rw [(copyLoop_spec 0 c.iovs).1, hall, forall_mem_flatMap]
  refine forall₂_congr fun p hp => ?_
  refine (allows_iff (hok p hp)).trans (forall_congr' fun hcopied => ?_)
  -- an element that is copied has passed its check
  unfold writeOutcome copyOutcome at hcopied
  split_ifs at hcopied with hv
  rw [covered_copy_iff c.dataOffset_lt, covered_write_iff hv (matching_eq_none hw), and_comm]

theorem postWriteSglAck_safe_iff (hup : w.upContext ≠ 0) (hw : c.IsWrite) :
    (w.postWriteSglAck c).Safe w c ↔ w.WriteSglHolds c := by
  have hpre := harmless_iovLoads (w := w) (c := c)
  unfold postWriteSglAck WriteSglHolds
  rw [if_neg hup]
  dsimp only
  refine ite_safe_iff hpre.reject_safe (by simp) fun hcheck => ?_
  refine ite_safe_iff hpre.reject_safe not_lt.symm fun hsum => ?_
  rw [← writeLoop_rejectSafe_iff hw]
  have hnone : _ ↔ ∀ p ∈ copyPlan 0 c.iovs, (w.writeOutcome c p).ok = true :=
    (copyLoop_spec 0 c.iovs).2
  have hloop := writeLoop_allows_iff (w := w) (c := c) hw
  have hloopQuiet : ∀ e ∈ (copyLoop w.valid rAddress
      (c.dataAddress + UInt64.ofNat c.dataOffset) 0 c.iovs).1, ¬e.IsPost := by
    intro e he
    rw [(copyLoop_spec 0 c.iovs).1] at he
    obtain ⟨p, -, hp⟩ := mem_flatMap.mp he
    exact not_isPost e hp
  -- from here on the copies are whatever the loop has done
  set r := copyLoop w.valid rAddress (c.dataAddress + UInt64.ofNat c.dataOffset) 0 c.iovs
  have hquiet := hpre.not_isPost_append hloopQuiet
  -- rejected: only the second half of the condition speaks
  have hrejected : ∀ {P : Prop}, ¬w.WriteSglAnswered c →
      (w.RejectSafe c ((takeQueueSpace :: c.iovLoads) ++ r.1)
        ↔ (w.WriteSglAnswered c → P) ∧ (¬w.WriteSglAnswered c → w.RejectSafe c r.1)) := fun hans =>
    hpre.rejectSafe_append.trans
      ⟨fun h => ⟨fun ha => absurd ha hans, fun _ => h⟩, fun h => h.2 hans⟩
  cases hr : r.2 with
  | some code =>
    rw [reject_safe_iff hquiet]
    refine hrejected fun hans => ?_
    rw [hnone.mpr hans.1] at hr
    exact Option.some_ne_none code hr.symm
  | none =>
    have hok := hnone.mp hr
    refine answer_safe_iff hquiet (fun hno => hrejected fun hans => hno hans.2) fun hleft => ?_
    rw [forall_mem_append, hloop hok]
    have hans : w.WriteSglAnswered c := ⟨hok, hleft⟩
    exact ⟨fun h => ⟨fun _ => h.1.2, fun hno => absurd hans hno⟩, fun h =>
      ⟨⟨hpre.rejectSafe.1, h.1 hans⟩, covered_nil _⟩⟩

end Writes

/-! ## Answers to reads -/

section Answers

variable {w : Worker} {c : OpCtx}

/-- An answer is not a write request, so all that counts is that its
effects are allowed. -/
theorem safe_iff_of_not_isWrite {r : Reaction} (h : ¬c.IsWrite) :
    r.Safe w c ↔ ∀ e ∈ r.effects, w.Allows c e :=
  and_iff_left fun hw => absurd hw h

theorem not_isWrite {k : FrameKind} (hk : c.header.kind = some k)
    (h₁ : k ≠ .write) (h₂ : k ≠ .writeSgl) : ¬c.IsWrite := by
  rintro (h | h)
  · exact h₁ (Option.some.inj (hk.symm.trans h))
  · exact h₂ (Option.some.inj (hk.symm.trans h))

section

variable (hup : w.upContext ≠ 0)
include hup

/-- The common beginning of the acknowledgement handlers does nothing to
memory. -/
theorem withRequest_allows_iff {k : LocalRequest → Reaction} :
    (∀ e ∈ (w.withRequest c k).effects, w.Allows c e)
      ↔ ∀ req ∈ w.requests c.header.seqNo, req.sock = w.sock →
        ∀ e ∈ (k req).effects, w.Allows c e := by
  have hremove : w.Allows c (.removeOpCtx c.header.seqNo) := allows_of_inert rfl rfl
  unfold withRequest
  rw [if_neg hup]
  cases hreq : w.requests c.header.seqNo with
  | none => exact iff_of_true (by simpa using hremove) (by simp)
  | some req =>
    simp only [Option.mem_def, Option.some.injEq, forall_eq']
    by_cases hsock : req.sock = w.sock
    · rw [if_neg (not_not.mpr hsock), forall_prop_of_true hsock, forall_mem_cons]
      exact and_iff_right hremove
    · rw [if_pos hsock]
      exact iff_of_true (by simpa using hremove) fun h => absurd h hsock

omit hup in
/-- A copy into an element of the matching request is allowed when what is
copied may be read. -/
theorem allows_answer {req : LocalRequest} (hreq : w.matching c = some req)
    {iov : TransSgeIov} (hiov : iov ∈ req.iov) {src : UInt64} {r : CopyResult} :
    (∀ e ∈ r.effects iov.lAddress src iov.size.toNat, w.Allows c e)
      ↔ (r = .copied → Covered (w.MayRead c) [(src, iov.size.toNat)]) := by
  have hwrite : Covered (w.MayWrite c) [(iov.lAddress, iov.size.toNat)] := by
    rw [covered_singleton]
    exact fun i hi => .inr ⟨req, hreq, iov, hiov, i, hi, rfl⟩
  cases r with
  | copied =>
    show (∀ e ∈ [copy iov.lAddress src iov.size.toNat], w.Allows c e) ↔ _
    rw [forall_mem_singleton]
    exact ⟨fun h _ => h.1, fun h => ⟨h rfl, hwrite⟩⟩
  | reset =>
    show (∀ e ∈ [zero iov.lAddress iov.size.toNat], w.Allows c e) ↔ _
    rw [forall_mem_singleton]
    exact iff_of_true ⟨covered_nil _, hwrite⟩ nofun
  | same | refused => exact iff_of_true (by simp [CopyResult.effects]) nofun

/-- The answer to a read is as long as the request, so it is always
safe. -/
theorem postReadAckHandle_safe
    (hk : c.header.kind = some .readAck) : (w.postReadAckHandle c).Safe w c := by
  rw [safe_iff_of_not_isWrite (not_isWrite hk (by decide)
    (by decide)), postReadAckHandle, withRequest_allows_iff hup]
  intro req hreq _
  have hmatch : w.matching c = some req := by
    unfold matching
    rw [hk]
    exact hreq
  have hfirst : req.first ∈ req.iov := head_mem req.iov_ne_nil
  have hdone : w.Allows c (.oneSideDone c.header.seqNo) := allows_of_inert rfl rfl
  dsimp only
  by_cases hsize : req.first.size = c.header.dataLength
  swap
  · rw [if_pos hsize]
    exact nofun
  have hcopy : ∀ r : CopyResult, ∀ e ∈ r.effects req.first.lAddress
      c.dataAddress req.first.size.toNat, w.Allows c e := fun r =>
    (allows_answer hmatch hfirst).mpr fun _ => by
      rw [hsize]
      exact covered_load le_rfl
  rw [if_neg (not_not.mpr hsize)]
  split_ifs
  · exact hcopy _
  · exact forall_mem_append.mpr ⟨hcopy _, by simpa using hdone⟩

theorem postReadSglAckHandle_safe_iff (hk : c.header.kind = some .readSglAck) :
    (w.postReadSglAckHandle c).Safe w c
      ↔ ∀ req ∈ w.requests c.header.seqNo, w.ReadSglAckHolds c req := by
  rw [safe_iff_of_not_isWrite (not_isWrite hk (by decide)
    (by decide)), postReadSglAckHandle, withRequest_allows_iff hup]
  refine forall₂_congr fun req hreq => ?_
  have hmatch : w.matching c = some req := by
    unfold matching
    rw [hk]
    exact hreq
  have hload : ∀ n ≤ c.dataSize, w.Allows c (.load c.dataAddress n) := fun n hn =>
    ⟨covered_load hn, covered_nil _⟩
  have hdone : w.Allows c (.oneSideDone c.header.seqNo) := allows_of_inert rfl rfl
  refine forall_congr' fun _ => ?_
  -- the checks are those of `CheckIovLen`, and one more on the number
  rw [checkIovLen_iff]
  dsimp only
  split
  · next hlen => exact iff_of_true (by simp) fun h => absurd h.1 hlen.not_ge
  next hlen =>
  have hcount := hload _ (not_lt.mp hlen)
  split
  · next hbad =>
    refine iff_of_true (by simpa using hcount) fun h heq => ?_
    exact absurd (or_assoc.mpr hbad) (not_or.mpr ⟨h.2.1, not_not.mpr heq⟩)
  next hgood =>
  rw [← or_assoc, not_or, not_not] at hgood
  split
  · next hoff => exact iff_of_true (by simpa using hcount) fun h => absurd h.2.2 hoff.not_ge
  next hoff =>
  have hfirst := hload _ (not_lt.mp hoff)
  rw [forall_prop_of_true ⟨not_lt.mp hlen, hgood.1, not_lt.mp hoff⟩, forall_prop_of_true hgood.2]
  split
  · next hsum => exact iff_of_true (by simpa using hfirst) fun h => absurd h hsum
  next hsum =>
  rw [forall_prop_of_true (not_not.mp hsum)]
  have hloop : (∀ e ∈ (copyLoop (fun _ => true) lAddress
      (c.dataAddress + UInt64.ofNat c.dataOffset) 0 req.iov).1, w.Allows c e)
      ↔ ∀ p ∈ reached (fun p => (c.readOutcome p).ok) (copyPlan 0 req.iov),
        c.readOutcome p = .copied →
          w.PastBodyRegistered c (c.dataOffset + p.1.toNat) p.2.size.toNat := by
    rw [(copyLoop_spec 0 req.iov).1, forall_mem_flatMap]
    refine forall₂_congr fun p hp => ?_
    rw [allows_answer hmatch (mem_copyPlan (mem_of_mem_reached hp)),
      covered_copy_iff c.dataOffset_lt]
    rfl
  rw [← hloop]
  cases (copyLoop (fun _ => true) lAddress
      (c.dataAddress + UInt64.ofNat c.dataOffset) 0 req.iov).2 with
  | some code =>
    rw [forall_mem_cons]
    exact and_iff_right hfirst
  | none =>
    rw [forall_mem_append, forall_mem_cons, forall_mem_singleton]
    exact ⟨fun h => h.1.2, fun h => ⟨⟨hfirst, h⟩, hdone⟩⟩

theorem postWriteAckHandle_allows : ∀ e ∈ (w.postWriteAckHandle c).effects, w.Allows c e := by
  rw [postWriteAckHandle, withRequest_allows_iff hup]
  intro req _ _
  split_ifs
  · exact nofun
  · rw [forall_mem_singleton]
    exact allows_of_inert rfl rfl

end

end Answers

end Worker

/-! ## All frames -/

/-- **Which frames are handled safely.** For every frame, whatever its
header and body, and every state of the worker, the reaction of
`HandleReceiveCtx` – every byte read from the received body or from a
registered region, every byte written into a registered region or into the
matching local request, nothing written by a rejected write – is safe
exactly under `Worker.HoldsWhen`. -/
theorem handleReceiveCtx_safe_iff (w : Worker) (c : OpCtx) :
    (w.handleReceiveCtx c).Safe w c ↔ w.HoldsWhen c := by
  have hnothing : ∀ code, (mk [] code).Safe w c := fun code => ⟨by simp, by simp⟩
  unfold Worker.HoldsWhen
  by_cases hup : w.upContext = 0
  · -- a socket without an upper context handles no one-sided frame
    refine iff_of_true ?_ fun h => absurd hup h
    have hnew : (mk [.newRequest] w.newRequestResult).Safe w c :=
      ⟨by simpa using allows_of_inert rfl rfl, by simp [writes]⟩
    unfold handleReceiveCtx postReadAck postReadSglAck
      postWriteAck postWriteSglAck postReadAckHandle
      postReadSglAckHandle postWriteAckHandle withRequest
    simp only [if_pos hup]
    split <;> first | exact hnew | exact hnothing _
  rw [forall_prop_of_true hup]
  unfold handleReceiveCtx
  cases hk : c.header.kind with
  | none => exact iff_of_true (hnothing _) trivial
  | some k =>
    have hanswer : k ≠ .write → k ≠ .writeSgl → ∀ r : Reaction,
        (∀ e ∈ r.effects, w.Allows c e) → r.Safe w c := fun h₁ h₂ r h =>
      (safe_iff_of_not_isWrite (not_isWrite hk h₁ h₂)).mpr h
    cases k with
    | twoSide | twoSideSgl =>
      refine iff_of_true (hanswer (by decide) (by decide) _ ?_) trivial
      exact forall_mem_singleton.mpr (allows_of_inert rfl rfl)
    | replyRequired => exact iff_of_true (hnothing _) trivial
    | read => exact postReadAck_safe_iff hup
    | readAck => exact iff_of_true (postReadAckHandle_safe hup hk) trivial
    | write => exact postWriteAck_safe_iff hup (.inl hk)
    | writeAck | writeSglAck =>
      exact iff_of_true (hanswer (by decide) (by decide) _ (postWriteAckHandle_allows hup)) trivial
    | readSgl => exact postReadSglAck_safe_iff hup
    | readSglAck => exact postReadSglAckHandle_safe_iff hup hk
    | writeSgl => exact postWriteSglAck_safe_iff hup (.inr hk)

/-- A worker with one region of 16 bytes, everything else at hand. -/
def oneRegion : Worker where
  upContext := 1
  sock := 1
  ranges := fun key => if key = 7 then some (4096, 4112) else none
  requests := fun _ => none
  opCtxLeft := true
  sglCtxLeft := true
  calcHeaderCrc32 := fun _ => 0
  postResult := ssOk
  epollResult := ssOk
  newRequestResult := ssOk
  oneSideDoneResult := ssOk

/-- A write of 16 bytes whose body is the element and nothing else. -/
def bareWrite : OpCtx where
  header := { flags := 5, dataLength := 52 }
  dataAddress := 65536
  body := leBytes 8 0 ++ leBytes 8 4096 ++ leBytes 8 0 ++ leBytes 8 7
    ++ leBytes 4 16 ++ leBytes 8 0 ++ leBytes 8 0
  length_body := by decide
  dataEnd_lt := by decide

/-- **Memory past the received body is written into a region**, for the
peer to read back: the worker has received 52 bytes and copies the 16 bytes
after them. -/
theorem exists_frame_reads_past_body :
    Effect.copy 4096 (65536 + 52) 16 ∈ (oneRegion.handleReceiveCtx bareWrite).effects
      ∧ bareWrite.body.length = 52
      ∧ ¬(oneRegion.handleReceiveCtx bareWrite).Safe oneRegion bareWrite := by
  have hcopy : copy 4096 (65536 + 52) 16 ∈ (oneRegion.handleReceiveCtx bareWrite).effects := by
    show _ ∈ [takeQueueSpace, .load 65536 52, .copy 4096 65588 16, _, _, _, _, _]
    simp
  refine ⟨hcopy, by decide, fun hsafe => ?_⟩
  have hread := (hsafe.1 _ hcopy).1 _ mem_cons_self 0 (by decide)
  rcases hread with ⟨-, hlt⟩ | ⟨key, range, hrange, -, hlt⟩
  · exact absurd hlt (by decide)
  · obtain ⟨-, heq⟩ := Option.ite_none_right_eq_some.mp hrange
    cases heq
    exact absurd hlt (by decide)

end Sock
