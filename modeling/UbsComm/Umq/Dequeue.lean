import UbsComm.Umq.DequeueLinks

/-!
# Dequeueing

A call of `umq_ub_dequeue_impl` polls a batch of receive completions and
returns the buffers received as one chain; `umq_ub_dequeue_impl_plus` also
polls the send completions, and appends the destinations of the pulls that
these finish. A buffer is a chain of fragments itself, ended by null when it
was posted.

Received buffers are joined by `umq_ub_merge_rx_buffer`, which looks for the
last fragment of a buffer by counting its data: the fragment that the data
ends in becomes the last one. A destination is joined behind the first
fragment of the entry before it.

**Nothing is lost** (`dequeue_loses_nothing_iff`) exactly if the data of every
received buffer ends in its last fragment, except that nothing may end in the
last buffer of the batch; every entry with a destination behind it has one
fragment; and the entries fit into `buf`. Otherwise a fragment is cut off: the
rest of a buffer that a short message does not fill, a buffer with an empty
message and another one behind it (`dequeue_loses_empty`), and the rest of
every entry in front of a finished pull.
-/

namespace Umq

open Links Function List

/-! ## The fields of the buffers -/

/-- `qbuf_next`, `data_size` and `total_data_size` of the descriptors, by
address. -/
structure BufHeap where
  next : ℕ → ℕ
  dataSize : ℕ → ℕ
  totalDataSize : ℕ → ℕ

/-- A link is set. -/
def BufHeap.setNext (h : BufHeap) (p w : ℕ) : BufHeap := { h with next := update h.next p w }

/-- The size of a fragment is set. -/
def BufHeap.setDataSize (h : BufHeap) (p n : ℕ) : BufHeap :=
  { h with dataSize := update h.dataSize p n }

/-- The size of a buffer is set. -/
def BufHeap.setTotal (h : BufHeap) (p n : ℕ) : BufHeap :=
  { h with totalDataSize := update h.totalDataSize p n }

/-! ## Receive completions -/

/-- A receive completion: the buffer it is for, its status and length, and
whether `process_imm_msg` consumes the buffer. -/
structure RxCqe where
  buffer : ℕ
  success : Bool
  completionLen : ℕ
  consumed : Bool

open RxCqe

/-- The loop that spreads the received length over the fragments. -/
def fitSizes : List ℕ → ℕ → BufHeap → BufHeap
  | [], _, h => h
  | p :: ps, rest, h =>
    if rest = 0 then h
    else
      let dataSize := if h.dataSize p < rest then h.dataSize p else rest
      fitSizes ps (rest - dataSize) (h.setDataSize p dataSize)

/-- The loop of `umq_ub_merge_rx_buffer`: the fragment that the data ends
in. -/
def lastFragment (h : BufHeap) : List ℕ → ℕ → Option ℕ
  | [], _ => none
  | p :: ps, rest =>
    if rest = 0 then none
    else if rest ≤ h.dataSize p then some p
    else lastFragment h ps (rest - h.dataSize p)

/-- `umq_ub_merge_rx_buffer`, with the new `*previous_last`. -/
def umqUbMergeRxBuffer (fuel : ℕ) (h : BufHeap) (cur previousLast : ℕ) : BufHeap × ℕ :=
  let h' := if previousLast ≠ 0 then h.setNext previousLast cur else h
  match lastFragment h' (walk h'.next fuel cur) (h'.totalDataSize cur) with
  | some p => (h'.setNext p 0, p)
  | none => (h', previousLast)

/-- The sizes are set from a successful completion and stay otherwise. -/
def receive (fuel : ℕ) (h : BufHeap) (c : RxCqe) : BufHeap :=
  if c.success = true then
    fitSizes (walk h.next fuel c.buffer) c.completionLen (h.setTotal c.buffer c.completionLen)
  else h

/-- The loop of `umq_ub_dequeue_with_poll_rx`. -/
def pollRxLoop (fuel : ℕ) : List RxCqe → BufHeap → ℕ → BufHeap
  | [], h, _ => h
  | c :: cqes, h, previousLast =>
    let r := umqUbMergeRxBuffer fuel (receive fuel h c) c.buffer previousLast
    pollRxLoop fuel cqes r.1 r.2

/-- The loop of `umq_ub_dequeue_plus_with_poll_rx`, with the entries of
`buf`. -/
def pollRxPlusLoop (fuel : ℕ) : List RxCqe → BufHeap → ℕ → BufHeap × List ℕ
  | [], h, _ => (h, [])
  | c :: cqes, h, previousLast =>
    if c.consumed = true then pollRxPlusLoop fuel cqes h previousLast
    else
      let r := umqUbMergeRxBuffer fuel (receive fuel h c) c.buffer previousLast
      let t := pollRxPlusLoop fuel cqes r.1 r.2
      (t.1, c.buffer :: t.2)

/-- The loop of `umq_report_incomplete_and_merge_rx`, over the buffers that
are still posted on a queue in the error state. -/
def reportIncompleteLoop (fuel : ℕ) : List ℕ → BufHeap → ℕ → BufHeap
  | [], h, _ => h
  | b :: bufs, h, previousLast =>
    let r := umqUbMergeRxBuffer fuel h b previousLast
    reportIncompleteLoop fuel bufs r.1 r.2

/-- What a call finds: completions, or the buffers flushed from a queue in
the error state. -/
inductive RxBatch where
  | polled (cqes : List RxCqe)
  | flushed (bufs : List ℕ)

/-- `umq_ub_dequeue_with_poll_rx`, with the entries of `buf`. -/
def umqUbDequeueWithPollRx (fuel : ℕ) (h : BufHeap) : RxBatch → BufHeap × List ℕ
  | .polled cqes => (pollRxLoop fuel cqes h 0, cqes.map RxCqe.buffer)
  | .flushed bufs => (reportIncompleteLoop fuel bufs h 0, bufs)

/-- `umq_ub_dequeue_plus_with_poll_rx` -/
def umqUbDequeuePlusWithPollRx (fuel : ℕ) (h : BufHeap) : RxBatch → BufHeap × List ℕ
  | .polled cqes => pollRxPlusLoop fuel cqes h 0
  | .flushed bufs => (reportIncompleteLoop fuel bufs h 0, bufs)

/-- `umq_ub_dequeue_impl`: the buffer it returns, or null. -/
def umqUbDequeueImpl (fuel : ℕ) (h : BufHeap) (batch : RxBatch) : BufHeap × ℕ :=
  let r := umqUbDequeueWithPollRx fuel h batch
  (r.1, r.2.headD 0)

/-! ## Send completions -/

/-- `user_ctx_t` of a pull. -/
structure UserCtx where
  dstBuf : ℕ
  wrCnt : ℕ
  wrTotal : ℕ

/-- A send completion: one that is not for a buffer, one of a buffer that was
sent and is freed, or one of a read of the pull with the given context. -/
inductive TxCqe where
  | skipped
  | sent
  | pull (ctx : ℕ)

/-- `UMQ_POST_POLL_BATCH`, the length of `buf`. -/
def umqPostPollBatch : ℕ := 64

/-- A read of a pull is done. -/
def UserCtx.count (u : UserCtx) : UserCtx := { u with wrCnt := u.wrCnt + 1 }

/-- The last read of the pull has completed, and it has a destination. -/
def UserCtx.Finished (u : UserCtx) : Prop := u.wrCnt = u.wrTotal ∧ u.dstBuf ≠ 0
deriving Decidable

/-- The end of `umq_ub_rev_pull_tx_cqe`: the destination becomes an entry of
`buf`; `none` when it would be written behind its end. -/
def addDst (h : BufHeap) (buf : List ℕ) (dst : ℕ) : Option (BufHeap × List ℕ) :=
  if umqPostPollBatch ≤ buf.length then none
  else
    match buf.getLast? with
    | none => some (h, buf ++ [dst])
    | some first => some (h.setNext first dst, buf ++ [dst])

/-- The loop of `umq_ub_dequeue_plus_with_poll_tx`. -/
def pollTxLoop : List TxCqe → (ℕ → UserCtx) → BufHeap → List ℕ → Option (BufHeap × List ℕ)
  | [], _, h, buf => some (h, buf)
  | .pull c :: cqes, ctx, h, buf =>
    let u := (ctx c).count
    if u.Finished then
      (addDst h buf u.dstBuf).bind (fun r => pollTxLoop cqes (update ctx c u) r.1 r.2)
    else pollTxLoop cqes (update ctx c u) h buf
  | .skipped :: cqes, ctx, h, buf => pollTxLoop cqes ctx h buf
  | .sent :: cqes, ctx, h, buf => pollTxLoop cqes ctx h buf

/-- `umq_ub_dequeue_impl_plus`: the buffer it returns, or null; `none` when it
writes behind the end of `buf`. -/
def umqUbDequeueImplPlus (fuel : ℕ) (h : BufHeap) (batch : RxBatch) (ctx : ℕ → UserCtx)
    (tx : List TxCqe) : Option (BufHeap × ℕ) :=
  let r := umqUbDequeuePlusWithPollRx fuel h batch
  (pollTxLoop tx ctx r.1 r.2).map (fun t => (t.1, t.2.headD 0))

/-! ## What should be returned -/

/-- The received buffers that are to be returned. A flushed buffer is as a
completion with an error. -/
def RxBatch.all : RxBatch → List RxCqe
  | .polled cqes => cqes
  | .flushed bufs => bufs.map (fun b => ⟨b, false, 0, false⟩)

/-- Those that are not consumed internally. -/
def RxBatch.kept (batch : RxBatch) : List RxCqe := batch.all.filter (fun c => !c.consumed)

/-- The destinations of the pulls that the completions finish. -/
def finishedPulls : List TxCqe → (ℕ → UserCtx) → List ℕ
  | [], _ => []
  | .pull c :: cqes, ctx =>
    let u := (ctx c).count
    if u.Finished then u.dstBuf :: finishedPulls cqes (update ctx c u)
    else finishedPulls cqes (update ctx c u)
  | .skipped :: cqes, ctx => finishedPulls cqes ctx
  | .sent :: cqes, ctx => finishedPulls cqes ctx

/-- The sizes of fragments together. -/
def BufHeap.room (h : BufHeap) (l : List ℕ) : ℕ := (l.map h.dataSize).sum

/-- Data of the length ends in the last of the fragments. -/
def EndsInLast (h : BufHeap) (l : List ℕ) (len : ℕ) : Prop :=
  h.room l.dropLast < len ∧ len ≤ h.room l
deriving Decidable

/-- No fragment is the one that data of the length ends in. -/
def EndsNowhere (h : BufHeap) (l : List ℕ) (len : ℕ) : Prop := len = 0 ∨ h.room l < len
deriving Decidable

/-- The length of the data of a received buffer: for an error, what it was
posted with. -/
def RxCqe.len (c : RxCqe) (h : BufHeap) : ℕ :=
  if c.success = true then c.completionLen else h.totalDataSize c.buffer

/-- **The condition** for the received buffers `es` and the destinations
`dsts`. -/
structure JoinsAll (h : BufHeap) (frags : ℕ → List ℕ) (es : List RxCqe) (dsts : List ℕ) : Prop where
  rx : ∀ e ∈ es.dropLast, EndsInLast h (frags e.buffer) (e.len h)
  rx_last : ∀ e ∈ es.getLast?, dsts = [] →
    EndsInLast h (frags e.buffer) (e.len h) ∨ EndsNowhere h (frags e.buffer) (e.len h)
  rx_pull : ∀ e ∈ es.getLast?, dsts ≠ [] → (frags e.buffer).length = 1
  pull : ∀ d ∈ dsts.dropLast, (frags d).length = 1
  room : dsts ≠ [] → es.length + dsts.length ≤ umqPostPollBatch

/-! ## Where the data of a buffer ends -/

variable {h : BufHeap} {l : List ℕ} {len previousLast : ℕ}

theorem lastFragment_mem {p : ℕ} (hp : lastFragment h l len = some p) : p ∈ l := by
  induction l generalizing len with
  | nil => exact nomatch hp
  | cons x l ih =>
    rw [lastFragment] at hp
    split_ifs at hp
    · cases hp
      exact mem_cons_self
    · exact mem_cons_of_mem x (ih hp)

theorem lastFragment_congr {h' : BufHeap} (len : ℕ) (heq : ∀ x ∈ l, h'.dataSize x = h.dataSize x) :
    lastFragment h' l len = lastFragment h l len := by
  induction l generalizing len with
  | nil => rfl
  | cons x l ih =>
    obtain ⟨hx, hl⟩ := forall_mem_cons.mp heq
    rw [lastFragment, lastFragment, hx, ih _ hl]

theorem lastFragment_eq_none : lastFragment h l len = none ↔ EndsNowhere h l len := by
  induction l generalizing len with
  | nil => exact ⟨fun _ => Nat.eq_zero_or_pos len, fun _ => rfl⟩
  | cons x l ih =>
    have hroom : h.room (x :: l) = h.dataSize x + h.room l := sum_cons
    rw [EndsNowhere, lastFragment]
    split_ifs with hz hle
    · exact ⟨fun _ => .inl hz, fun _ => rfl⟩
    · exact ⟨nofun, fun hn => by omega⟩
    · rw [ih, EndsNowhere]
      omega

theorem lastFragment_eq_getLast? (hnodup : l.Nodup) (hne : l ≠ []) :
    lastFragment h l len = l.getLast? ↔ EndsInLast h l len := by
  induction l generalizing len with
  | nil => exact absurd rfl hne
  | cons x l ih =>
    have hroom : ∀ l, h.room (x :: l) = h.dataSize x + h.room l := fun _ => sum_cons
    obtain ⟨hx, hnodup⟩ := nodup_cons.mp hnodup
    rw [lastFragment, EndsInLast]
    cases l with
    | nil =>
      have hnil : h.room [] = 0 := rfl
      rw [hroom, dropLast_singleton]
      split_ifs with hz hle
      · exact ⟨nofun, fun hn => by omega⟩
      · exact ⟨fun _ => by omega, fun _ => rfl⟩
      · exact ⟨nofun, fun hn => by omega⟩
    | cons y l =>
      have hlast : (x :: y :: l).getLast? = (y :: l).getLast? := getLast?_cons_cons
      have hdrop : (x :: y :: l).dropLast = x :: (y :: l).dropLast := rfl
      rw [hlast, hdrop, hroom, hroom]
      split_ifs with hz hle
      · refine ⟨fun hn => ?_, fun hn => by omega⟩
        exact absurd (getLast?_eq_none_iff.mp hn.symm) (cons_ne_nil y l)
      · refine ⟨fun hn => ?_, fun hn => by omega⟩
        exact absurd (mem_of_getLast? hn.symm) hx
      · rw [ih hnodup (cons_ne_nil y l), EndsInLast]
        omega

/-! ## Spreading the length -/

theorem fitSizes_eq (l : List ℕ) (rest : ℕ) (h : BufHeap) :
    ∃ d, fitSizes l rest h = { h with dataSize := d } ∧ ∀ x ∉ l, d x = h.dataSize x := by
  induction l generalizing rest h with
  | nil => exact ⟨_, rfl, fun _ _ => rfl⟩
  | cons p l ih =>
    rw [fitSizes]
    split
    · exact ⟨_, rfl, fun _ _ => rfl⟩
    · obtain ⟨d, heq, hd⟩ := ih _ _
      refine ⟨d, heq, fun x hx => ?_⟩
      rw [mem_cons, not_or] at hx
      exact (hd x hx.2).trans (update_of_ne hx.1 _ _)

/-- The data ends where it would have ended with the sizes before. -/
theorem lastFragment_fitSizes (hnodup : l.Nodup) (rest : ℕ) (h : BufHeap) :
    lastFragment (fitSizes l rest h) l rest = lastFragment h l rest := by
  induction l generalizing rest h with
  | nil => rfl
  | cons p l ih =>
    obtain ⟨hp, hnodup⟩ := nodup_cons.mp hnodup
    rw [lastFragment, lastFragment, fitSizes]
    by_cases hz : rest = 0
    · rw [if_pos hz, if_pos hz]
    · simp only [if_neg hz]
      set size := if h.dataSize p < rest then h.dataSize p else rest with hsize
      have hself : (fitSizes l (rest - size) (h.setDataSize p size)).dataSize p = size := by
        obtain ⟨d, heq, hd⟩ := fitSizes_eq l (rest - size) (h.setDataSize p size)
        rw [heq]
        exact (hd p hp).trans (update_self _ _ _)
      have hkeep : ∀ x ∈ l, (h.setDataSize p size).dataSize x = h.dataSize x := fun x hx =>
        update_of_ne (fun heq : x = p => hp (heq ▸ hx)) _ _
      rw [hself, ih hnodup, lastFragment_congr _ hkeep]
      split_ifs at hsize ⊢ <;> first | rfl | omega | rw [hsize]

/-! ## The links after a batch -/

/-- Where the data of a completion ends. -/
def RxCqe.stop (c : RxCqe) (h : BufHeap) (frags : ℕ → List ℕ) : Option ℕ :=
  lastFragment h (frags c.buffer) (c.len h)

section Merge

variable {fuel : ℕ} {h : BufHeap} {frags : ℕ → List ℕ} {c : RxCqe}

section

variable (hseg : Seg h.next c.buffer (frags c.buffer) 0) (hfuel : (frags c.buffer).length ≤ fuel)
include hseg hfuel

theorem receive_eq : ∃ d, receive fuel h c = { h with
        dataSize := d
        totalDataSize := update h.totalDataSize c.buffer (c.len h) }
      ∧ ∀ x ∉ frags c.buffer, d x = h.dataSize x := by
  rw [receive, len]
  split
  · rw [walk_of_seg hseg hfuel]
    exact fitSizes_eq _ _ _
  · rw [update_eq_self]
    exact ⟨_, rfl, fun _ _ => rfl⟩

theorem lastFragment_receive (hnodup : (frags c.buffer).Nodup) :
    lastFragment (receive fuel h c) (frags c.buffer) (c.len h) = c.stop h frags := by
  rw [receive, stop, len]
  split
  · rw [walk_of_seg hseg hfuel, lastFragment_fitSizes hnodup]
    exact lastFragment_congr _ fun _ _ => rfl
  · rfl

/-- **What one completion does**: to the links, to `previous_last`, and to the
sizes of other buffers nothing. -/
theorem merge_spec (hnodup : (frags c.buffer).Nodup) (hprev : previousLast ∉ frags c.buffer)
    {r : BufHeap × ℕ} (hr : umqUbMergeRxBuffer fuel (receive fuel h c) c.buffer previousLast = r) :
    r.1.next = joinNext h.next previousLast c.buffer (c.stop h frags)
      ∧ r.2 = (c.stop h frags).getD previousLast
      ∧ (∀ x, x ∉ frags c.buffer → r.1.dataSize x = h.dataSize x)
      ∧ ∀ b, b ≠ c.buffer → r.1.totalDataSize b = h.totalDataSize b := by
  have hlast := lastFragment_receive hseg hfuel hnodup
  obtain ⟨d, hreceive, hd⟩ := receive_eq (h := h) hseg hfuel
  rw [hreceive] at hr hlast
  have hlast : ∀ next, lastFragment ⟨next, d, update h.totalDataSize c.buffer (c.len h)⟩
      (frags c.buffer) (c.len h) = c.stop h frags := fun _ => by
    rw [← hlast]
    exact lastFragment_congr _ fun _ _ => rfl
  rw [umqUbMergeRxBuffer] at hr
  have hh' : ∀ h₁ : BufHeap, (if previousLast ≠ 0 then h₁.setNext previousLast c.buffer else h₁)
      = { h₁ with next := if previousLast ≠ 0 then update h₁.next previousLast c.buffer
            else h₁.next } := fun h₁ => by
    split <;> rfl
  rw [hh'] at hr
  have hwalk : walk (if previousLast ≠ 0 then update h.next previousLast c.buffer else h.next)
      fuel c.buffer = frags c.buffer := by
    refine walk_of_seg (hseg.congr fun x hx => ?_) hfuel
    split
    · have hne : x ≠ previousLast := fun heq => hprev (heq ▸ hx)
      exact update_of_ne hne _ _
    · rfl
  dsimp only at hr
  rw [hwalk, update_self, hlast] at hr
  generalize c.stop h frags = stop at hr ⊢
  cases stop <;> subst hr <;> exact ⟨rfl, rfl, hd, fun b hb => update_of_ne hb ..⟩

end

end Merge

/-- The buffers of a batch, with where the data of each ends. -/
def items (h : BufHeap) (frags : ℕ → List ℕ) (es : List RxCqe) : List (ℕ × Option ℕ) :=
  es.map (fun e => (e.buffer, e.stop h frags))

variable {frags : ℕ → List ℕ} {es : List RxCqe} {dsts : List ℕ}

/-- **The links after the receive completions** are those of the merges, with
the ends of the data as the buffers were posted. -/
theorem pollRxLoop_next {fuel : ℕ} (hf : Fragmented h.next frags (es.map buffer))
    (hfuel : ∀ e ∈ es, (frags e.buffer).length ≤ fuel)
    (hprev : previousLast ∉ (es.map buffer).flatMap frags) :
    (pollRxLoop fuel es h previousLast).next = joinAll (items h frags es) h.next previousLast := by
  induction es generalizing h previousLast with
  | nil => rfl
  | cons c es ih =>
    rw [map_cons] at hf hprev
    rw [flatMap_cons, mem_append, not_or] at hprev
    obtain ⟨hfuelc, hfuel⟩ := forall_mem_cons.mp hfuel
    rw [pollRxLoop]
    generalize hr : umqUbMergeRxBuffer fuel (receive fuel h c) c.buffer previousLast = r
    obtain ⟨hnext, hlast, hsizes, htotals⟩ :=
      merge_spec (hf.linked _ mem_cons_self) hfuelc (hf.frags_nodup mem_cons_self) hprev.1 hr
    have hother : ∀ x ∈ (es.map buffer).flatMap frags, x ∉ frags c.buffer :=
      fun x hx hxc => hf.notMem_flatMap hxc hx
    have hkeep : ∀ x ∈ (es.map buffer).flatMap frags, r.1.next x = h.next x := by
      intro x hx
      rw [hnext]
      refine joinNext_of_ne (fun heq => hprev.2 (heq ▸ hx)) fun p hp heq => ?_
      exact hother x hx (heq ▸ lastFragment_mem hp)
    have hlast' : r.2 ∉ (es.map buffer).flatMap frags := by
      rw [hlast]
      cases hs : c.stop h frags with
      | none => exact hprev.2
      | some p => exact fun hp => hother p hp (lastFragment_mem hs)
    have hitems : items r.1 frags es = items h frags es := by
      refine map_congr_left fun e he => ?_
      have hmem : e.buffer ∈ es.map buffer := mem_map_of_mem he
      have hne : e.buffer ≠ c.buffer := fun heq => (nodup_cons.mp hf.nodup_firsts).1 (heq ▸ hmem)
      have hlen : e.len r.1 = e.len h := by rw [len, len, htotals _ hne]
      rw [stop, hlen]
      refine congrArg (e.buffer, ·) (lastFragment_congr _ fun x hx => hsizes x ?_)
      exact hother x (mem_flatMap.mpr ⟨e.buffer, hmem, hx⟩)
    rw [ih (hf.tail.congr hkeep) hfuel hlast', hitems, hnext, hlast]
    rfl

/-! ## The calls -/

theorem pollRxPlusLoop_eq (fuel : ℕ) (cqes : List RxCqe) (h : BufHeap) (previousLast : ℕ) :
    pollRxPlusLoop fuel cqes h previousLast
      = (pollRxLoop fuel (cqes.filter fun c => !c.consumed) h previousLast,
        (cqes.filter fun c => !c.consumed).map buffer) := by
  induction cqes generalizing h previousLast with
  | nil => rfl
  | cons c cqes ih =>
    rw [pollRxPlusLoop]
    cases hc : c.consumed with
    | true => rw [if_pos rfl, ih, filter_cons_of_neg (by rw [hc]; decide)]
    | false =>
      rw [if_neg (by decide), filter_cons_of_pos (by rw [hc]; decide)]
      dsimp only
      rw [ih]
      rfl

theorem reportIncompleteLoop_eq (fuel : ℕ) (bufs : List ℕ) (h : BufHeap) (previousLast : ℕ) :
    reportIncompleteLoop fuel bufs h previousLast
      = pollRxLoop fuel (bufs.map fun b => ⟨b, false, 0, false⟩) h previousLast := by
  induction bufs generalizing h previousLast with
  | nil => rfl
  | cons b bufs ih => exact ih _ _

theorem umqUbDequeueWithPollRx_eq (fuel : ℕ) (h : BufHeap) (batch : RxBatch) :
    umqUbDequeueWithPollRx fuel h batch
      = (pollRxLoop fuel batch.all h 0, batch.all.map buffer) := by
  cases batch with
  | polled cqes => rfl
  | flushed bufs =>
    rw [umqUbDequeueWithPollRx, reportIncompleteLoop_eq, RxBatch.all, map_map]
    exact congrArg (_, ·) (map_id _).symm

theorem umqUbDequeuePlusWithPollRx_eq (fuel : ℕ) (h : BufHeap) (batch : RxBatch) :
    umqUbDequeuePlusWithPollRx fuel h batch
      = (pollRxLoop fuel batch.kept h 0, batch.kept.map buffer) := by
  cases batch with
  | polled cqes => exact pollRxPlusLoop_eq fuel cqes h 0
  | flushed bufs =>
    have hall : (RxBatch.flushed bufs).kept = (RxBatch.flushed bufs).all := by
      refine filter_eq_self.mpr fun c hc => ?_
      obtain ⟨b, -, rfl⟩ := mem_map.mp hc
      rfl
    rw [hall]
    exact umqUbDequeueWithPollRx_eq fuel h (.flushed bufs)

theorem addDst_eq (h : BufHeap) (buf : List ℕ) (dst : ℕ) : addDst h buf dst
      = if buf.length < umqPostPollBatch then
          some ({ h with next := linkAll [dst] h.next buf.getLast? }, buf ++ [dst])
        else none := by
  rw [addDst]
  split_ifs <;> first | omega | rfl | skip
  cases buf.getLast? <;> rfl

/-- **The send completions** append the destinations of the finished pulls. -/
theorem pollTxLoop_eq (cqes : List TxCqe) (ctx : ℕ → UserCtx) (h : BufHeap) (buf : List ℕ) :
    pollTxLoop cqes ctx h buf
      = if finishedPulls cqes ctx ≠ [] → buf.length + (finishedPulls cqes ctx).length
            ≤ umqPostPollBatch then
          some ({ h with next := linkAll (finishedPulls cqes ctx) h.next buf.getLast? },
            buf ++ finishedPulls cqes ctx)
        else none := by
  induction cqes generalizing ctx h buf with
  | nil =>
    rw [finishedPulls, append_nil]
    rfl
  | cons c cqes ih =>
    cases c with
    | skipped | sent => exact ih ctx h buf
    | pull c =>
      rw [pollTxLoop, finishedPulls]
      by_cases hfin : (ctx c).count.Finished
      · rw [if_pos hfin, if_pos hfin, addDst_eq]
        have ih := ih (update ctx c (ctx c).count)
        generalize finishedPulls cqes (update ctx c (ctx c).count) = ds at ih ⊢
        by_cases hlt : buf.length < umqPostPollBatch
        · rw [if_pos hlt, Option.bind_some, ih, linkAll_cons _ ds, getLast?_concat, append_assoc]
          refine if_congr ?_ rfl rfl
          simp only [length_append, length_cons, ne_eq, reduceCtorEq, not_false_eq_true,
            true_imp_iff]
          cases ds with
          | nil => exact iff_of_true nofun hlt
          | cons d ds => simp [add_assoc, add_comm 1]
        · rw [if_neg hlt, Option.bind_none, if_neg]
          intro hds
          have := hds (cons_ne_nil _ _)
          rw [length_cons] at this
          omega
      · rw [if_neg hfin, if_neg hfin]
        exact ih _ h buf

/-- The condition says what it should of where the data ends. -/
theorem joinCond_iff (hf : Fragmented h.next frags (es.map buffer)) :
    JoinCond frags (items h frags es) dsts
        ∧ (dsts ≠ [] → es.length + dsts.length ≤ umqPostPollBatch)
      ↔ JoinsAll h frags es dsts := by
  have hlast : ∀ e ∈ es, e.stop h frags = (frags e.buffer).getLast?
      ↔ EndsInLast h (frags e.buffer) (e.len h) := fun e he =>
    lastFragment_eq_getLast? (hf.frags_nodup (mem_map_of_mem he)) (hf.ne_nil _ (mem_map_of_mem he))
  have hdrop : (items h frags es).dropLast
      = es.dropLast.map (fun e => (e.buffer, e.stop h frags)) := map_dropLast.symm
  have hget : (items h frags es).getLast?
      = es.getLast?.map (fun e => (e.buffer, e.stop h frags)) := getLast?_map
  constructor
  · rintro ⟨hc, hroom⟩
    refine ⟨fun e he => ?_, fun e he hd => ?_, fun e he hd => ?_, hc.pull, hroom⟩
    · have := hc.rx (e.buffer, e.stop h frags) (hdrop ▸ mem_map_of_mem he)
      exact (hlast e (dropLast_subset es he)).mp this
    · have := hc.rx_last (e.buffer, e.stop h frags) (hget ▸ Option.mem_map_of_mem _ he) hd
      exact this.imp (hlast e (mem_of_getLast? he)).mp lastFragment_eq_none.mp
    · exact hc.rx_pull (e.buffer, e.stop h frags) (hget ▸ Option.mem_map_of_mem _ he) hd
  · intro hc
    refine ⟨⟨fun it hit => ?_, fun it hit hd => ?_, fun it hit hd => ?_, hc.pull⟩, hc.room⟩
    · rw [hdrop] at hit
      obtain ⟨e, he, rfl⟩ := mem_map.mp hit
      exact (hlast e (dropLast_subset es he)).mpr (hc.rx e he)
    · rw [hget] at hit
      obtain ⟨e, he, rfl⟩ := Option.map_eq_some_iff.mp hit
      exact (hc.rx_last e he hd).imp (hlast e (mem_of_getLast? he)).mpr lastFragment_eq_none.mpr
    · rw [hget] at hit
      obtain ⟨e, he, rfl⟩ := Option.map_eq_some_iff.mp hit
      exact hc.rx_pull e he hd

theorem stopsInside_items (h : BufHeap) (frags : ℕ → List ℕ) (es : List RxCqe) :
    StopsInside frags (items h frags es) := by
  intro it hit p hp
  obtain ⟨e, -, rfl⟩ := mem_map.mp hit
  exact lastFragment_mem hp

theorem map_fst_items (h : BufHeap) (frags : ℕ → List ℕ) (es : List RxCqe) :
    (items h frags es).map Prod.fst = es.map buffer := by
  rw [items, map_map]
  rfl

/-- **The chain after a call**: what was received and pulled, exactly if the
condition holds. -/
theorem seg_iff_joinCond {fuel : ℕ} (hf : Fragmented h.next frags (es.map buffer ++ dsts))
    (hfuel : ∀ e ∈ es, (frags e.buffer).length ≤ fuel) :
    Seg (linkAll dsts (pollRxLoop fuel es h 0).next (es.map buffer).getLast?)
        ((es.map buffer ++ dsts).headD 0) ((es.map buffer ++ dsts).flatMap frags) 0
      ↔ JoinCond frags (items h frags es) dsts := by
  have hrx := hf.sublist (sublist_append_left _ dsts)
  rw [pollRxLoop_next hrx hfuel (zero_notMem _ hrx), ← map_fst_items h frags es, getLast?_map]
  rw [← map_fst_items h frags es] at hf
  exact ⟨joinCond_of_seg hf (stopsInside_items h frags es),
    fun hc => hc.seg hf (stopsInside_items h frags es)⟩

/-- **Dequeueing loses nothing** exactly if the condition holds, of all
received buffers for `umq_ub_dequeue_impl`, and of those not consumed and of
the finished pulls for `umq_ub_dequeue_impl_plus`: the links from the buffer
returned lead through all their fragments, in order, and end there. -/
theorem dequeue_loses_nothing_iff (fuel : ℕ) (h : BufHeap) (frags : ℕ → List ℕ) (batch : RxBatch)
    (ctx : ℕ → UserCtx) (tx : List TxCqe)
    (hf : Fragmented h.next frags (batch.all.map RxCqe.buffer ++ finishedPulls tx ctx))
    (hfuel : ∀ e ∈ batch.all, (frags e.buffer).length ≤ fuel) :
    (Seg (umqUbDequeueImpl fuel h batch).1.next (umqUbDequeueImpl fuel h batch).2
          ((batch.all.map RxCqe.buffer).flatMap frags) 0
        ↔ JoinsAll h frags batch.all [])
      ∧ ((∃ r, umqUbDequeueImplPlus fuel h batch ctx tx = some r ∧ Seg r.1.next r.2
            ((batch.kept.map RxCqe.buffer ++ finishedPulls tx ctx).flatMap frags) 0)
        ↔ JoinsAll h frags batch.kept (finishedPulls tx ctx)) := by
  have hkept : batch.kept.Sublist batch.all := filter_sublist
  have hall := hf.sublist (sublist_append_left _ (finishedPulls tx ctx))
  have hfplus : Fragmented h.next frags (batch.kept.map buffer ++ finishedPulls tx ctx) :=
    hf.sublist ((hkept.map buffer).append_right _)
  have hkeep := hfplus.sublist (sublist_append_left _ (finishedPulls tx ctx))
  constructor
  · rw [← joinCond_iff hall, umqUbDequeueImpl, umqUbDequeueWithPollRx_eq]
    rw [← append_nil (batch.all.map buffer)] at hall
    have hiff := seg_iff_joinCond hall hfuel
    rw [append_nil] at hiff
    exact hiff.trans ⟨fun hc => ⟨hc, fun hne => absurd rfl hne⟩, And.left⟩
  · rw [← joinCond_iff hkeep, umqUbDequeueImplPlus, umqUbDequeuePlusWithPollRx_eq]
    rw [pollTxLoop_eq, length_map,
      ← seg_iff_joinCond hfplus (fun e he => hfuel e (hkept.subset he))]
    split_ifs with hroom
    · constructor
      · rintro ⟨r, ⟨rfl⟩, hseg⟩
        exact ⟨hseg, hroom⟩
      · rintro ⟨hseg, -⟩
        exact ⟨_, rfl, hseg⟩
    · exact iff_of_false nofun fun h => hroom h.2

/-- Two received buffers, the first one with two fragments, and a destination
with two. -/
def sampleHeap : BufHeap where
  next := fun p => if p = 1 then 2 else if p = 4 then 5 else 0
  dataSize := fun _ => 10
  totalDataSize := fun p => if p = 1 ∨ p = 4 then 20 else 10

/-- Buffers of two fragments and of one. -/
def sampleFrags (b : ℕ) : List ℕ := if b = 1 then [1, 2] else if b = 4 then [4, 5] else [b]

/-- The first message reaches into the second fragment of its buffer; the
second one is an error. -/
def sampleBatch : RxBatch := .polled [⟨1, true, 15, false⟩, ⟨3, false, 0, false⟩]

/-- A pull of two reads. -/
def sampleCtx : ℕ → UserCtx := fun _ => ⟨4, 0, 2⟩

theorem dequeue_loses_nothing_sample :
    ∃ r, umqUbDequeueImplPlus 2 sampleHeap sampleBatch sampleCtx [.pull 9, .sent, .pull 9] = some r
      ∧ Seg r.1.next r.2 [1, 2, 3, 4, 5] 0 :=
  (dequeue_loses_nothing_iff 2 sampleHeap sampleFrags sampleBatch sampleCtx
    [.pull 9, .sent, .pull 9] ⟨by decide, by decide, by decide⟩ (by decide)).2.mpr
    ⟨by decide, by decide, by decide, by decide, by decide⟩

/-- **An empty message in front of another one**: nothing tells where its
buffer ends, and the second buffer is not linked to it. -/
theorem dequeue_loses_empty :
    let batch : RxBatch := .polled [⟨3, true, 0, false⟩, ⟨6, true, 5, false⟩]
    Fragmented sampleHeap.next sampleFrags [3, 6]
      ∧ ¬ Seg (umqUbDequeueImpl 1 sampleHeap batch).1.next (umqUbDequeueImpl 1 sampleHeap batch).2
        [3, 6] 0 :=
  ⟨⟨by decide, by decide, by decide⟩, by decide⟩

end Umq
