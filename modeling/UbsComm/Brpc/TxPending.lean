import UbsComm.Brpc.WriteCut
import UbsComm.Lib.Execution
import UbsComm.Lib.Links

/-!
# The requests that are not completed yet

`WriteV` posts its requests in one list of buffers. Each buffer points into a
block of the user and holds a reference to it; each request takes a place of the
window. Only every `report_threshold`-th request is signaled, that is, a
completion is reported for it, and that completion stands for the requests
before it as well: the buffers of requests after the last signaled one are kept
in a list from `m_head_buf` to `m_tail_buf`, and when the next request is
signaled it remembers the head of the list in `user_ctx`.

All of this – the list, the counters and the references – is changed before
`umq_post` is called, and repaired if the post was not accepted in full. There
are three different repairs. Where nothing was accepted, what was there before
is put back; where a part was accepted, `HandleBadQBuf` goes over it once more;
and where the failure is one of flow control, or no bad buffer is reported, there
is no repair at all. `Repaired` is the condition under which the repair is
complete.

The state has, besides what the program knows, the requests that were accepted
and not retired yet (`posted`), and those of the accepted ones that come after
the last signaled one (`pending`).
-/

namespace Brpc

open Links Function

/-! ## Requests -/

/-- A buffer of a request, and what it points at: the block and the number of
bytes. -/
structure TxSeg where
  buf : ℕ
  block : ℕ
  dataSize : ℕ
  pos : 0 < dataSize

/-- A request has at least one buffer. -/
structure TxReq where
  first : TxSeg
  rest : List TxSeg

namespace TxReq

variable (r : TxReq)

/-- The segments of a request. -/
def segs : List TxSeg := r.first :: r.rest

/-- Its buffers. -/
def bufs : List ℕ := r.segs.map TxSeg.buf

/-- Its number of bytes. -/
def totalDataSize : ℕ := (r.segs.map TxSeg.dataSize).sum

/-- `cur_buf` when the request is built. -/
def lastBuf : ℕ := r.bufs.getLast (List.cons_ne_nil _ _)

end TxReq

/-! ## The state -/

/-- What a `umq_buf_t` has that is read here. -/
structure TxBuf where
  block : ℕ := 0
  dataSize : ℕ := 0
  totalDataSize : ℕ := 0
  solicitedEnable : Bool := false
  completeEnable : Bool := false
  userCtx : ℕ := 0

/-- The counters of `m_tx`. -/
structure TxCounters where
  unsolicitedWrNum : ℕ := 0
  unsolicitedBytes : ℕ := 0
  unsignaledWrNum : ℕ := 0

/-- The window, and every how many requests one is signaled. -/
structure TxConfig where
  txWindowCapacity : ℕ
  reportThreshold : ℕ

/-- `m_tx`, the buffers and their links, those that are allocated, how many
references the blocks have because of buffers, and what was accepted. -/
structure TxState where
  windowSize : ℕ
  head : ℕ := 0
  tail : ℕ := 0
  counters : TxCounters := {}
  next : ℕ → ℕ := fun _ => 0
  buf : ℕ → TxBuf := fun _ => {}
  live : List ℕ := []
  refs : ℕ → ℤ := fun _ => 0
  posted : List (List ℕ) := []
  pending : List (List ℕ) := []

/-- `UNSOLICITED_BYTES_MAX` -/
def unsolicitedBytesMax : ℕ := 1048576

namespace TxState

variable (s : TxState)

/-- A link is set. -/
def setNext (p q : ℕ) : TxState := { s with next := update s.next p q }

/-- A buffer is filled in. -/
def setBuf (b : ℕ) (content : TxBuf) : TxState := { s with buf := update s.buf b content }

/-- `IncRef` -/
def incRef (block : ℕ) : TxState := { s with refs := update s.refs block (s.refs block + 1) }

/-- `DecRef` -/
def decRef (block : ℕ) : TxState := { s with refs := update s.refs block (s.refs block - 1) }

/-- More than the buffers of any list. -/
def fuel : ℕ := s.live.length + 1

/-- `umq_buf_alloc`: a list of new buffers. -/
def umqBufAlloc (bufs : List ℕ) : TxState :=
  { s with next := link bufs s.next, live := bufs ++ s.live }

/-- `umq_buf_free` of the list from a buffer on; `none` if one of its buffers is
not allocated, here and below where something is touched that is not there. -/
def umqBufFree (p : ℕ) : Option TxState :=
  let list := walk s.next s.fuel p
  if list.Nodup ∧ ∀ b ∈ list, b ∈ s.live then
    some { s with live := s.live.filter (fun b => b ∉ list) }
  else none

/-- `DecRef` of the blocks that the buffers point into. -/
def decRefs (bufs : List ℕ) : TxState := bufs.foldl (fun t b => t.decRef (s.buf b).block) s

/-! ## Building the requests -/

variable (cfg : TxConfig)

/-- `CutLast` and `IncRef`. -/
def fillSeg (seg : TxSeg) : TxState :=
  (s.setBuf seg.buf { s.buf seg.buf with block := seg.block, dataSize := seg.dataSize }).incRef
    seg.block

/-- The buffers of a request are filled in. -/
def fillReq (r : TxReq) : TxState :=
  let t := r.segs.foldl fillSeg s
  t.setBuf r.first.buf
    { t.buf r.first.buf with
      totalDataSize := r.totalDataSize
      solicitedEnable := false
      completeEnable := false
      userCtx := 0 }

/-- Whether the peer is to be woken up. -/
def solicit (r : TxReq) (last : Bool) : TxState :=
  if s.windowSize = 1 ∨ last = true ∨ cfg.reportThreshold < s.counters.unsolicitedWrNum ∨
      unsolicitedBytesMax < s.counters.unsolicitedBytes then
    { s.setBuf r.first.buf { s.buf r.first.buf with solicitedEnable := true } with
      counters := { s.counters with unsolicitedWrNum := 0, unsolicitedBytes := 0 } }
  else
    { s with
      counters :=
        { s.counters with
          unsolicitedWrNum := s.counters.unsolicitedWrNum + 1
          unsolicitedBytes := s.counters.unsolicitedBytes + r.totalDataSize } }

/-- Whether a completion is to be reported. -/
def signal (r : TxReq) : TxState :=
  if cfg.reportThreshold ≤ s.counters.unsignaledWrNum + 1 then
    { s.setBuf r.first.buf { s.buf r.first.buf with completeEnable := true, userCtx := s.head } with
      head := s.next r.lastBuf
      counters := { s.counters with unsignaledWrNum := 0 } }
  else
    { s with
      counters := { s.counters with unsignaledWrNum := s.counters.unsignaledWrNum + 1 } }

/-- One turn of the loop over the requests. -/
def prepare (r : TxReq) (last : Bool) : TxState := ((s.fillReq r).solicit cfg r last).signal cfg r

/-- The loop of `WriteV` over the requests. -/
def prepareAll : List TxReq → TxState → TxState
  | [], s => s
  | r :: rs, s => prepareAll rs (s.prepare cfg r rs.isEmpty)

/-! ## Posting them -/

/-- Whether a request is signaled. -/
def signaled (r : List ℕ) : Bool := (s.buf (r.headD 0)).completeEnable

/-- The accepted requests after the last signaled one. -/
def pendingAfter (signaled : List ℕ → Bool) (pending : List (List ℕ)) :
    List (List ℕ) → List (List ℕ)
  | [] => pending
  | r :: rs => pendingAfter signaled (if signaled r then [] else pending ++ [r]) rs

/-- Requests are accepted. -/
def accept (reqs : List (List ℕ)) : TxState := { s with
    posted := s.posted ++ reqs
    pending := pendingAfter s.signaled s.pending reqs }

/-- The buffers of a request from its first one on, as many as its size tells,
and the buffer behind them. -/
def requestAt : ℕ → ℕ → ℕ → List ℕ × ℕ
  | 0, cur, _ => ([], cur)
  | fuel + 1, cur, left =>
    if cur ≠ 0 ∧ 0 < left then
      let r := requestAt fuel (s.next cur) (left - (s.buf cur).dataSize)
      (cur :: r.1, r.2)
    else ([], cur)

/-- The variables of the loop in `HandleBadQBuf`. -/
structure BadScan where
  cur : ℕ
  last : ℕ
  head : ℕ
  counters : TxCounters
  wrCnt : ℕ
  /-- The bytes of the requests; this is what the function returns. -/
  totalSize : UInt32

/-- The counters after an accepted request. -/
def recount (c : TxCounters) (b : TxBuf) : TxCounters where
  unsolicitedWrNum := if b.solicitedEnable then 0 else c.unsolicitedWrNum + 1
  unsolicitedBytes := if b.solicitedEnable then 0 else c.unsolicitedBytes + b.totalDataSize
  unsignaledWrNum := if b.completeEnable then 0 else c.unsignaledWrNum + 1

/-- The loop of `HandleBadQBuf` up to the bad buffer. -/
def scanBad (bad : ℕ) : ℕ → BadScan → Option BadScan
  | 0, _ => none
  | fuel + 1, a =>
    if a.cur = bad then some a
    else if a.cur = 0 then none
    else
      let b := s.buf a.cur
      let r := s.requestAt s.fuel a.cur b.totalDataSize
      scanBad bad fuel
        { cur := r.2
          last := r.1.getLastD a.last
          head := if b.completeEnable then (if r.2 ≠ bad then r.2 else 0) else a.head
          counters := recount a.counters b
          wrCnt := a.wrCnt + 1
          totalSize := a.totalSize + UInt32.ofNat b.totalDataSize }

/-- `HandleBadQBuf` -/
def handleBadQBuf (headQbuf badQbuf lastHeadQbuf : ℕ) (counters : TxCounters) : Option TxState :=
  (s.scanBad badQbuf s.fuel ⟨headQbuf, 0, lastHeadQbuf, counters, 0, 0⟩).bind (fun a =>
    let t : TxState :=
      { s with
        counters := a.counters
        windowSize := s.windowSize - a.wrCnt
        head := a.head }
    let t := if a.last ≠ 0 then
        { t.setNext a.last 0 with tail := if a.head = 0 then 0 else a.last }
      else t
    t.umqBufFree badQbuf)

end TxState

/-- What `umq_post` returns if it does not succeed, as far as it is told
apart. -/
inductive PostRet where
  | eagain
  | eflowctl
  | other
  deriving DecidableEq

/-- The outcome of `umq_post`: success, a bad buffer – the first one of the
request that is not accepted –, or a failure without a bad buffer. -/
inductive PostOutcome where
  | success
  | bad (accepted : ℕ) (ret : PostRet)
  | noBadQbuf
  deriving DecidableEq

namespace TxState

variable (s : TxState) (cfg : TxConfig)

/-- The buffers are allocated and come at the end of the list. -/
def enlist (r : TxReq) (rs : List TxReq) : TxState :=
  let t := s.umqBufAlloc ((r :: rs).flatMap TxReq.bufs)
  if s.head = 0 then { t with head := r.first.buf } else t.setNext s.tail r.first.buf

/-- What `WriteV` does with `m_tx` before it posts. -/
def beforePost (r : TxReq) (rs : List TxReq) : TxState :=
  { prepareAll cfg (r :: rs) (s.enlist r rs) with tail := (rs.getLastD r).lastBuf }

/-- `WriteV`, from the allocation of the buffers on. Without requests nothing is
allocated and nothing is posted. -/
def writeV (reqs : List TxReq) (outcome : PostOutcome) : Option TxState :=
  match reqs with
  | [] => some s
  | r :: rs =>
    let t := s.beforePost cfg r rs
    match outcome with
    | .success =>
      let u := t.accept (reqs.map TxReq.bufs)
      some { u with windowSize := u.windowSize - reqs.length }
    | .noBadQbuf => some t
    | .bad accepted ret =>
      let u := t.accept ((reqs.take accepted).map TxReq.bufs)
      if ret = .eflowctl then some u
      else
        let badQbuf := (reqs.getD accepted r).first.buf
        let v := u.decRefs (walk u.next u.fuel badQbuf)
        if badQbuf = r.first.buf then
          { v with counters := s.counters, head := s.head, tail := s.tail }.umqBufFree badQbuf
        else v.handleBadQBuf r.first.buf badQbuf s.head s.counters

/-! ## Completions -/

/-- The loop of `ProcessTxCqe`: the requests from a buffer on, up to the one that
is reported. -/
def cqeRequests (endQbuf : ℕ) : ℕ → ℕ → Option (List (List ℕ))
  | 0, _ => none
  | fuel + 1, cur =>
    if cur = 0 then none
    else
      let r := s.requestAt s.fuel cur (s.buf cur).totalDataSize
      if r.2 ≠ 0 ∧ cur ≠ endQbuf then (cqeRequests endQbuf fuel r.2).map (r.1 :: ·)
      else some [r.1]

/-- The references of retired requests are given back and their buffers, from
`start` on, freed. -/
def retire (start : ℕ) (reqs : List (List ℕ)) : Option TxState :=
  let t := s.decRefs reqs.flatten
  let t := match reqs.flatten.getLast? with
    | some last => t.setNext last 0
    | none => t
  { t with posted := s.posted.filter (fun r => r ∉ reqs) }.umqBufFree start

/-- `ProcessTxCqe`, and how many requests are retired. -/
def processTxCqe (startQbuf endQbuf : ℕ) : Option (TxState × ℕ) :=
  (s.cqeRequests endQbuf s.fuel startQbuf).bind (fun reqs =>
    (s.retire startQbuf reqs).map (fun t => (t, reqs.length)))

/-- `ProcessErrorTxCqe`: the request alone. -/
def processErrorTxCqe (firstQbuf : ℕ) : Option (TxState × ℕ) :=
  let r := (s.requestAt s.fuel firstQbuf (s.buf firstQbuf).totalDataSize).1
  (s.retire firstQbuf [r]).map (fun t => (t, 1))

/-- The body of the loop in `UmqPollTx`, for the completion of a request. -/
def handleCqe (qbuf : ℕ) (ok : Bool) : Option (TxState × ℕ) :=
  if ok then
    if (s.buf qbuf).userCtx = 0 then some (s, 0) else s.processTxCqe (s.buf qbuf).userCtx qbuf
  else s.processErrorTxCqe qbuf

/-- The completions come in order: the next one is for the first signaled
request. -/
def nextSignaled : Option (List ℕ) := s.posted.find? s.signaled

/-- `PollTx`, with the completions that it finds – whether they report success –,
and how many requests were retired before; `none` if there are not so many. -/
def pollTx : List Bool → ℕ → TxState → Option (Option TxState)
  | [], cnt, s => some (some { s with windowSize := s.windowSize + cnt })
  | ok :: oks, cnt, s =>
    s.nextSignaled.bind (fun r =>
      match s.handleCqe (r.headD 0) ok with
      | none => some none
      | some (t, n) => pollTx oks (cnt + n) t)

end TxState

/-! ## Runs -/

/-- What happens to a socket. -/
inductive TxAction where
  | writeV (reqs : List TxReq) (outcome : PostOutcome)
  | pollTx (oks : List Bool)

/-- The buffers of new requests are new, and there are no more requests than the
window has room for. A bad buffer is one of those that were posted. -/
def TxState.Postable (s : TxState) (reqs : List TxReq) (outcome : PostOutcome) : Prop :=
  (reqs.flatMap TxReq.bufs).Nodup ∧ (∀ b ∈ reqs.flatMap TxReq.bufs, b ≠ 0 ∧ b ∉ s.live) ∧
    reqs.length ≤ min s.windowSize postBatchMax ∧
    match outcome with
    | .bad accepted _ => accepted < reqs.length
    | _ => True

instance (s : TxState) (reqs : List TxReq) (outcome : PostOutcome) :
    Decidable (s.Postable reqs outcome) :=
  haveI : Decidable (match outcome with
    | .bad accepted _ => accepted < reqs.length
    | _ => True) :=
    match outcome with
    | .success => .isTrue trivial
    | .bad accepted _ => inferInstanceAs (Decidable (accepted < reqs.length))
    | .noBadQbuf => .isTrue trivial
  inferInstanceAs (Decidable (_ ∧ _ ∧ _ ∧ _))

/-- A step. `WriteV` also polls for completions, before and after it posts; that
is a step of its own here. -/
def txStep (cfg : TxConfig) : Option TxState → TxAction → Option (Option TxState)
  | none, _ => none
  | some s, .writeV reqs outcome =>
    if s.Postable reqs outcome then some (s.writeV cfg reqs outcome) else none
  | some s, .pollTx oks => TxState.pollTx oks 0 s

/-- **The repair after a post is complete**: the failure is not one of flow
control and names a bad buffer; and where a part of the requests was accepted,
there were buffers in the list before, or one of the accepted requests is
signaled. -/
def TxState.Repaired (s : TxState) (cfg : TxConfig) : TxAction → Prop
  | .writeV reqs .noBadQbuf => reqs = []
  | .writeV _ (.bad accepted ret) =>
    ret ≠ .eflowctl ∧
      (accepted = 0 ∨ s.head ≠ 0 ∨ cfg.reportThreshold ≤ s.counters.unsignaledWrNum + accepted)
  | _ => True

instance (s : TxState) (cfg : TxConfig) : (a : TxAction) → Decidable (s.Repaired cfg a)
  | .writeV [] .noBadQbuf => .isTrue rfl
  | .writeV (_ :: _) .noBadQbuf => .isFalse (List.cons_ne_nil _ _)
  | .writeV _ (.bad accepted ret) =>
    inferInstanceAs (Decidable (ret ≠ .eflowctl ∧ (accepted = 0 ∨ s.head ≠ 0 ∨
      cfg.reportThreshold ≤ s.counters.unsignaledWrNum + accepted)))
  | .writeV _ .success => .isTrue trivial
  | .pollTx _ => .isTrue trivial

end Brpc
