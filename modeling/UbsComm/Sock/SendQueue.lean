import UbsComm.Lib.Execution
import UbsComm.Sock.OneSide
import UbsComm.Sock.Receive

/-!
# The send queue of a non-blocking socket

A request that cannot be sent at once is queued, and `ProcessQueueReq`,
called whenever the socket may take bytes again, works the queue off. The
request at the front is composed into an array of at most seven io vectors
– its header and its payload, in pieces that depend on the operation – and
`mSendingQueueRequest` keeps that array across calls, with `remainSize`,
the number of bytes that are still to go. When the socket has taken only a
part, the recovery loop of `PROCESS_REQUEST` distributes the part over the
vectors; when it has taken all, the request is popped and its completion
run.

An io vector is modelled by the bytes it points at: to advance its base is
to drop bytes, and an emptied vector is the empty list. The memory of a
request does not change while the request is queued. A call is a sequence
of iterations of its loop, and other threads may post requests between any
two of them.

**Whole frames in order** (`inOrder_of_sendRun`): in every state the queue
can reach, the bytes the socket has taken are those of the requests popped,
each whole, and a proper beginning of the one at the front. This needs of a
request that it is one that sends – nothing is composed for `SS_RECEIVE`,
which is never queued – and that the `dataLength` of its header is the length
of its payload, where `remainSize` is computed from it. The acknowledgement of
a scattered read takes part of its `dataLength` from the peer, and may stay at
the front for good (`exists_run_never_popped`).
-/

namespace Sock

open List Nat Machine

/-! ## Requests and their bytes -/

/-- The bytes of memory from an address on. -/
def bytesAt (mem : UInt64 → UInt8) (a : UInt64) (n : ℕ) : List UInt8 :=
  (List.range n).map fun i => mem (a + UInt64.ofNat i)

@[simp] theorem length_bytesAt (mem : UInt64 → UInt8) (a : UInt64) (n : ℕ) :
    (bytesAt mem a n).length = n := by
  rw [bytesAt, length_map, length_range]

/-- A queued `SockOpContextInfo`, as far as sending it goes. -/
structure SendRequest where
  opType : SockOpType
  /-- The bytes went out when the request was posted. -/
  isSent : Bool := false
  /-- The header, wherever it lies: in `sendBuff`, `headerRequest` or
  `sendCtx`. -/
  header : SockTransHeader := {}
  /-- A plain send has its payload behind the header in `sendBuff`, … -/
  sendBuff : UInt64 := 0
  /-- … or at `headerRequest->request`, where it is not copied. -/
  request : UInt64 := 0
  /-- The scatter elements of `sendCtx`. -/
  iov : List TransSgeIov := []
  iov_length : iov.length ≤ netSgeMaxIov := by decide

open SendRequest

/-- The memory, and the options of the socket. -/
structure SendConfig where
  mem : UInt64 → UInt8
  sendZCopy : Bool := false
  enableTls : Bool := false
  sendBufSizeKB : UInt32

section Requests

variable (cfg : SendConfig) (r : SendRequest)

namespace SendRequest

/-- `sendCtx->iov[0]`. -/
def first : TransSgeIov := r.iov.headD {}

/-- The payload of the two plain sends. -/
def plainBytes : List UInt8 :=
  bytesAt cfg.mem
    (if cfg.sendZCopy then r.request
      else r.sendBuff + UInt64.ofNat sizeofHeader)
    r.header.dataLength.toNat

/-- The number of elements and the elements, as they go over the wire. -/
def iovCountBytes : List UInt8 := leBytes 2 r.iov.length

/-- The elements of a request, as they are sent. -/
def iovBytes : List UInt8 := r.iov.flatMap TransSgeIov.encode

/-- The memory of the elements at this side and at the other side. -/
def localData : List (List UInt8) :=
  r.iov.map fun v => bytesAt cfg.mem v.lAddress v.size.toNat

/-- The memory that the elements name. -/
def remoteData : List (List UInt8) :=
  r.iov.map fun v => bytesAt cfg.mem v.rAddress v.size.toNat

/-- What follows the header of a request on the wire. -/
def payload : List UInt8 :=
  match r.opType with
  | .send | .sendRaw => r.plainBytes cfg
  | .sendRawSgl | .readAck => (r.localData cfg).flatten
  | .write => r.first.encode ++ bytesAt cfg.mem r.first.lAddress r.first.size.toNat
  | .read => r.first.encode
  | .sglRead => r.iovCountBytes ++ r.iovBytes
  | .sglWrite => r.iovCountBytes ++ r.iovBytes ++ (r.localData cfg).flatten
  | .sglReadAck => r.iovCountBytes ++ r.iovBytes ++ (r.remoteData cfg).flatten
  | .writeAck | .sglWriteAck | .receive => []

/-- The bytes a queued request is to put on the wire; one that has been
sent when it was posted is queued for its completion only. -/
def frame : List UInt8 := if r.isSent then [] else r.header.encode ++ r.payload cfg

end SendRequest

/-- The operations for which `remainSize` is computed from the header. -/
def SockOpType.countsByHeader : SockOpType → Bool
  | .sendRawSgl | .readAck | .sglRead | .sglWrite | .sglReadAck => true
  | _ => false

/-- A request that sends, with a header that tells the length of its
payload where that is relied on. -/
def SendRequest.WellFormed : Prop :=
  r.opType ≠ .receive
    ∧ (r.opType.countsByHeader = true → r.header.dataLength.toNat = (r.payload cfg).length)

end Requests

/-! ## `COMPOSE_REQUEST` -/

/-- `SendingQueueRequest`, with the first `iovCount` vectors. -/
structure SendingQueueRequest where
  remainSize : ℕ := 0
  iov : List (List UInt8) := []
  isTwoSideMode : Bool := false
deriving DecidableEq

/-- The operations of two-sided mode. -/
def SockOpType.isTwoSide : SockOpType → Bool
  | .send | .sendRaw | .sendRawSgl => true
  | _ => false

section

variable (cfg : SendConfig)

/-- The vectors and the size of a request; nothing for `SS_RECEIVE`. -/
def composeIov (r : SendRequest) : Option (List (List UInt8) × ℕ) :=
  let header := r.header.encode
  let byHeader := r.header.dataLength.toNat + sizeofHeader
  match r.opType with
  | .send | .sendRaw => some ([header, r.plainBytes cfg], byHeader)
  | .sendRawSgl | .readAck => some (header :: r.localData cfg, byHeader)
  | .write =>
    some ([header, r.first.encode, bytesAt cfg.mem r.first.lAddress r.first.size.toNat],
      sizeofHeader + sizeofIov + r.first.size.toNat)
  | .read => some ([header, r.first.encode], sizeofHeader + sizeofIov)
  | .writeAck | .sglWriteAck => some ([header], sizeofHeader)
  | .sglRead => some ([header, r.iovCountBytes, r.iovBytes], byHeader)
  | .sglWrite => some ([header, r.iovCountBytes, r.iovBytes] ++ r.localData cfg, byHeader)
  | .sglReadAck => some ([header, r.iovCountBytes, r.iovBytes] ++ r.remoteData cfg, byHeader)
  | .receive => none

/-- `COMPOSE_REQUEST`. -/
def composeRequest (q : SendingQueueRequest) (r : SendRequest) : SendingQueueRequest :=
  if q.remainSize = 0 then
    match composeIov cfg r with
    | some (iov, size) => ⟨size, iov, r.opType.isTwoSide⟩
    | none => { q with isTwoSideMode := r.opType.isTwoSide }
  else q

/-! ## `PROCESS_REQUEST` -/

/-- The answer of the socket to one write: at most `extra + 1` bytes are
taken, or the write fails. -/
inductive WriteAnswer where
  | accept (extra : ℕ)
  | fail (errno : Errno)
deriving DecidableEq

/-- What the writes of one `PROCESS_REQUEST` have come to: the bytes taken,
the error number that is left, and whether the macro has returned at
once. -/
structure Written where
  bytes : List UInt8
  errno : Errno := .success
  failed : Bool := false

/-- `writev` over all vectors; there is nothing to take of empty ones. -/
def writevAll (iov : List (List UInt8)) : List WriteAnswer → Written
  | .accept extra :: _ => { bytes := iov.flatten.take (extra + 1) }
  | .fail errno :: _ => { bytes := [], errno := errno }
  | [] => { bytes := [], errno := .eagain }

/-- The TLS loop: one write for each vector that is not empty, the first
one plain and the others encrypted, until one does not go through. -/
def writeTls : List (List UInt8) → List WriteAnswer → Written
  | [], _ => { bytes := [] }
  | [] :: rest, answers => writeTls rest answers
  | _ :: _, [] => { bytes := [], errno := .eagain }
  | _ :: _, .fail errno :: _ =>
    { bytes := [], errno := errno
      failed := decide (errno ≠ .econnreset ∧ errno ≠ .eagain) }
  | v :: rest, .accept extra :: answers =>
    if extra + 1 < v.length then { bytes := v.take (extra + 1) }
    else
      let later := writeTls rest answers
      { later with bytes := v ++ later.bytes }

/-- The recovery loop: `result` bytes, fewer than `remain`, have been
taken. -/
def recoverLoop : ℕ → ℕ → List (List UInt8) → List (List UInt8) × ℕ
  | _, remain, [] => ([], remain)
  | result, remain, v :: rest =>
    if result < v.length then (v.drop result :: rest, remain - result)
    else if result > v.length then
      let later := recoverLoop (result - v.length) (remain - v.length) rest
      ([] :: later.1, later.2)
    else ([] :: rest, remain - v.length)

/-- `SS_RESET_BY_PEER` -/
def ssResetByPeer : SResult := 419
/-- `SS_SOCK_SEND_FAILED` -/
def ssSockSendFailed : SResult := 408

section

variable (q : SendingQueueRequest) (answers : List WriteAnswer)

/-- The write of `PROCESS_REQUEST`. -/
def SendingQueueRequest.write : Written :=
  if q.isTwoSideMode && cfg.enableTls then writeTls q.iov answers
  else writevAll q.iov answers

/-- `PROCESS_REQUEST`: the bytes taken, the vectors after it, and the code
it returns with, if it does not go on to pop the request. -/
def processRequest : List UInt8 × SendingQueueRequest × Option SResult :=
  let written := q.write cfg answers
  let result := written.bytes.length
  if written.failed then (written.bytes, q, some ssSockSendFailed)
  else if result = 0 then
    (written.bytes, q, some <| match written.errno with
      | .econnreset => ssResetByPeer
      | .eagain => ssSockSendEagain
      | .success | .other => ssSockSendFailed)
  else if result < q.remainSize then
    let r := recoverLoop result q.remainSize q.iov
    (written.bytes, { q with iov := r.1, remainSize := r.2 }, some ssSockSendEagain)
  else (written.bytes, { q with remainSize := 0 }, none)

end

/-! ## `ProcessQueueReq` -/

/-- The queue, `mSendingQueueRequest`, the budget `maxSendSize` of the call
under way and the results of the calls; and, for the record, the bytes the
socket has taken, the requests popped, which is when `POST_PROCESS` runs
their completion, and all requests ever posted. -/
structure SendState where
  queue : List SendRequest := []
  sending : SendingQueueRequest := {}
  budget : Option ℤ := none
  results : List SResult := []
  out : List UInt8 := []
  popped : List SendRequest := []
  posted : List SendRequest := []

section

variable (s : SendState)

/-- A call returns. -/
def SendState.leave (code : SResult) : SendState :=
  { s with budget := none, results := s.results ++ [code] }

/-- `PopFront` and `POST_PROCESS`. -/
def SendState.pop (r : SendRequest) (rest : List SendRequest) : SendState :=
  { s with queue := rest, popped := s.popped ++ [r] }

/-- One iteration of the loop, with the answers to its writes. -/
def SendState.iterate (budget : ℤ) (answers : List WriteAnswer) : SendState :=
  if budget ≤ 0 then s.leave ssSockSendEagain
  else
    match s.queue with
    | [] => s.leave ssOk
    | r :: rest =>
      if r.isSent then s.pop r rest
      else
        let q := composeRequest cfg s.sending r
        let p := processRequest cfg q answers
        let s := { s with sending := p.2.1, out := s.out ++ p.1 }
        match p.2.2 with
        | some code => s.leave code
        | none => ({ s with budget := some (budget - q.remainSize) }).pop r rest

/-- A request is posted, `ProcessQueueReq` is called, or the call under way
goes through its loop once. -/
inductive SendAction where
  | post (r : SendRequest)
  | call
  | iterate (answers : List WriteAnswer)

/-- A post, a call, or an iteration of its loop. -/
def sendStep : SendAction → Option SendState
  | .post r => some { s with queue := s.queue ++ [r], posted := s.posted ++ [r] }
  | .call =>
    if s.budget = none then some { s with budget := some (cfg.sendBufSizeKB.toNat * 1024) }
    else none
  | .iterate answers => s.budget.map fun budget => s.iterate cfg budget answers

/-- A run of the queue from its start. -/
def sendRun (xs : List SendAction) : Option SendState := Machine.run (sendStep cfg) {} xs

/-- **Whole frames in order**: the requests popped are the first of those
posted, and the bytes taken are theirs, each whole, and a proper beginning
of the request at the front. -/
def SendState.InOrder : Prop :=
  s.posted = s.popped ++ s.queue ∧ ∃ sent, s.out = s.popped.flatMap (SendRequest.frame cfg) ++ sent
      ∧ (sent = [] ∨ ∃ r rest, s.queue = r :: rest ∧ sent <+: r.frame cfg ∧ sent ≠ r.frame cfg)

/-- **Progress**: a call that finds a request to send, and a socket that
takes at least a byte, sends something. -/
def SendState.Progresses : Prop :=
  ∀ budget r rest extra answers, 0 < budget → s.queue = r :: rest → r.isSent = false → s.out.length
      < (s.iterate cfg budget (.accept extra :: answers)).out.length

end

/-- A write takes some bytes or would block. -/
def WriteAnswer.Mild : WriteAnswer → Prop
  | .accept _ => True
  | .fail errno => errno = .eagain

/-- The requests posted are well formed, and no write fails for good. -/
def SendAction.Allowed : SendAction → Prop
  | .post r => r.WellFormed cfg
  | .call => True
  | .iterate answers => ∀ a ∈ answers, a.Mild

end

/-! ## What the macros do -/

/-- The vectors composed hold the frame, and their size is the size
computed. -/
theorem composeIov_spec {cfg : SendConfig} {r : SendRequest} (hr : r.WellFormed cfg) :
    ∃ iov, composeIov cfg r = some (iov, iov.flatten.length)
      ∧ iov.flatten = r.header.encode ++ r.payload cfg := by
  obtain ⟨hsends, hcount⟩ := hr
  unfold payload at hcount ⊢
  unfold composeIov
  cases hop : r.opType <;>
    simp only [hop, SockOpType.countsByHeader, ne_eq, not_true_eq_false] at hsends hcount ⊢
  case send | sendRaw => simp [plainBytes, add_comm]
  case write | read | writeAck | sglWriteAck => simp [add_assoc]
  all_goals
    simp only [hcount]
    simp [add_comm]

/-- What a write has taken of the vectors, with answers that are mild: a
beginning of their bytes, and not nothing if there was something and the
first answer was to accept. -/
structure Written.Of (w : Written) (iov : List (List UInt8))
    (answers : List WriteAnswer) : Prop where
  isPrefix : w.bytes <+: iov.flatten
  mild : (∀ a ∈ answers, a.Mild) → w.failed = false
  nonempty : ∀ extra later, answers = .accept extra :: later → iov.flatten ≠ [] → w.bytes ≠ []

section

variable (iov : List (List UInt8)) (answers : List WriteAnswer)

theorem writevAll_of : (writevAll iov answers).Of iov answers := by
  rcases answers with _ | ⟨extra | errno, later⟩
  · exact ⟨ nil_prefix, fun _ => rfl, nofun⟩
  · refine ⟨ take_prefix _ _, fun _ => rfl, fun e l _ hne h => ?_⟩
    exact (take_eq_nil_iff.mp h).elim (succ_ne_zero extra) hne
  · exact ⟨ nil_prefix, fun _ => rfl, nofun⟩

theorem writeTls_of : (writeTls iov answers).Of iov answers := by
  -- the induction is on the loop: over the vectors, with the answers used up
  -- by those that are not empty
  fun_induction writeTls iov answers with
  | case1 answers => exact ⟨ nil_prefix, fun _ => rfl, fun _ _ _ h => absurd rfl h⟩
  | case2 rest answers ih => exact ⟨ih.isPrefix, ih.mild, ih.nonempty⟩
  | case3 => exact ⟨ nil_prefix, fun _ => rfl, nofun⟩
  | case4 v rest errno later hv =>
    refine ⟨ nil_prefix, fun h => ?_, nofun⟩
    have : errno = .eagain := h _ mem_cons_self
    simp [this]
  | case5 v rest extra later hv hlt =>
    refine ⟨?_, fun _ => rfl, fun _ _ _ _ h => ?_⟩
    · exact ( take_prefix _ _).trans (prefix_append _ _)
    · rcases take_eq_nil_iff.mp h with h | h
      · exact succ_ne_zero extra h
      · exact hv h
  | case6 v rest extra later hv hlt later' ih =>
    refine ⟨prefix_append_right_inj v |>.mpr ih.isPrefix, fun h => ?_, ?_⟩
    · exact ih.mild fun a ha => h a (mem_cons_of_mem _ ha)
    · exact fun _ _ _ _ h => hv (append_eq_nil_iff.mp h).1

end

theorem write_of (cfg : SendConfig) (q : SendingQueueRequest) (answers : List WriteAnswer) :
    (q.write cfg answers).Of q.iov answers := by
  unfold SendingQueueRequest.write
  split
  exacts [writeTls_of _ _, writevAll_of _ _]

/-- The recovery loop drops what has been taken. -/
theorem recoverLoop_spec {iov : List (List UInt8)} {result : ℕ} (remain : ℕ)
    (h : result ≤ iov.flatten.length) :
    (recoverLoop result remain iov).1.flatten = iov.flatten.drop result
      ∧ (recoverLoop result remain iov).2 = remain - result := by
  fun_induction recoverLoop result remain iov with
  | case1 result remain =>
    have : result = 0 := by simpa using h
    simp [this]
  | case2 result remain v rest hlt => simp [drop_append_of_le_length hlt.le]
  | case3 result remain v rest _ hgt later ih =>
    rw [flatten_cons, length_append] at h
    obtain ⟨hiov, hsize⟩ := ih (by omega)
    rw [flatten_cons, flatten_cons, drop_append, drop_eq_nil_of_le (hgt.le)]
    exact ⟨hiov, hsize.trans (by omega)⟩
  | case4 result remain v rest hlt hgt =>
    have : result = v.length := by omega
    simp [this]

variable {answers : List WriteAnswer} {q : SendingQueueRequest}

/-- **`PROCESS_REQUEST`** takes a beginning of the bytes that are left. It
pops the request if that was all of them; otherwise it leaves the vectors
holding the others, with their number in `remainSize`. -/
theorem processRequest_spec (cfg : SendConfig) (hmild : ∀ a ∈ answers, a.Mild)
    (hsize : q.remainSize = q.iov.flatten.length) (hne : q.iov.flatten ≠ []) :
    let p := processRequest cfg q answers
    (∃ code, p.2.2 = some code ∧ q.iov.flatten = p.1 ++ p.2.1.iov.flatten
        ∧ p.2.1.remainSize = p.2.1.iov.flatten.length
        ∧ p.2.1.iov.flatten ≠ [])
      ∨ (p.2.2 = none ∧ q.iov.flatten = p.1 ∧ p.2.1.remainSize = 0) := by
  unfold processRequest
  have hof := write_of cfg q answers
  set w := q.write cfg answers
  obtain ⟨left, hleft⟩ := hof.isPrefix
  have hlength : q.remainSize = w.bytes.length + left.length := by
    rw [hsize, ← hleft, length_append]
  dsimp only
  rw [hof.mild hmild, if_neg Bool.false_ne_true]
  split_ifs with hzero hpart
  · rw [length_eq_zero_iff] at hzero
    exact .inl ⟨_, rfl, by rw [hzero, nil_append], hsize, hne⟩
  · obtain ⟨hiov, hrest⟩ := recoverLoop_spec q.remainSize hof.isPrefix.length_le
    rw [← hleft, drop_left] at hiov
    refine .inl ⟨_, rfl, ?_, ?_, ?_⟩ <;> dsimp only
    · rw [hiov, hleft]
    · rw [hiov, hrest, hlength, Nat.add_sub_cancel_left]
    · rw [hiov, ← length_pos_iff]
      omega
  · have hnil : left = [] := length_eq_zero_iff.mp (by omega)
    exact .inr ⟨rfl, by rw [← hleft, hnil, append_nil], rfl⟩

/-- With a first answer that accepts, it takes something. -/
theorem processRequest_pos (cfg : SendConfig) (extra : ℕ) (later : List WriteAnswer)
    (hne : q.iov.flatten ≠ []) : (processRequest cfg q (.accept extra :: later)).1 ≠ [] := by
  have hpos : (q.write cfg (.accept extra :: later)).bytes ≠ [] :=
    (write_of cfg q _).nonempty extra later rfl hne
  unfold processRequest
  dsimp only
  split_ifs <;> exact hpos

/-! ## Runs -/

/-- What a run keeps: the requests queued are well formed and the last of
those posted, and either no request is under way, or the one at the front
is, what has been sent of it and what its vectors hold making up its
frame. -/
structure SendState.Inv (cfg : SendConfig) (s : SendState) : Prop where
  posted : s.posted = s.popped ++ s.queue
  wellFormed : ∀ r ∈ s.queue, r.WellFormed cfg
  bytes : (s.sending.remainSize = 0 ∧ s.out = s.popped.flatMap (SendRequest.frame cfg))
    ∨ ∃ r rest sent, s.queue = r :: rest ∧ r.isSent = false
      ∧ s.out = s.popped.flatMap (SendRequest.frame cfg) ++ sent
      ∧ r.frame cfg = sent ++ s.sending.iov.flatten
      ∧ s.sending.remainSize = s.sending.iov.flatten.length
      ∧ s.sending.iov.flatten ≠ []

section Steps

variable {cfg : SendConfig} {s s' : SendState}

namespace SendState

/-- What an iteration finds once the front request has been composed: the
vectors hold what is left of its frame. -/
theorem Inv.composed (hi : s.Inv cfg) {r : SendRequest} {rest : List SendRequest}
    (hq : s.queue = r :: rest) (hr : r.isSent = false) : let c := composeRequest cfg s.sending r
    ∃ sent, s.out = s.popped.flatMap (frame cfg) ++ sent ∧ r.frame cfg = sent ++ c.iov.flatten
      ∧ c.remainSize = c.iov.flatten.length ∧ c.iov.flatten ≠ [] := by
  unfold composeRequest
  rcases hi.bytes with ⟨hzero, hout⟩ | ⟨r', rest', sent, hq', _, hout, hframe, hsize, hne⟩
  · obtain ⟨iov, hiov, hflat⟩ := composeIov_spec (hi.wellFormed r (hq ▸ mem_cons_self))
    rw [if_pos hzero, hiov]
    refine ⟨[], by rw [hout, append_nil], ?_, rfl, ?_⟩
    · rw [frame, hr, if_neg Bool.false_ne_true, hflat, nil_append]
    · rw [hflat, ← length_pos_iff]
      simp [sizeofHeader]
  · obtain ⟨rfl, rfl⟩ : r' = r ∧ rest' = rest := by simpa using hq'.symm.trans hq
    have hbusy : s.sending.remainSize ≠ 0 := by
      rw [hsize]
      exact mt length_eq_zero_iff.mp hne
    rw [if_neg hbusy]
    exact ⟨sent, hout, hframe, hsize, hne⟩

theorem Inv.leave (hi : s.Inv cfg) (code : SResult) : (s.leave code).Inv cfg :=
  { hi with }

theorem Inv.iterate (hi : s.Inv cfg) (budget : ℤ) (hmild : ∀ a ∈ answers, a.Mild) :
    (s.iterate cfg budget answers).Inv cfg := by
  unfold SendState.iterate
  split_ifs with hb
  · exact hi.leave _
  split
  · exact hi.leave _
  rename_i r rest hq
  have hposted : s.posted = (s.popped ++ [r]) ++ rest := by
    rw [hi.posted, hq, append_assoc, singleton_append]
  have hrest : ∀ r' ∈ rest, r'.WellFormed cfg := fun r' h =>
    hi.wellFormed r' (hq ▸ mem_cons_of_mem r h)
  split_ifs with hr
  · -- sent when it was posted: no bytes, and nothing can be under way
    refine ⟨hposted, hrest, .inl ?_⟩
    rcases hi.bytes with ⟨hzero, hout⟩ | ⟨r', _, _, hq', hr', _⟩
    · refine ⟨hzero, ?_⟩
      simp [SendState.pop, hout, frame, hr]
    · have : r = r' := (cons.inj (hq.symm.trans hq')).1
      exact absurd hr (by simp [this, hr'])
  · rw [Bool.not_eq_true] at hr
    obtain ⟨sent, hout, hframe, hsize, hne⟩ := hi.composed hq hr
    have hp := processRequest_spec cfg hmild hsize hne
    dsimp only at hp ⊢
    generalize processRequest cfg (composeRequest cfg s.sending r) answers = p
      at hp ⊢
    rcases hp with ⟨code, hcode, hleft, hsize', hne'⟩ | ⟨hcode, hall, hzero⟩
    · -- the call returns with the rest of the frame in the vectors
      rw [hcode]
      refine ⟨hi.posted, hi.wellFormed, .inr ⟨r, rest, sent ++ p.1, hq, hr, ?_, ?_, hsize', hne'⟩⟩
      · exact (congrArg (· ++ p.1) hout).trans (append_assoc _ _ _)
      · rw [hframe, hleft, append_assoc]
        rfl
    · rw [hcode]
      refine ⟨hposted, hrest, .inl ⟨hzero, ?_⟩⟩
      rw [SendState.pop, flatMap_append, flatMap_singleton]
      rw [hframe, hout, hall, append_assoc]

/-- **One step keeps the invariant.** -/
theorem Inv.step {x : SendAction} (hi : s.Inv cfg)
    (hx : x.Allowed cfg) (h : sendStep cfg s x = some s') : s'.Inv cfg := by
  cases x with
  | post r =>
    cases h
    refine ⟨by simp [hi.posted], ?_, ?_⟩
    · exact forall_mem_append.mpr ⟨hi.wellFormed, forall_mem_singleton.mpr hx⟩
    · refine hi.bytes.imp_right ?_
      rintro ⟨r', rest, sent, hq, hrest⟩
      exact ⟨r', rest ++ [r], sent, by simp [hq], hrest⟩
  | call =>
    rw [sendStep] at h
    split_ifs at h
    cases h
    exact { hi with }
  | iterate answers =>
    obtain ⟨budget, -, rfl⟩ := Option.map_eq_some_iff.mp h
    exact hi.iterate budget hx

theorem Inv.of_run {xs : List SendAction} (hxs : ∀ x ∈ xs, x.Allowed cfg)
    (h : sendRun cfg xs = some s) : s.Inv cfg :=
  run_invariant_along (P := SendState.Inv cfg)
    (G := fun _ x => x.Allowed cfg) (fun _ _ _ hi hx h => hi.step hx h)
    ⟨rfl, fun _ h => absurd h not_mem_nil, .inl ⟨rfl, rfl⟩⟩
    (along_of_forall_mem hxs) h

theorem Inv.inOrder (hi : s.Inv cfg) : s.InOrder cfg := by
  refine ⟨hi.posted, ?_⟩
  rcases hi.bytes with ⟨-, hout⟩ | ⟨r, rest, sent, hq, -, hout, hframe, -, hne⟩
  · exact ⟨[], by rw [hout, append_nil], .inl rfl⟩
  · refine ⟨sent, hout, .inr ⟨r, rest, hq, ⟨_, hframe.symm⟩, fun h => hne ?_⟩⟩
    exact append_cancel_left (hframe.symm.trans (h.symm.trans (append_nil sent).symm))

/-- Once the queue is empty, all that was posted has been sent. -/
theorem InOrder.out_of_nil (h : s.InOrder cfg) (hq : s.queue = []) :
    s.out = s.posted.flatMap (frame cfg) := by
  obtain ⟨hposted, sent, hout, rfl | ⟨r, rest, hq', -⟩⟩ := h
  · rw [hout, hposted, hq, append_nil, append_nil]
  · exact absurd (hq.symm.trans hq') (cons_ne_nil r rest).symm

theorem Inv.progresses (hi : s.Inv cfg) : s.Progresses cfg := by
  intro budget r rest extra answers hbudget hq hr
  obtain ⟨sent, -, -, -, hne⟩ := hi.composed hq hr
  have hpos := processRequest_pos cfg extra answers hne
  unfold SendState.iterate
  rw [if_neg (not_le.mpr hbudget), hq]
  simp only [hr, if_neg Bool.false_ne_true]
  split <;>
    simpa [SendState.leave, SendState.pop, length_pos_iff] using hpos

end SendState

end Steps

/-- **The send queue emits whole frames in order, and makes progress**: in
every state it can reach, for well-formed requests and with a socket that
takes any number of bytes or none. -/
theorem inOrder_of_sendRun (cfg : SendConfig) (xs : List SendAction)
    (s : SendState) (hxs : ∀ x ∈ xs, x.Allowed cfg)
    (h : sendRun cfg xs = some s) :
    s.InOrder cfg ∧ s.Progresses cfg :=
  have hi := SendState.Inv.of_run hxs h
  ⟨hi.inOrder, hi.progresses⟩

/-- A socket of a kilobyte. -/
def smallSocket : SendConfig where
  mem a := a.toUInt8
  sendBufSizeKB := 1

/-- A read of one element. -/
def oneRead : SendRequest where
  opType := .read
  iov := [{ lAddress := 64, size := 8 }]

/-- A scatter write of three bytes in two elements. -/
def twoPieceWrite : SendRequest where
  opType := .sglWrite
  header := { dataLength := 109 }
  iov := [{ lAddress := 10, size := 2 }, { lAddress := 20, size := 1 }]

/-- The write goes out in three pieces, the second ending in its vectors'
midst, and the read, posted in between, follows it. -/
def piecewiseRun : List SendAction :=
  [.post twoPieceWrite, .call, .iterate [.accept 27], .post oneRead,
    .call, .iterate [.accept 106], .call, .iterate [.fail .eagain],
    .call, .iterate [.accept 40], .iterate [.accept 79]]

set_option maxRecDepth 2000 in
theorem inOrder_piecewiseRun : ∃ s, sendRun smallSocket piecewiseRun = some s ∧ s.queue = []
      ∧ s.InOrder smallSocket ∧ s.Progresses smallSocket := by
  refine ⟨_, rfl, rfl, inOrder_of_sendRun smallSocket piecewiseRun _ ?_ rfl⟩
  simp [piecewiseRun, SendAction.Allowed, WriteAnswer.Mild,
    SendRequest.WellFormed, oneRead, twoPieceWrite, SockOpType.countsByHeader,
    payload, iovCountBytes, iovBytes,
    localData, sizeofIov]

/-! ## A request that stays -/

/-- A request to read three bytes, in a frame of one byte more. -/
def surplusRead : OpCtx where
  header := { flags := 7, dataLength := 55 }
  dataAddress := 4096
  body := leBytes 2 1 ++ TransSgeIov.encode { rAddress := 20, rKey := 7, size := 3 } ++ [0]
  length_body := by decide
  dataEnd_lt := by decide

/-- A worker with the memory that is asked for; its socket queues what it sends. -/
def readWorker : Worker where
  upContext := 1
  sock := 1
  ranges key := if key = 7 then some (16, 32) else none
  requests _ := none
  opCtxLeft := true
  sglCtxLeft := true
  calcHeaderCrc32 _ := 0
  postResult := ssSockSendEagain
  epollResult := ssOk
  newRequestResult := ssOk
  oneSideDoneResult := ssOk

/-- The acknowledgement: the header tells the length of the frame it answers and
of the memory, and the elements are those of the frame. -/
def surplusAck : SendRequest where
  opType := .sglReadAck
  header := readWorker.ackHeader surplusRead 8
    (surplusRead.header.dataLength + sizeSum surplusRead.iovs)
  iov := surplusRead.iovs
  iov_length := by decide

/-- All bytes of the acknowledgement have been taken, and one is missing. -/
structure SendState.Stuck (cfg : SendConfig) (s : SendState) : Prop where
  front : ∃ rest, s.queue = surplusAck :: rest
  sending : s.sending = ⟨1, [[], [], [], []], false⟩
  popped : s.popped = []
  out : s.out = surplusAck.frame cfg

/-- Nothing can be taken of empty vectors. -/
theorem processRequest_stuck (cfg : SendConfig) (answers : List WriteAnswer) :
    ∃ code, processRequest cfg ⟨1, [[], [], [], []], false⟩ answers
      = ([], ⟨1, [[], [], [], []], false⟩, some code) := by
  have hnone : (SendingQueueRequest.write cfg ⟨1, [[], [], [], []], false⟩ answers).bytes = []
      ∧ (SendingQueueRequest.write cfg ⟨1, [[], [], [], []], false⟩ answers).failed = false := by
    match answers with
    | [] | .accept _ :: _ | .fail _ :: _ => exact ⟨rfl, rfl⟩
  rw [processRequest, hnone.1, hnone.2]
  exact ⟨_, rfl⟩

theorem SendState.Stuck.step {cfg : SendConfig} {s s' : SendState} {x : SendAction}
    (h : s.Stuck cfg) (hstep : sendStep cfg s x = some s') : s'.Stuck cfg := by
  obtain ⟨⟨rest, hq⟩, hsending, hpopped, hout⟩ := h
  cases x with
  | post r =>
    obtain rfl := Option.some_inj.mp hstep
    exact ⟨⟨rest ++ [r], congrArg (· ++ [r]) hq⟩, hsending, hpopped, hout⟩
  | call =>
    obtain ⟨-, rfl⟩ := guard_eq_some.mp hstep
    exact ⟨⟨rest, hq⟩, hsending, hpopped, hout⟩
  | iterate answers =>
    obtain ⟨budget, -, rfl⟩ := Option.map_eq_some_iff.mp hstep
    obtain ⟨code, hcode⟩ := processRequest_stuck cfg answers
    rw [SendState.iterate]
    by_cases hbudget : budget ≤ 0
    · rw [if_pos hbudget]
      exact ⟨⟨rest, hq⟩, hsending, hpopped, hout⟩
    · rw [if_neg hbudget, hq]
      dsimp only
      rw [if_neg (show ¬surplusAck.isSent = true from Bool.false_ne_true), hsending,
        composeRequest, if_neg one_ne_zero, hcode, append_nil]
      exact ⟨⟨rest, rfl⟩, rfl, hpopped, hout⟩

/-- **Where the queue stands still.** What `PostReadSglAck` queues for a frame with
a byte more than its elements has a `dataLength` of a byte more than its
payload. All of it is taken, and it is never popped, whatever follows; the read
behind it is never sent. -/
theorem exists_run_never_popped :
    (readWorker.postReadSglAck surplusRead).effects.getLast? = some (.post surplusAck.opType
        surplusAck.header (surplusAck.iov.map fun v => (v.rAddress, v.size.toNat)))
      ∧ ∃ s, sendRun smallSocket [.post surplusAck, .post oneRead, .call, .iterate [.accept 84]]
          = some s
        ∧ s.out = surplusAck.frame smallSocket ∧ ¬ s.InOrder smallSocket
        ∧ ∀ xs s', run (sendStep smallSocket) s xs = some s' → s'.popped = [] ∧ s'.out = s.out := by
  refine ⟨rfl, _, rfl, rfl, ?_, fun xs s' hrun => ?_⟩
  · rintro ⟨-, sent, hout, rfl | ⟨r, rest, hq, -, hne⟩⟩
    · exact absurd (congrArg length hout) (by decide)
    · obtain ⟨rfl, -⟩ := cons.inj hq
      exact hne hout.symm
  · have hlater := run_invariant (P := SendState.Stuck smallSocket)
      (fun _ _ _ h hstep => h.step hstep) ⟨⟨[oneRead], rfl⟩, rfl, rfl, rfl⟩ hrun
    exact ⟨hlater.popped, hlater.out⟩

/-! ## The receiver at the other end -/

theorem encodeAll_eq (fs : List Frame) : encodeAll fs = (fs.map Frame.encode).flatten := by
  induction fs with
  | nil => rfl
  | cons f fs ih => exact congrArg (f.encode ++ ·) ih

/-- **Socket to socket.** Once the queue is empty, a receiver that reads what
it has sent finds no error and reports the frames of the requests posted, each
whole and in their order, however the writes and the reads have cut them. -/
theorem reports_of_sendRun (cfg : SendConfig) (env : ReceiveEnv) (hmem : env.HasMemory)
    (xs : List SendAction) (s : SendState) (hxs : ∀ x ∈ xs, x.Allowed cfg)
    (h : sendRun cfg xs = some s) (hq : s.queue = []) (fs : List Frame)
    (hfs : fs.map Frame.encode = s.posted.map (SendRequest.frame cfg))
    (hvalid : ∀ f ∈ fs, f.Valid env) (buff : SockBuff) (answers : List RecvAnswer)
    (hcut : ∀ a ∈ answers, a.IsCut) (n : ℕ) :
    let run := handleInCalls env n (Receiver.init buff) ⟨s.out, answers⟩
    (∀ c ∈ run.1, c.err = .noError)
      ∧ (s.out.length ≤ byteAnswers answers → answers.length ≤ n →
          run.1.filter CallReport.fullReceived = expectedReports fs) := by
  have hout : s.out = encodeAll fs := by
    rw [encodeAll_eq, hfs]
    exact (SendState.Inv.of_run hxs h).inOrder.out_of_nil hq
  rw [hout]
  have hspec := handleInCalls_spec hmem n hvalid (w := ⟨encodeAll fs, answers⟩)
    (Receiver.phase_reset (s := .init buff) rfl rfl fs) hcut
  exact ⟨hspec.1, hspec.2.2⟩

/-- A send of one byte, … -/
def oneByte : SendRequest where
  opType := .send
  header := { dataLength := 1 }

/-- … and one of two bytes. -/
def twoBytes : SendRequest where
  opType := .sendRaw
  header := { seqNo := 1, dataLength := 2 }
  sendBuff := 100

/-- They go out in two pieces each; the second is posted between those of the
first. -/
def twoSendsRun : List SendAction :=
  [.post oneByte, .call, .iterate [.accept 20], .post twoBytes, .call, .iterate [.accept 7],
    .iterate [.accept 28], .call, .iterate [.accept 9]]

theorem reports_twoSendsRun : ∃ s f f', sendRun smallSocket twoSendsRun = some s
      ∧ f.body = [28] ∧ f'.body = [128, 129]
      ∧ (handleInCalls plentyEnv 59 (.init ⟨[], 0⟩) ⟨s.out, replicate 59 (.bytes 0)⟩).1.filter
        CallReport.fullReceived = expectedReports [f, f'] :=
  ⟨_, ⟨oneByte.header, [28], rfl⟩, ⟨twoBytes.header, [128, 129], rfl⟩, rfl, rfl, rfl,
    (reports_of_sendRun smallSocket plentyEnv (fun _ _ _ => rfl) twoSendsRun _
      (by simp [twoSendsRun, SendAction.Allowed, WriteAnswer.Mild, SendRequest.WellFormed, oneByte,
        twoBytes, SockOpType.countsByHeader]) rfl rfl _ rfl
      (by simp [Frame.Valid, plentyEnv, netSgeMaxSize, oneByte, twoBytes]) ⟨[], 0⟩
      (replicate 59 (.bytes 0)) (by decide) 59).2 (by decide) (by decide)⟩

end Sock
