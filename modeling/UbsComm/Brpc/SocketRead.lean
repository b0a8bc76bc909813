import UbsComm.Lib.Execution
import UbsComm.Lib.Links

/-!
# Reading from a socket by copying

`SocketFd::Recv` and `SocketFd::Read` poll the receive queue and copy what has
been received into the buffer of the caller. `Recv` keeps what does not fit in
a cache, a linked list of received buffers with its head, its tail and the
number of bytes in it, and begins the next call there; `Read` copies from what
it has polled only.

A buffer is held by the socket from the poll that returns it until it is freed.
`umq_buf_free` frees a buffer with all that are linked behind it, and a call
that touches a buffer which has been freed has no meaning. For the record the
socket knows the data of all the entries that it has polled, and what its calls
have reported as read.

A call is `Orderly` if it meets none of the places where the code goes wrong:

* `Recv` returns -1, or 0 on a closed socket, when it could not fill the buffer
  of the caller, although it has copied and freed what there was;
* it frees a buffer that it has read to the end with those behind it, and goes
  on with them;
* an entry without data leaves the head, or the buffer in front of it, at a
  buffer that has been freed;
* `Read` drops what does not fit, and overtakes what `Recv` has left in the
  cache;
* a failed refill drops what has been polled.
-/

namespace Brpc

open Links Function

/-! ## Received buffers -/

/-- `UMQ_BUF_FLOW_CONTROL_UPDATE` -/
def umqBufFlowControlUpdate : ℕ := 128

/-- `UMQ_FAKE_BUF_FC_UPDATE` -/
def umqFakeBufFcUpdate : ℕ := 192

/-- `UMQ_FAKE_BUF_FC_ERR` -/
def umqFakeBufFcErr : ℕ := 193

/-- `umq_buf_t` of a received buffer; the data is what `buf_data` and
`data_size` stand for. -/
structure RxBuf where
  status : ℕ
  data : List UInt8
  totalDataSize : ℕ
  next : ℕ := 0

namespace RxBuf

/-- Not data for `Recv`: an error, or a window update that comes alone. -/
def Control (b : RxBuf) : Prop :=
  b.status ≠ 0 ∧ (b.status ≠ umqBufFlowControlUpdate ∨ b.totalDataSize = 0)
deriving Decidable

/-- The data that an entry brings. -/
def payload (b : RxBuf) : List UInt8 := if b.Control then [] else b.data

/-- What `Read` takes for the data of an entry. -/
def plain (b : RxBuf) : List UInt8 := if b.status ≠ 0 then [] else b.data

end RxBuf

/-! ## The socket -/

/-- The values of `errno` after a read. -/
inductive ReadErrno where
  | einval
  | eio
  | epipe
  | eintr
  | eagain

/-- The value returned; -1 comes with an error number. -/
inductive ReadRet where
  | fail (errno : ReadErrno)
  | count (n : ℕ)

/-- The number of bytes reported. -/
def ReadRet.bytes : ReadRet → ℕ
  | .fail _ => 0
  | .count n => n

/-- What a socket is configured with. -/
structure RxConfig where
  rxWindowCapacity : UInt16
  refillThreshold : UInt16
  readvUnlimited : Bool

/-- The fields of `SocketFd` that the reads use. -/
structure SocketRx where
  buf : ℕ → RxBuf
  held : List ℕ
  cacheHead : ℕ
  cacheTail : ℕ
  remainingSize : ℕ
  windowSize : UInt16
  getAndAckEvent : Bool
  flowControlFailed : Bool
  rxUseTcp : Bool
  /-- What is left of the message that was not a negotiation. -/
  protocolNegotiation : List UInt8
  received : List UInt8
  delivered : List UInt8

/-- What becomes of a refill: there are no buffers, they are posted, or a post
fails behind the first ones. -/
inductive Refill where
  | noBuf
  | posted
  | bad (wrCnt : UInt16)

/-- A poll as it is answered: the entries, with their addresses, or a negative
value, and what becomes of a refill. -/
structure PollTurn where
  polled : Option (List (ℕ × RxBuf))
  refill : Refill

/-- What a call depends on besides the socket. -/
structure ReadEnv where
  bufNull : Bool := false
  /-- What the call of the system returns, and the bytes it gives. -/
  tcp : ReadRet × List UInt8 := (.fail .eagain, [])
  /-- `m_closed` when `Read` begins. -/
  closedBefore : Bool := false
  ackFails : Bool := false
  blocking : Bool := true
  turns : List PollTurn
  epollUnchanged : Bool := true
  /-- `m_closed` when there is nothing to return. -/
  closed : Bool := false
  rearmFails : Bool := false

/-! ## Polling -/

/-- The window, the entries that have been polled, and whether it returns
-1. -/
structure Polled where
  windowSize : UInt16
  bufs : List (ℕ × RxBuf)
  failed : Bool

/-- `POLL_BATCH_MAX` -/
def pollBatchMax : ℕ := 32

/-- `UmqPollAndRefillRx` -/
def umqPollAndRefillRx (cfg : RxConfig) (windowSize : UInt16) (t : PollTurn) : Polled :=
  match t.polled with
  | none => ⟨windowSize, [], true⟩
  | some bufs =>
    if bufs.isEmpty ∧ windowSize = 0 then ⟨windowSize, [], true⟩
    else
      let w := windowSize - UInt16.ofNat bufs.length
      if cfg.refillThreshold < cfg.rxWindowCapacity - w then
        match t.refill with
        | .noBuf => ⟨w, bufs, false⟩
        | .posted => ⟨w + cfg.refillThreshold, bufs, false⟩
        | .bad wrCnt => ⟨w + wrCnt, bufs, decide (w + wrCnt = 0)⟩
      else ⟨w, bufs, false⟩

/-- The loops around it: again as long as there is nothing, if the call
blocks. -/
def pollLoop (cfg : RxConfig) (blocking : Bool) : UInt16 → List PollTurn → Option Polled
  | _, [] => none
  | w, t :: ts =>
    let r := umqPollAndRefillRx cfg w t
    if r.failed = false ∧ r.bufs.isEmpty ∧ blocking = true then
      pollLoop cfg blocking r.windowSize ts
    else some r

namespace SocketRx

variable (s : SocketRx)

/-- The link of a buffer. -/
def next (p : ℕ) : ℕ := (s.buf p).next

/-- `umq_poll` returns buffers that the socket does not hold, each the last of
its list. -/
def Fresh (bufs : List (ℕ × RxBuf)) : Prop :=
  bufs.length ≤ pollBatchMax ∧ (bufs.map Prod.fst).Nodup ∧
    ∀ e ∈ bufs, e.1 ≠ 0 ∧ e.1 ∉ s.held ∧ e.2.next = 0
deriving Decidable

/-- The entries, written to their addresses. -/
def place : List (ℕ × RxBuf) → (ℕ → RxBuf) → ℕ → RxBuf
  | [], buf => buf
  | e :: bufs, buf => place bufs (update buf e.1 e.2)

/-- The socket holds what has been polled. -/
def take (r : Polled) : SocketRx := { s with
    buf := place r.bufs s.buf
    held := s.held ++ r.bufs.map Prod.fst
    windowSize := r.windowSize
    received := s.received ++ r.bufs.flatMap (fun e => e.2.payload) }

/-! ## Freeing -/

/-- A buffer and those linked behind it. -/
def chain (p : ℕ) : List ℕ := walk s.next (s.held.length + 1) p

/-- `umq_buf_free`; `none` if it meets a buffer that has been freed. -/
def umqBufFree (p : ℕ) : Option SocketRx :=
  if (s.chain p).length ≤ s.held.length ∧ ∀ q ∈ s.chain p, q ∈ s.held then
    some { s with held := s.held.filter (fun q => q ∉ s.chain p) }
  else none

/-- A link is set. -/
def setNext (p q : ℕ) : SocketRx := { s with buf := update s.buf p { s.buf p with next := q } }

/-- One buffer: its link is cleared before it is freed. -/
def freeOne (p : ℕ) : Option SocketRx := (s.setNext p 0).umqBufFree p

/-- A failure of the flow control is noted. -/
def noteStatus (p : ℕ) : SocketRx :=
  if (s.buf p).status = umqFakeBufFcErr then { s with flowControlFailed := true } else s

/-- The head of the cache is set. -/
def setHead (p : ℕ) : SocketRx := { s with cacheHead := p }

/-- The tail of the cache is set. -/
def setTail (p : ℕ) : SocketRx := { s with cacheTail := p }

/-- The number of cached bytes is set. -/
def setRemaining (n : ℕ) : SocketRx := { s with remainingSize := n }

/-- The first `n` bytes of a buffer have been copied. -/
def advance (p n : ℕ) : SocketRx :=
  { s with buf := update s.buf p { s.buf p with data := (s.buf p).data.drop n } }

end SocketRx

/-- The buffer of the caller: the room that is left in it and what has been
copied. -/
structure UserBuf where
  remaining : ℕ
  copied : List UInt8

/-- Data is copied to the caller. -/
def UserBuf.copy (u : UserBuf) (data : List UInt8) : UserBuf :=
  ⟨u.remaining - data.length, u.copied ++ data⟩

/-- How a call ends. -/
inductive ReadOutcome where
  /-- It has not returned, or is given what `umq_poll` does not return. -/
  | pending
  /-- It has touched a buffer that has been freed. -/
  | stray
  | returned (s : SocketRx) (ret : ReadRet) (user : List UInt8)

namespace SocketRx

/-! ## `Recv` -/

/-- The loop over the cache. -/
def recvCached : ℕ → SocketRx → UserBuf → Option (SocketRx × UserBuf)
  | 0, _, _ => none
  | fuel + 1, s, u =>
    if u.remaining = 0 ∨ s.remainingSize = 0 ∨ s.cacheHead = 0 then some (s, u)
    else if s.cacheHead ∈ s.held then
      let b := s.buf s.cacheHead
      if b.data.length ≤ u.remaining then
        (s.umqBufFree s.cacheHead).bind (fun t =>
          recvCached fuel ((t.setRemaining (s.remainingSize - b.data.length)).setHead b.next)
            (u.copy b.data))
      else
        some ((s.advance s.cacheHead u.remaining).setRemaining (s.remainingSize - u.remaining),
          u.copy (b.data.take u.remaining))
    else none

/-- The loop that links the entries. -/
def linkEntries : List ℕ → SocketRx → SocketRx
  | p :: q :: ps, s => linkEntries (q :: ps) (s.setNext p q)
  | _, s => s

/-- The entries behind the cache. -/
def appendEntries (s : SocketRx) (ids : List ℕ) : Option SocketRx :=
  let t := linkEntries ids s
  if t.cacheHead = 0 then some ((t.setHead (ids.headD 0)).setTail (ids.getLastD 0))
  else if t.cacheTail ∈ t.held then
    some ((t.setNext t.cacheTail (ids.headD 0)).setTail (ids.getLastD 0))
  else none

/-- The loop over the entries. -/
def recvEntries : List ℕ → SocketRx → UserBuf → Option (SocketRx × UserBuf)
  | [], s, u => some (s, u)
  | p :: ps, s, u =>
    if p ∈ s.held then
      let b := s.buf p
      if b.Control then ((s.noteStatus p).freeOne p).bind (fun t => recvEntries ps t u)
      else if u.remaining = 0 then
        recvEntries ps (s.setRemaining (s.remainingSize + b.data.length)) u
      else if b.data.length ≤ u.remaining then
        (s.umqBufFree p).bind (fun t => recvEntries ps (t.setHead b.next) (u.copy b.data))
      else
        recvEntries ps
          ((s.advance p u.remaining).setRemaining (s.remainingSize + (b.data.length - u.remaining)))
          (u.copy (b.data.take u.remaining))
    else none

/-- The end of a call that has nothing to return. -/
def notReady (s : SocketRx) (e : ReadEnv) : ReadRet :=
  if e.epollUnchanged = false then .fail .eintr
  else if s.flowControlFailed then .fail .eio
  else if e.closed then .count 0
  else if e.rearmFails then .fail .eio
  else .fail .eagain

/-- The tail is the last entry, if anything is left. -/
def closeTail (s : SocketRx) (ids : List ℕ) : SocketRx :=
  if s.remainingSize ≠ 0 then s.setTail (ids.getLastD 0) else s

section

variable (s : SocketRx) (len : ℕ) (e : ReadEnv) (ids : List ℕ) (u : UserBuf)

/-- `Recv` behind the loop over the entries. -/
def recvEnd : ReadOutcome :=
  .returned (s.closeTail ids) (if u.remaining = 0 then .count len else s.notReady e) u.copied

/-- `Recv` from the loop over the entries on. -/
def recvPolled : ReadOutcome :=
  match (s.appendEntries ids).bind (fun t => recvEntries ids t u) with
  | none => .stray
  | some (t, v) => t.recvEnd len e ids v

end

section

variable (cfg : RxConfig) (s : SocketRx) (len : ℕ) (e : ReadEnv)

/-- `Recv` from the poll on. -/
def recvPoll (u : UserBuf) : ReadOutcome :=
  match pollLoop cfg true s.windowSize e.turns with
  | none => .pending
  | some r =>
    if s.Fresh r.bufs then
      if r.failed then .returned (s.take r) (.fail .eio) u.copied
      else (s.take r).recvPolled len e (r.bufs.map Prod.fst) u
    else .pending

/-- `Recv` behind its checks. -/
def recvBody : ReadOutcome :=
  match recvCached (s.held.length + 1) s ⟨len, []⟩ with
  | none => .stray
  | some (t, u) =>
    if u.remaining = 0 then .returned t (.count len) u.copied
    else t.recvPoll cfg len e u

end

/-- `OutputErrorMagicNumber`: what is left of the message goes to the caller,
and then the socket falls back to TCP. -/
def outputErrorMagicNumber (s : SocketRx) (len : ℕ) : ReadOutcome :=
  let copySize := min len s.protocolNegotiation.length
  .returned
    { s with
      protocolNegotiation := s.protocolNegotiation.drop copySize
      rxUseTcp := s.rxUseTcp || decide (s.protocolNegotiation.length ≤ copySize) }
    (.count copySize) (s.protocolNegotiation.take copySize)

/-- `Recv` -/
def recv (cfg : RxConfig) (s : SocketRx) (len : ℕ) (e : ReadEnv) : ReadOutcome :=
  if s.rxUseTcp then .returned s e.tcp.1 e.tcp.2
  else if e.bufNull ∨ len = 0 then .returned s (.fail .einval) []
  else if s.protocolNegotiation ≠ [] then s.outputErrorMagicNumber len
  else if s.getAndAckEvent ∧ e.ackFails then .returned s (.fail .eio) []
  else recvBody cfg { s with getAndAckEvent := false } len e

/-! ## `Read` -/

/-- The loop over the entries. -/
def readEntries : List ℕ → SocketRx → UserBuf → Option (SocketRx × UserBuf)
  | [], s, u => some (s, u)
  | p :: ps, s, u =>
    if p ∈ s.held then
      let b := s.buf p
      if u.remaining = 0 then (s.freeOne p).bind (fun t => readEntries ps t u)
      else if b.status ≠ 0 then
        if b.status ≠ umqFakeBufFcUpdate then
          ((s.noteStatus p).freeOne p).bind (fun t => readEntries ps t u)
        else
          ({ s with windowSize := s.windowSize + 1 }.freeOne p).bind (fun t => readEntries ps t u)
      else (s.freeOne p).bind (fun t => readEntries ps t (u.copy (b.data.take u.remaining)))
    else none

section

variable (cfg : RxConfig) (s : SocketRx) (nbyte : ℕ) (e : ReadEnv)

/-- `Read` from the poll on. -/
def readPoll : ReadOutcome :=
  match pollLoop cfg e.blocking s.windowSize e.turns with
  | none => .pending
  | some r =>
    if s.Fresh r.bufs then
      if r.failed then .returned (s.take r) (.fail .eio) []
      else if r.bufs.isEmpty then .returned (s.take r) (.fail .eagain) []
      else
        match readEntries (r.bufs.map Prod.fst) (s.take r) ⟨nbyte, []⟩ with
        | none => .stray
        | some (t, u) =>
          .returned t (if u.copied = [] then t.notReady e else .count u.copied.length) u.copied
    else .pending

/-- `Read` -/
def read : ReadOutcome :=
  if s.rxUseTcp then .returned s e.tcp.1 e.tcp.2
  else if e.bufNull ∨ nbyte = 0 then .returned s (.fail .einval) []
  else if e.closedBefore then .returned s (.fail .epipe) []
  else if s.protocolNegotiation ≠ [] then s.outputErrorMagicNumber nbyte
  else if s.getAndAckEvent ∧ e.ackFails then .returned s (.fail .eio) []
  else if cfg.readvUnlimited = false ∧ 2 ^ 32 ≤ nbyte then
    .returned { s with getAndAckEvent := false } (.fail .einval) []
  else readPoll cfg { s with getAndAckEvent := false } nbyte e

end

end SocketRx

/-! ## Runs of calls -/

/-- A call of either function. -/
inductive ReadCall where
  | recv (len : ℕ) (e : ReadEnv)
  | read (nbyte : ℕ) (e : ReadEnv)

namespace SocketRx

/-- What a call does. -/
def call (cfg : RxConfig) (s : SocketRx) : ReadCall → ReadOutcome
  | .recv len e => s.recv cfg len e
  | .read nbyte e => s.read cfg nbyte e

/-- For the record, what the caller finds in its buffer, up to the value
returned. -/
def report (s : SocketRx) (ret : ReadRet) (user : List UInt8) : SocketRx :=
  { s with delivered := s.delivered ++ user.take ret.bytes }

/-- The data in buffers. -/
def bytes (s : SocketRx) (l : List ℕ) : List UInt8 := l.flatMap (fun p => (s.buf p).data)

/-- The data that is in the cache. -/
def cached (s : SocketRx) : List UInt8 := s.bytes (s.chain s.cacheHead)

/-- A socket on which nothing has been read. -/
def new (buf : ℕ → RxBuf) (windowSize : UInt16) : SocketRx where
  buf := buf
  held := []
  cacheHead := 0
  cacheTail := 0
  remainingSize := 0
  windowSize := windowSize
  getAndAckEvent := false
  flowControlFailed := false
  rxUseTcp := false
  protocolNegotiation := []
  received := []
  delivered := []

end SocketRx

/-- A call; nothing remains of the socket, `none`, when it touches a buffer that
has been freed. -/
def readStep (cfg : RxConfig) : Option SocketRx → ReadCall → Option (Option SocketRx)
  | none, _ => none
  | some s, c =>
    match s.call cfg c with
    | .pending => none
    | .stray => some none
    | .returned t ret user => some (some (t.report ret user))

/-! ## Orderly calls -/

/-- The entries for `Recv` with room for `n` bytes: the last one is the only
one with data, and fills the room – or is empty, if nothing has been copied
yet – or all have data, and the first one is longer than the room. -/
def FitsEntries (idle : Bool) (n : ℕ) (bs : List RxBuf) : Prop := ((∀ b ∈ bs.dropLast, b.Control) ∧
    ∃ d ∈ bs.getLast?, ¬ d.Control ∧ (d.data.length = n ∨ idle = true ∧ d.data = [])) ∨
  ((∀ b ∈ bs, ¬ b.Control) ∧ ∃ d ∈ bs.head?, n < d.data.length)
deriving Decidable

/-- What a poll of `Recv` returns. -/
def Polled.FitsRecv (r : Polled) (idle : Bool) (n : ℕ) : Prop :=
  if r.failed then idle = true ∧ r.bufs.flatMap (fun e => e.2.payload) = []
  else FitsEntries idle n (r.bufs.map Prod.snd)

instance (r : Polled) (idle : Bool) (n : ℕ) : Decidable (r.FitsRecv idle n) :=
  inferInstanceAs (Decidable (ite _ _ _))

/-- What a poll of `Read` returns: all the data fits, and nothing is in the
cache if there is some. -/
def Polled.FitsRead (r : Polled) (cached : List UInt8) (nbyte : ℕ) : Prop :=
  if r.failed then r.bufs.flatMap (fun e => e.2.payload) = []
  else
    r.bufs.flatMap (fun e => e.2.payload) = r.bufs.flatMap (fun e => e.2.plain) ∧
      (r.bufs.flatMap (fun e => e.2.plain)).length ≤ nbyte ∧
      (r.bufs.flatMap (fun e => e.2.plain) = [] ∨ cached = [])

instance (r : Polled) (cached : List UInt8) (nbyte : ℕ) : Decidable (r.FitsRead cached nbyte) :=
  inferInstanceAs (Decidable (ite _ _ _))

namespace SocketRx

variable (cfg : RxConfig) (s : SocketRx)

/-- `Recv` polls with room for `n` bytes. -/
def PollsOrderly (idle : Bool) (n : ℕ) (e : ReadEnv) : Prop :=
  ∀ r ∈ pollLoop cfg true s.windowSize e.turns, r.FitsRecv idle n
deriving Decidable

/-- The call ends in the first buffer of the cache, or behind it if it is the
only one. -/
def RecvOrderly (len : ℕ) (e : ReadEnv) : Prop :=
  match s.chain s.cacheHead with
  | [] => s.PollsOrderly cfg true len e
  | [p] =>
    if (s.buf p).data.length < len then s.PollsOrderly cfg false (len - (s.buf p).data.length) e
    else True
  | p :: _ => len < (s.buf p).data.length

/-- What `Read` polls fits. -/
def ReadOrderly (nbyte : ℕ) (e : ReadEnv) : Prop :=
  ∀ r ∈ pollLoop cfg e.blocking s.windowSize e.turns, r.FitsRead s.cached nbyte
deriving Decidable

/-- The call does not get beyond its checks. -/
def Refused (len : ℕ) (e : ReadEnv) : Prop :=
  e.bufNull = true ∨ len = 0 ∨ s.getAndAckEvent = true ∧ e.ackFails = true
deriving Decidable

/-- **The calls that go wrong nowhere.** -/
def Orderly : ReadCall → Prop
  | .recv len e => s.Refused len e ∨ s.RecvOrderly cfg len e
  | .read nbyte e =>
    s.Refused nbyte e ∨ e.closedBefore = true ∨ (cfg.readvUnlimited = false ∧ 2 ^ 32 ≤ nbyte) ∨
      s.ReadOrderly cfg nbyte e

instance (len : ℕ) (e : ReadEnv) : Decidable (s.RecvOrderly cfg len e) :=
  match h : s.chain s.cacheHead with
  | [] => decidable_of_iff (s.PollsOrderly cfg true len e) (by rw [RecvOrderly, h])
  | [p] =>
    decidable_of_iff
      (if (s.buf p).data.length < len then s.PollsOrderly cfg false (len - (s.buf p).data.length) e
      else True)
      (by rw [RecvOrderly, h])
  | p :: _ :: _ => decidable_of_iff (len < (s.buf p).data.length) (by rw [RecvOrderly, h])

instance : (c : ReadCall) → Decidable (s.Orderly cfg c)
  | .recv len e => inferInstanceAs (Decidable (s.Refused len e ∨ s.RecvOrderly cfg len e))
  | .read nbyte e => inferInstanceAs (Decidable (s.Refused nbyte e ∨ _ ∨ _ ∨ _))

end SocketRx

end Brpc
