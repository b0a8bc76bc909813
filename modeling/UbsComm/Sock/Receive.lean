import UbsComm.Sock.Frame

/-!
# Receiving frames

`Sock::HandleIn` is called whenever the socket may have bytes. It keeps a
two-phase state across calls: while `bodyToBeReceived` is -1 it collects
the 28 bytes of the header, of which `headerToBeReceived` are missing;
after that it collects the body into the receive buffer. A call reads at
most twice, once in each phase, and returns as soon as a read brings less
than was asked for.

The socket is modelled by the bytes still to come and by the answers its
reads will get: up to so many bytes, at least one, or an error number. The
body of a two-sided frame is read through TLS where that is enabled; that
is another way to the same answers, and the model does not tell them apart.

**Framing** (`reports_of_frames`): whatever the cuts, the calls of
`HandleIn` report the frames of the stream, each once, in order, with its
header and its body, and at each report the bytes still to come are those
of the frames after it. The lengths are those `ValidateHeader` lets through
– a frame of length 0 is refused, and one that is too long (`frames_refused`).
-/

namespace Sock

open List SockTransHeader Nat Bool

/-! ## The state -/

/-- `SockReceiveState`. -/
structure SockReceiveState where
  headerToBeReceived : ℕ
  bodyToBeReceived : ℤ
deriving DecidableEq

namespace SockReceiveState

/-- `ShouldReceiveHeader` -/
def shouldReceiveHeader (s : SockReceiveState) : Bool := s.bodyToBeReceived = -1

/-- `ReceivedHeaderLen` -/
def receivedHeaderLen (s : SockReceiveState) : ℕ := sizeofHeader - s.headerToBeReceived

/-- `ResetHeader`. -/
def resetHeader : SockReceiveState := ⟨sizeofHeader, -1⟩

/-- `BodySatisfied` -/
def bodySatisfied (s : SockReceiveState) (newReceivedSize : ℕ) : SockReceiveState × Bool :=
  let left := s.bodyToBeReceived - newReceivedSize
  ({ s with bodyToBeReceived := left }, left = 0)

/-- `HeaderSatisfied` -/
def headerSatisfied (s : SockReceiveState) (newReceivedHeader : ℕ) : SockReceiveState × Bool :=
  let left := s.headerToBeReceived - newReceivedHeader
  ({ s with headerToBeReceived := left }, left = 0)

end SockReceiveState

/-- `SockBuff`: the allocated memory and `mActualDataSize`. -/
structure SockBuff where
  buf : List UInt8
  actualDataSize : UInt32

/-- `SockBuff::ExpandIfNeed`. -/
def SockBuff.expandIfNeed (malloc : UInt32 → Option (List UInt8))
    (b : SockBuff) (size : UInt32) : SockBuff × Bool :=
  if size = 0 then (b, false)
  else if size.toNat > b.buf.length then
    match malloc size with
    | some mem => ({ b with buf := mem }, true)
    | none => ({ b with buf := [] }, false)
  else (b, true)

/-- The part of a socket that receives; `mHeader` is kept as the memory it
is, since it is written piece by piece. -/
structure Receiver where
  state : SockReceiveState
  mHeader : List UInt8
  buff : SockBuff

/-- `mHeader`, read as a header. -/
def Receiver.header (s : Receiver) : SockTransHeader := SockTransHeader.decode s.mHeader

/-- What the receiver rests on: the header checksum, and memory of the size
asked for, if there is any. -/
structure ReceiveEnv where
  calcHeaderCrc32 : SockTransHeader → UInt32
  malloc : UInt32 → Option (List UInt8)
  malloc_length : ∀ n mem, malloc n = some mem → mem.length = n.toNat

/-! ## The socket -/

/-- The answer to one `recv`: at most `extra + 1` bytes, or a failure. -/
inductive RecvAnswer where
  | bytes (extra : ℕ)
  | fail (errno : Errno)
deriving DecidableEq

/-- The bytes the peer has sent and nobody has read, and the answers to the
reads to come; with no answer left, and with no byte left, a read is told
to try again. -/
structure Wire where
  stream : List UInt8
  answers : List RecvAnswer

/-- `recv` of at most `size` bytes. -/
def Wire.recv (w : Wire) (size : ℕ) : (List UInt8 ⊕ Errno) × Wire :=
  match w.answers with
  | [] => (.inr .eagain, w)
  | .fail errno :: answers => (.inr errno, { w with answers := answers })
  | .bytes extra :: answers =>
    let n := min size (extra + 1)
    match w.stream.take n with
    | [] => (.inr .eagain, { w with answers := answers })
    | b :: got => (.inl (b :: got), ⟨w.stream.drop n, answers⟩)

/-! ## `HandleIn` -/

/-- `SockOpContextInfo::SockErrorType`. -/
inductive SockErrorType where
  | noError
  | operateFailure
  | resetByPeer
  | outOfMem
  | timeout
deriving DecidableEq

/-- `NET_SGE_MAX_SIZE`. -/
def netSgeMaxSize : UInt32 := 524288000

/-- `NetFunc::ValidateHeader`. -/
def validateHeader (env : ReceiveEnv) (h : SockTransHeader) : Bool :=
  if h.dataLength = 0 ∨ h.dataLength > netSgeMaxSize then false
  else decide (h.headerCrc = env.calcHeaderCrc32 h)

/-- `NO_BODY_FLAG`; the whole of the flags is compared. -/
def noBodyFlag (flags : UInt16) : Bool := flags = 6 ∨ flags = 10

/-- What a call leaves and returns. -/
structure HandleIn where
  sock : Receiver
  wire : Wire
  err : SockErrorType
  fullReceived : Bool

/-- What a failed read comes to. -/
def recvError : Errno → SockErrorType
  | .success | .econnreset => .resetByPeer
  | .eagain => .noError
  | .other => .operateFailure

/-- `RECEIVE_BODY`. -/
def receiveBody (s : Receiver) (w : Wire) : HandleIn :=
  let dataLength := s.header.dataLength
  let off := dataLength.toNat - s.state.bodyToBeReceived.toNat
  match w.recv s.state.bodyToBeReceived.toNat with
  | (.inl got, w) =>
    let buf := overlay s.buff.buf off got
    let (state, satisfied) := s.state.bodySatisfied got.length
    if satisfied then
      ⟨{ s with state := .resetHeader, buff := ⟨buf, dataLength⟩ }, w, .noError, true⟩
    else
      ⟨{ s with state := state, buff := { s.buff with buf := buf } }, w, .noError, false⟩
  | (.inr errno, w) => ⟨s, w, recvError errno, false⟩

/-- `RECEIVE_HEADER`: either the call returns, or it goes on to the
body. -/
def receiveHeader (env : ReceiveEnv) (s : Receiver) (w : Wire) : HandleIn ⊕ (Receiver × Wire) :=
  match w.recv s.state.headerToBeReceived with
  | (.inl got, w) =>
    let mHeader := overlay s.mHeader s.state.receivedHeaderLen got
    let (state, satisfied) := s.state.headerSatisfied got.length
    let s := { s with state := state, mHeader := mHeader }
    if satisfied then
      if !validateHeader env s.header then .inl ⟨s, w, .operateFailure, false⟩
      else
        let s := { s with
          state := { s.state with
            bodyToBeReceived := s.header.dataLength.toNat } }
        let (buff, expanded) := s.buff.expandIfNeed env.malloc s.header.dataLength
        let s := { s with buff := buff }
        if !expanded then .inl ⟨s, w, .outOfMem, false⟩
        else
          let s := { s with buff := { s.buff with actualDataSize := 0 } }
          if s.header.dataLength = 0 ∨ noBodyFlag s.header.flags then
            .inl ⟨{ s with state := .resetHeader }, w, .noError, true⟩
          else .inr (s, w)
    else .inl ⟨s, w, .noError, false⟩
  | (.inr errno, w) => .inl ⟨s, w, recvError errno, false⟩

/-- **`Sock::HandleIn`.** -/
def handleIn (env : ReceiveEnv) (s : Receiver) (w : Wire) : HandleIn :=
  if s.state.shouldReceiveHeader then
    match receiveHeader env s w with
    | .inl r => r
    | .inr (s, w) => receiveBody s w
  else receiveBody s w

/-! ## Calls, and what they report -/

/-- What the worker sees after a call: the error, whether a frame is
complete, the header and the body, and – for the record – the bytes that
are still to come. -/
structure CallReport where
  err : SockErrorType
  fullReceived : Bool
  header : SockTransHeader
  body : List UInt8
  toCome : List UInt8
deriving DecidableEq

/-- What the caller sees. -/
def HandleIn.report (r : HandleIn) : CallReport where
  err := r.err
  fullReceived := r.fullReceived
  header := r.sock.header
  body := r.sock.buff.buf.take r.sock.buff.actualDataSize.toNat
  toCome := r.wire.stream

/-- `n` calls, one after the other. -/
def handleInCalls (env : ReceiveEnv) : ℕ → Receiver → Wire → List CallReport × Receiver × Wire
  | 0, s, w => ([], s, w)
  | n + 1, s, w =>
    let r := handleIn env s w
    let later := handleInCalls env n r.sock r.wire
    (r.report :: later.1, later.2)

/-- A frame: the acknowledgement of a write has no body, and every other
frame has a body of `dataLength` bytes. -/
structure Frame where
  header : SockTransHeader
  body : List UInt8
  length_body : body.length = if noBodyFlag header.flags then 0 else header.dataLength.toNat

/-- A frame whose header passes `ValidateHeader`. -/
def Frame.Valid (env : ReceiveEnv) (f : Frame) : Prop :=
  0 < f.header.dataLength ∧ f.header.dataLength ≤ netSgeMaxSize
    ∧ f.header.headerCrc = env.calcHeaderCrc32 f.header

/-- The frame on the wire. -/
def Frame.encode (f : Frame) : List UInt8 := f.header.encode ++ f.body

/-- Frames on the wire, one after the other. -/
def encodeAll : List Frame → List UInt8
  | [] => []
  | f :: fs => f.encode ++ encodeAll fs

/-- What is to be reported, and what is to come at each report. -/
def expectedReports : List Frame → List CallReport
  | [] => []
  | f :: fs => ⟨.noError, true, f.header, f.body, encodeAll fs⟩ :: expectedReports fs

/-- A socket after its initialization, with a buffer of any size. -/
def Receiver.init (buff : SockBuff) : Receiver := ⟨.resetHeader, SockTransHeader.encode {}, buff⟩

/-- The answers a stream is cut by: bytes, and advice to try again. -/
def RecvAnswer.IsCut : RecvAnswer → Prop
  | .bytes _ => True
  | .fail errno => errno = .eagain

instance : (a : RecvAnswer) → Decidable a.IsCut
  | .bytes _ => .isTrue trivial
  | .fail _ => inferInstanceAs (Decidable (_ = _))

/-- The number of answers that bring bytes. -/
def byteAnswers : List RecvAnswer → ℕ
  | [] => 0
  | .bytes _ :: as => byteAnswers as + 1
  | .fail _ :: as => byteAnswers as

/-! ## One read -/

/-- From one state of the wire to a later one, in which `bytes` have been
read: the answers used up are gone, and if the answers that bring bytes
were enough for the stream, they still are. -/
structure Wire.Reads (w w' : Wire) (bytes : List UInt8) : Prop where
  stream : w.stream = bytes ++ w'.stream
  cut : (∀ a ∈ w.answers, a.IsCut) → ∀ a ∈ w'.answers, a.IsCut
  used : w'.answers.length ≤ w.answers.length - 1
  enough : w.stream.length ≤ byteAnswers w.answers → w'.stream.length ≤ byteAnswers w'.answers

variable {w : Wire}

theorem Wire.Reads.trans {w' w'' : Wire} {bytes bytes' : List UInt8} (h : w.Reads w' bytes)
    (h' : w'.Reads w'' bytes') : w.Reads w'' (bytes ++ bytes') where
  stream := by rw [h.stream, h'.stream, append_assoc]
  cut := fun hc => h'.cut (h.cut hc)
  used := by
    have := h.used
    have := h'.used
    omega
  enough := fun he => h'.enough (h.enough he)

/-- **One read**: some of the bytes asked for, or advice to try again. -/
theorem Wire.recv_spec (size : ℕ) (hsize : 0 < size) (hcut : ∀ a ∈ w.answers, a.IsCut) :
    (∃ got w', w.recv size = (.inl got, w') ∧ 0 < got.length ∧ got.length ≤ size ∧ w.Reads w' got)
      ∨ ∃ w', w.recv size = (.inr .eagain, w') ∧ w.Reads w' [] := by
  obtain ⟨stream, answers⟩ := w
  cases answers with
  | nil => exact .inr ⟨_, rfl, ⟨rfl, id, le_rfl, id⟩⟩
  | cons a answers =>
    have htail : ∀ a ∈ answers, a.IsCut := fun a ha => hcut a (mem_cons_of_mem _ ha)
    cases a with
    | fail errno =>
      obtain rfl : errno = .eagain := hcut _ mem_cons_self
      exact .inr ⟨_, rfl, ⟨rfl, fun _ => htail, le_rfl, id⟩⟩
    | bytes extra =>
      cases htake : stream.take (min size (extra + 1)) with
      | nil =>
        obtain rfl : stream = [] := by
          rcases take_eq_nil_iff.mp htake with hzero | hnil
          · omega
          · exact hnil
        refine .inr ⟨⟨[], answers⟩, ?_, rfl, fun _ => htail, le_rfl, fun _ => zero_le _⟩
        unfold Wire.recv
        dsimp only
        rw [htake]
      | cons b got =>
        have hlen : (b :: got).length ≤ min size (extra + 1) := by
          rw [← htake]
          exact length_take_le _ _
        have hsplit : stream = b :: got ++ stream.drop (min size (extra + 1)) := by
          rw [← htake, take_append_drop]
        refine .inl ⟨b :: got, ⟨stream.drop (min size (extra + 1)), answers⟩,
          ?_, succ_pos _, hlen.trans (min_le_left _ _), hsplit,
          fun _ => htail, le_rfl, fun henough => ?_⟩
        · unfold Wire.recv
          dsimp only
          rw [htake]
        · have hcount : stream.length ≤ byteAnswers answers + 1 := henough
          have hparts := congrArg length hsplit
          rw [length_append, length_cons] at hparts
          show (stream.drop _).length ≤ byteAnswers answers
          omega

/-! ## The two phases -/

/-- The header phase: the first `j` bytes of the stream of frames are in
`mHeader`, the others are to come. -/
structure Receiver.HeaderPhase (s : Receiver) (stream : List UInt8)
    (fs : List Frame) (j : ℕ) : Prop where
  lt : j < sizeofHeader
  missing : s.state = ⟨sizeofHeader - j, -1⟩
  length : s.mHeader.length = sizeofHeader
  le : j ≤ (encodeAll fs).length
  got : s.mHeader.take j = (encodeAll fs).take j
  stream : stream = (encodeAll fs).drop j

/-- The body phase: the header of `f` is in `mHeader`, and the first `j`
bytes of its body are in the buffer. -/
structure Receiver.BodyPhase (s : Receiver) (stream : List UInt8) (f : Frame)
    (fs : List Frame) (j : ℕ) : Prop where
  lt : j < f.header.dataLength.toNat
  missing : s.state.bodyToBeReceived = f.header.dataLength.toNat - j
  header : s.mHeader = f.header.encode
  length : f.body.length = f.header.dataLength.toNat
  room : f.header.dataLength.toNat ≤ s.buff.buf.length
  got : s.buff.buf.take j = f.body.take j
  stream : stream = f.body.drop j ++ encodeAll fs

/-- Between calls a receiver is in one of the two phases. -/
def Receiver.Phase (s : Receiver) (stream : List UInt8) (fs : List Frame) : Prop :=
  (∃ j, s.HeaderPhase stream fs j) ∨ ∃ f fs' j, fs = f :: fs' ∧ s.BodyPhase stream f fs' j

variable {fs : List Frame} {env : ReceiveEnv} {s : Receiver} {f : Frame} {j : ℕ}

theorem length_header_le : sizeofHeader ≤ (encodeAll (f :: fs)).length := by
  show _ ≤ (f.header.encode ++ f.body ++ encodeAll fs).length
  rw [length_append, length_append, length_encode]
  omega

/-- The frame after the one being received has not been touched. -/
theorem Receiver.Phase.suffix {stream : List UInt8} (h : s.Phase stream fs) :
    encodeAll fs.tail <:+ stream := by
  rcases h with ⟨j, hj⟩ | ⟨f, fs', j, rfl, hj⟩
  · rw [hj.stream]
    cases fs with
    | nil => exact nil_suffix
    | cons f fs =>
      have hlt := hj.lt
      rw [← f.header.length_encode] at hlt
      refine ⟨(f.header.encode ++ f.body).drop j, ?_⟩
      show _ = (f.header.encode ++ f.body ++ encodeAll fs).drop j
      have hle : j ≤ (f.header.encode ++ f.body).length := by
        rw [length_append]
        omega
      rw [drop_append_of_le_length hle]
      rfl
  · rw [hj.stream]
    exact suffix_append _ _

theorem Receiver.Phase.eq_nil (h : s.Phase [] fs) : fs = [] := by
  rcases h with ⟨j, hj⟩ | ⟨f, fs', j, rfl, hj⟩
  · cases fs with
    | nil => rfl
    | cons f fs =>
      have hlt := hj.lt
      have hdrop := congrArg length hj.stream
      rw [length_drop, length_nil] at hdrop
      have hle : sizeofHeader ≤ (encodeAll (f :: fs)).length := length_header_le
      omega
  · have hdrop := congrArg length hj.stream
    rw [length_append, length_drop, hj.length, length_nil] at hdrop
    have := hj.lt
    omega

theorem Receiver.phase_reset (hstate : s.state = .resetHeader)
    (hlen : s.mHeader.length = sizeofHeader) (fs : List Frame) : s.Phase (encodeAll fs) fs :=
  .inl ⟨0, by decide, hstate, hlen, zero_le _, rfl, rfl⟩

/-! ## One call -/

theorem read_on {l buf got rest : List UInt8} (hj : j ≤ l.length) (hgot : buf.take j = l.take j)
    (h : l.drop j = got ++ rest) (hroom : j + got.length ≤ buf.length) :
    (overlay buf j got).take (j + got.length) = l.take (j + got.length)
      ∧ rest = l.drop (j + got.length) ∧ (overlay buf j got).length = buf.length := by
  have hlen : (l.take j ++ got).length = j + got.length := by
    rw [length_append, length_take, min_eq_left hj]
  have hl : l = (l.take j ++ got) ++ rest := by rw [append_assoc, ← h, take_append_drop]
  refine ⟨?_, ?_, length_overlay hroom⟩
  · rw [take_overlay (by omega), hgot]
    conv_rhs => rw [hl, ← hlen, take_left]
  · conv_rhs => rw [hl, ← hlen, drop_left]

/-- What a call comes to for a receiver with the frames `fs` before it: it
reports nothing and is still on the first of them, or it reports it. -/
def HandleIn.Goes (r : HandleIn) (fs : List Frame) : Prop :=
  (r.err = .noError ∧ r.fullReceived = false ∧ r.sock.Phase r.wire.stream fs)
    ∨ ∃ f fs', fs = f :: fs' ∧ r.report = ⟨.noError, true, f.header, f.body, encodeAll fs'⟩
      ∧ r.sock.Phase r.wire.stream fs'

/-- **The body phase**: the bytes read go on from where the buffer ends, and
the last of them completes the frame. -/
theorem receiveBody_spec (h : s.BodyPhase w.stream f fs j) (hcut : ∀ a ∈ w.answers, a.IsCut) :
    ∃ bytes, w.Reads (receiveBody s w).wire bytes ∧ (receiveBody s w).Goes (f :: fs) := by
  have hlt := h.lt
  have hheader : s.header = f.header := by
    unfold Receiver.header
    rw [h.header, decode_encode]
  have hask : s.state.bodyToBeReceived.toNat = f.header.dataLength.toNat - j := by
    rw [h.missing]
    omega
  have hoff : f.header.dataLength.toNat - (f.header.dataLength.toNat - j) = j := by omega
  unfold receiveBody
  dsimp only
  rw [hheader, hask, hoff]
  rcases Wire.recv_spec (f.header.dataLength.toNat - j) (by omega) hcut
    with ⟨got, w', hrecv, hpos, hle, hreads⟩ | ⟨w', hrecv, hreads⟩
  · rw [hrecv]
    dsimp only
    -- the bytes read are the next ones of the body
    have hstream : (f.body ++ encodeAll fs).drop j = got ++ w'.stream := by
      rw [drop_append_of_le_length (by rw [h.length]; omega), ← h.stream, hreads.stream]
    have hroom := h.room
    have hlen := h.length
    obtain ⟨hbuf, hcome, hlen'⟩ := read_on (by rw [length_append]; omega)
      (by rw [h.got, take_append_of_le_length (by omega)]) hstream (by omega)
    rw [take_append_of_le_length (by omega)] at hbuf
    rw [drop_append_of_le_length (by omega)] at hcome
    have hsat : (s.state.bodySatisfied got.length).2 = true
        ↔ j + got.length = f.header.dataLength.toNat := by
      show decide (s.state.bodyToBeReceived - (got.length : ℤ) = 0) = true ↔ _
      rw [decide_eq_true_iff]
      omega
    by_cases hfull : j + got.length = f.header.dataLength.toNat
    · rw [if_pos (hsat.mpr hfull)]
      have hdone : w'.stream = encodeAll fs := by
        rw [hcome, hfull, ← h.length, drop_length, nil_append]
      refine ⟨got, hreads, .inr ⟨f, fs, rfl, ?_, ?_⟩⟩
      · have hall : (overlay s.buff.buf j got).take f.header.dataLength.toNat = f.body := by
          rw [← hfull, hbuf, hfull, ← h.length, take_length]
        show CallReport.mk _ _ s.header _ w'.stream = _
        rw [hheader, hdone]
        exact congrArg (CallReport.mk _ _ _ · _) hall
      · show Receiver.Phase _ w'.stream fs
        rw [hdone]
        exact Receiver.phase_reset rfl (by rw [h.header, length_encode]) fs
    · rw [if_neg (fun hs => hfull (hsat.mp hs))]
      refine ⟨got, hreads, .inl ⟨rfl, rfl, .inr ⟨f, fs, j + got.length, rfl, ?_⟩⟩⟩
      exact { h with
        lt := by omega
        missing := by
          show s.state.bodyToBeReceived - (got.length : ℤ) = _
          omega
        room := by
          show _ ≤ (overlay s.buff.buf j got).length
          rwa [hlen']
        got := hbuf
        stream := hcome }
  · rw [hrecv]
    rw [hreads.stream] at h
    exact ⟨[], hreads, .inl ⟨rfl, rfl, .inr ⟨f, fs, j, rfl, h⟩⟩⟩

/-- The memory a valid frame needs can be had. -/
def ReceiveEnv.HasMemory (env : ReceiveEnv) : Prop :=
  ∀ n, 0 < n → n ≤ netSgeMaxSize → (env.malloc n).isSome

theorem SockBuff.expandIfNeed_spec (hmem : env.HasMemory) (b : SockBuff) {size : UInt32}
    (hpos : 0 < size) (hle : size ≤ netSgeMaxSize) :
    (b.expandIfNeed env.malloc size).2 = true
      ∧ size.toNat ≤ (b.expandIfNeed env.malloc size).1.buf.length := by
  unfold SockBuff.expandIfNeed
  rw [if_neg (fun h => by rw [h] at hpos; exact absurd hpos (by decide))]
  by_cases hroom : size.toNat > b.buf.length
  · obtain ⟨mem, hsome⟩ := Option.isSome_iff_exists.mp (hmem size hpos hle)
    rw [if_pos hroom, hsome]
    exact ⟨rfl, (env.malloc_length size mem hsome).ge⟩
  · rw [if_neg hroom]
    exact ⟨rfl, not_lt.mp hroom⟩

theorem Frame.Valid.validateHeader (h : f.Valid env) : validateHeader env f.header = true := by
  obtain ⟨hpos, hle, hcrc⟩ := h
  unfold Sock.validateHeader
  rw [if_neg]
  · exact decide_eq_true hcrc
  · rintro (hzero | hbig)
    · rw [hzero] at hpos
      cases hpos
    · exact absurd hle (UInt32.not_le.mpr hbig)

theorem take_encodeAll : (encodeAll (f :: fs)).take sizeofHeader = f.header.encode
      ∧ (encodeAll (f :: fs)).drop sizeofHeader = f.body ++ encodeAll fs := by
  have hall : encodeAll (f :: fs) = f.header.encode ++ (f.body ++ encodeAll fs) :=
    append_assoc _ _ _
  rw [hall, ← f.header.length_encode]
  exact ⟨take_left, drop_left⟩

/-- **The header phase**: the bytes read go on from where `mHeader` ends;
the last of them completes the header, and with it a frame without a
body. -/
theorem receiveHeader_spec (hmem : env.HasMemory) (hvalid : ∀ f ∈ fs, f.Valid env)
    (h : s.HeaderPhase w.stream fs j) (hcut : ∀ a ∈ w.answers, a.IsCut) :
    ∃ bytes w', w.Reads w' bytes ∧ ((∃ r, receiveHeader env s w = .inl r ∧ r.wire = w' ∧ r.Goes fs)
        ∨ ∃ s' f fs', receiveHeader env s w = .inr (s', w') ∧ fs = f :: fs'
          ∧ s'.BodyPhase w'.stream f fs' 0) := by
  have hlt := h.lt
  have hask : s.state.headerToBeReceived = sizeofHeader - j := by rw [h.missing]
  have hoff : s.state.receivedHeaderLen = j := by
    unfold SockReceiveState.receivedHeaderLen
    omega
  unfold receiveHeader
  rw [hask, hoff]
  rcases Wire.recv_spec (sizeofHeader - j) (by omega) hcut
    with ⟨got, w', hrecv, hpos, hle, hreads⟩ | ⟨w', hrecv, hreads⟩
  swap
  · rw [hrecv]
    rw [hreads.stream] at h
    exact ⟨[], w', hreads, .inl ⟨_, rfl, rfl, .inl ⟨rfl, rfl, .inl ⟨j, h⟩⟩⟩⟩
  rw [hrecv]
  dsimp only
  have hstream : (encodeAll fs).drop j = got ++ w'.stream := by rw [← h.stream, hreads.stream]
  have hlen : j + got.length ≤ (encodeAll fs).length := by
    have := congrArg length hstream
    rw [length_drop, length_append] at this
    omega
  obtain ⟨hmHeader, hrest, hlength⟩ := read_on h.le h.got hstream (by rw [h.length]; omega)
  rw [h.length] at hlength
  have hsat : (s.state.headerSatisfied got.length).2 = true ↔ j + got.length = sizeofHeader := by
    show decide (s.state.headerToBeReceived - got.length = 0) = true ↔ _
    rw [decide_eq_true_iff]
    omega
  by_cases hfull : j + got.length = sizeofHeader
  swap
  · rw [if_neg (fun hs => hfull (hsat.mp hs))]
    refine ⟨got, w', hreads, .inl ⟨_, rfl, rfl, .inl ⟨rfl, rfl, .inl ⟨j + got.length, ?_⟩⟩⟩⟩
    exact {
      lt := by omega
      missing := by
        show SockReceiveState.mk (s.state.headerToBeReceived - got.length)
          s.state.bodyToBeReceived = _
        rw [h.missing]
        show SockReceiveState.mk (sizeofHeader - j - got.length) (-1) = _
        rw [Nat.sub_sub]
      length := hlength
      le := hlen
      got := hmHeader
      stream := hrest }
  rw [if_pos (hsat.mpr hfull)]
  -- the header is complete, so there is a frame it belongs to
  rw [hfull] at hmHeader hrest hlen
  cases fs with
  | nil => cases hlen
  | cons f fs =>
    rw [take_encodeAll.1] at hmHeader
    rw [take_encodeAll.2] at hrest
    have hmem28 : overlay s.mHeader j got = f.header.encode := by
      rw [← hmHeader, ← hlength, take_length]
    have hheader : decode (overlay s.mHeader j got) = f.header := by rw [hmem28, decode_encode]
    have hf := hvalid f mem_cons_self
    obtain ⟨hexp, hroom⟩ := s.buff.expandIfNeed_spec hmem hf.1 hf.2.1
    simp only [Receiver.header, hheader, hf.validateHeader, hexp,
      Bool.not_true, false_eq_true, if_false]
    have hne : f.header.dataLength ≠ 0 := fun hz => by
      have hzero := hf.1
      rw [hz] at hzero
      cases hzero
    cases hbody : noBodyFlag f.header.flags with
    | true =>
      have hnil : f.body = [] := by
        rw [← length_eq_zero_iff, f.length_body, hbody]
        rfl
      rw [hnil, nil_append] at hrest
      rw [if_pos (.inr rfl)]
      refine ⟨got, w', hreads, .inl ⟨_, rfl, rfl, .inr ⟨f, fs, rfl, ?_, ?_⟩⟩⟩
      · show CallReport.mk _ _ (decode (overlay s.mHeader j got)) [] w'.stream = _
        rw [hheader, hrest, hnil]
      · show Receiver.Phase _ w'.stream fs
        rw [hrest]
        exact Receiver.phase_reset rfl hlength fs
    | false =>
      rw [if_neg (by simp [hne])]
      refine ⟨got, w', hreads, .inr ⟨_, f, fs, rfl, rfl, ?_⟩⟩
      exact {
        lt := pos_of_ne_zero fun hz => hne (UInt32.toNat_inj.mp hz)
        missing := by simp
        header := hmem28
        length := by rw [f.length_body, hbody]; rfl
        room := hroom
        got := rfl
        stream := hrest }

/-- **One call of `HandleIn`.** -/
theorem handleIn_spec (hmem : env.HasMemory) (hvalid : ∀ f ∈ fs, f.Valid env)
    (h : s.Phase w.stream fs) (hcut : ∀ a ∈ w.answers, a.IsCut) :
    ∃ bytes, w.Reads (handleIn env s w).wire bytes ∧ (handleIn env s w).Goes fs := by
  unfold handleIn
  rcases h with ⟨j, hj⟩ | ⟨f, fs', j, rfl, hj⟩
  · have hphase : s.state.shouldReceiveHeader = true := by
      rw [hj.missing]
      rfl
    rw [if_pos hphase]
    obtain ⟨bytes, w', hreads, ⟨r, hr, rfl, hgoes⟩ | ⟨s', f, fs', hr, rfl, hbody⟩⟩ :=
      receiveHeader_spec hmem hvalid hj hcut
    · rw [hr]
      exact ⟨bytes, hreads, hgoes⟩
    · rw [hr]
      obtain ⟨bytes', hreads', hgoes⟩ := receiveBody_spec hbody (hreads.cut hcut)
      exact ⟨bytes ++ bytes', hreads.trans hreads', hgoes⟩
  · have hphase : ¬s.state.shouldReceiveHeader = true := by
      have hlt := hj.lt
      unfold SockReceiveState.shouldReceiveHeader
      rw [hj.missing, decide_eq_true_iff]
      omega
    rw [if_neg hphase]
    exact receiveBody_spec hj hcut

/-! ## All calls -/

/-- **Framing, from any point of a stream.** -/
theorem handleInCalls_spec (hmem : env.HasMemory) (n : ℕ) (hvalid : ∀ f ∈ fs, f.Valid env)
    (h : s.Phase w.stream fs) (hcut : ∀ a ∈ w.answers, a.IsCut) :
    let run := handleInCalls env n s w
    (∀ c ∈ run.1, c.err = .noError)
      ∧ (∃ k, run.1.filter CallReport.fullReceived = (expectedReports fs).take k
          ∧ encodeAll (fs.drop (k + 1)) <:+ run.2.2.stream)
      ∧ (w.stream.length ≤ byteAnswers w.answers → w.answers.length ≤ n →
          run.1.filter CallReport.fullReceived = expectedReports fs) := by
  induction n generalizing s w fs with
  | zero =>
    refine ⟨by simp [handleInCalls], ⟨0, rfl, ?_⟩, fun henough hn => ?_⟩
    · rw [drop_one]
      exact h.suffix
    · -- no answer is left, so there was no byte to read
      have hnone : w.answers = [] := length_eq_zero_iff.mp (le_zero.mp hn)
      rw [hnone] at henough
      rw [length_eq_zero_iff.mp (le_zero.mp henough)] at h
      rw [h.eq_nil]
      rfl
  | succ n ih =>
    obtain ⟨bytes, hreads, hgoes⟩ := handleIn_spec hmem hvalid h hcut
    have hcut' := hreads.cut hcut
    have hused := hreads.used
    rw [handleInCalls]
    dsimp only
    rw [forall_mem_cons]
    rcases hgoes with ⟨herr, hfull, hphase⟩ | ⟨f, fs', rfl, hreport, hphase⟩
    · obtain ⟨iherr, ihk, ihall⟩ := ih hvalid hphase hcut'
      have hskip : (handleIn env s w).report.fullReceived = false := hfull
      rw [filter_cons_of_neg (by rw [hskip]; exact false_ne_true)]
      exact ⟨⟨herr, iherr⟩, ihk, fun henough hn => ihall (hreads.enough henough) (by omega)⟩
    · have hvalid' : ∀ f ∈ fs', f.Valid env := fun g hg => hvalid g (mem_cons_of_mem f hg)
      obtain ⟨iherr, ⟨k, ihk, ihsuf⟩, ihall⟩ := ih hvalid' hphase hcut'
      rw [hreport]
      refine ⟨⟨rfl, iherr⟩, ⟨k + 1, congrArg _ ihk, ihsuf⟩, fun henough hn => ?_⟩
      exact congrArg _ (ihall (hreads.enough henough) (by omega))

/-- **Framing.** For every sequence of valid frames and every way the
stream is cut into reads, the calls of `HandleIn` return no error; those
that report a full frame report the frames of the stream, in order, each
with its header and body and with exactly the later frames still to come;
the frames after the one being received are untouched; and when the reads
bring enough bytes, every frame is reported. -/
theorem reports_of_frames (env : ReceiveEnv) (hmem : env.HasMemory)
    (buff : SockBuff) (fs : List Frame) (hvalid : ∀ f ∈ fs, f.Valid env)
    (answers : List RecvAnswer) (hcut : ∀ a ∈ answers, a.IsCut) (n : ℕ) :
    let run := handleInCalls env n (Receiver.init buff) ⟨encodeAll fs, answers⟩
    (∀ c ∈ run.1, c.err = .noError)
      ∧ (∃ k, run.1.filter CallReport.fullReceived = (expectedReports fs).take k
          ∧ encodeAll (fs.drop (k + 1)) <:+ run.2.2.stream)
      ∧ ((encodeAll fs).length ≤ byteAnswers answers → answers.length ≤ n →
          run.1.filter CallReport.fullReceived = expectedReports fs) :=
  handleInCalls_spec hmem n hvalid (Receiver.phase_reset rfl (length_encode {}) fs) hcut

/-- Memory without end, and a checksum that is always 0. -/
def plentyEnv : ReceiveEnv where
  calcHeaderCrc32 := fun _ => 0
  malloc := fun n => some (List.replicate n.toNat 0)
  malloc_length := by
    intro n mem h
    rw [← Option.some.inj h, length_replicate]

/-- A two-sided frame and the acknowledgement of a write. -/
def twoFrames : List Frame := [⟨{ flags := 0, seqNo := 1, dataLength := 3 }, [7, 8, 9], rfl⟩,
    ⟨{ flags := 6, seqNo := 2, dataLength := 68 }, [], rfl⟩]

theorem reports_of_twoFrames :
    ((handleInCalls plentyEnv 61 (Receiver.init ⟨[], 0⟩) ⟨encodeAll twoFrames,
        .bytes 30 :: .fail .eagain :: List.replicate 59 (.bytes 4)⟩).1.filter
      CallReport.fullReceived) = expectedReports twoFrames :=
  (reports_of_frames plentyEnv (fun _ _ _ => rfl) ⟨[], 0⟩ twoFrames
    (by simp [twoFrames, Frame.Valid, plentyEnv, netSgeMaxSize])
    (.bytes 30 :: .fail .eagain :: replicate 59 (.bytes 4))
    (by decide) 61).2.2 (by decide) (by decide)

/-- **A frame of length 0 is refused, and one that is too long**, although the
header is whole and its checksum right: the call that completes it reports a
failure of the socket. -/
theorem frames_refused : (∃ f : Frame, f.header.dataLength = 0 ∧ f.body = []
      ∧ f.header.headerCrc = plentyEnv.calcHeaderCrc32 f.header
      ∧ (handleIn plentyEnv (Receiver.init ⟨[], 0⟩) ⟨encodeAll [f], [.bytes 27]⟩).report
        = ⟨.operateFailure, false, f.header, [], []⟩)
    ∧ ∃ f : Frame, f.header.dataLength = netSgeMaxSize + 1
      ∧ f.header.headerCrc = plentyEnv.calcHeaderCrc32 f.header
      ∧ (handleIn plentyEnv (Receiver.init ⟨[], 0⟩) ⟨encodeAll [f], [.bytes 27]⟩).report.err
        = .operateFailure :=
  ⟨⟨⟨{ seqNo := 1 }, [], rfl⟩, rfl, rfl, rfl, by decide⟩,
    ⟨⟨{ seqNo := 1, dataLength := netSgeMaxSize + 1 }, replicate 524288001 0,
      length_replicate⟩, rfl, rfl, rfl⟩⟩

end Sock
