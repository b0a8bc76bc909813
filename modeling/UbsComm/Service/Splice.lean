import UbsComm.Lib.Bytes
import UbsComm.Lib.Execution
import UbsComm.Service.Channel

/-!
# Messages in fragments

A two-sided message that is longer than the threshold of its channel is sent
in fragments, each with a header that has the number of the message, its
total length and where the fragment belongs. The receiver puts them together
in a buffer that it finds by the number: the first fragment makes the buffer,
and the one that ends where its header says the message ends completes it.
There are two receivers, `spliceMessage` of a channel, for any number of
messages at a time, and `syncSpliceMessage` of a self-polling endpoint, for
one.

A message on the wire is a byte string: the header, and then the payload.
For the record, a buffer has the fragments that have come to it and knows of
each of its bytes the message it was copied from.
-/

namespace Service

open Function

/-! ## Headers -/

/-- The number of a message. -/
structure UBSHcomFragmentMessageId where
  epId : UInt64
  seqNo : UInt64
deriving DecidableEq

/-- `UBSHcomFragmentHeader` -/
structure UBSHcomFragmentHeader where
  msgId : UBSHcomFragmentMessageId
  totalLength : UInt32
  offset : UInt32
deriving DecidableEq

/-- The header as it is in memory. -/
def UBSHcomFragmentHeader.encode (header : UBSHcomFragmentHeader) : List UInt8 :=
  leBytes 8 header.msgId.epId.toNat ++ (leBytes 8 header.msgId.seqNo.toNat
    ++ (leBytes 4 header.totalLength.toNat ++ leBytes 4 header.offset.toNat))

/-- The header of a message. -/
def serviceHeader (msg : List UInt8) : UBSHcomFragmentHeader where
  msgId := ⟨UInt64.ofNat (leField msg 0 8), UInt64.ofNat (leField msg 8 8)⟩
  totalLength := UInt32.ofNat (leField msg 16 4)
  offset := UInt32.ofNat (leField msg 20 4)

/-- A fragment without its header. -/
def payload (msg : List UInt8) : List UInt8 := msg.drop fragmentHeaderSize.toNat

/-! ## Sending -/

section

variable (ch : HcomChannelImp) (msgId : UBSHcomFragmentMessageId) (req : List UInt8)

/-- The fragment `segIndex` of a message. -/
def HcomChannelImp.segment (segIndex : UInt32) : List UInt8 :=
  let size := UInt32.ofNat req.length
  let segOffset := segIndex * ch.userSplitSendThreshold
  let segSize := min ch.userSplitSendThreshold (size - segOffset)
  let extHeader : UBSHcomFragmentHeader := ⟨msgId, size, segOffset⟩
  extHeader.encode ++ (req.drop segOffset.toNat).take segSize.toNat

section

variable (fragmentNum : UInt32)

namespace HcomChannelImp

/-- What the loop over the fragments posts. -/
def segments : List (List UInt8) :=
  (List.range fragmentNum.toNat).map fun segIndex =>
    ch.segment msgId req (UInt32.ofNat segIndex)

/-- The posts of `SyncSendSplitWithWorkerPoll`, if none fails. -/
def syncSendSplitWithWorkerPoll : List (List UInt8) :=
  ch.segments msgId req fragmentNum

/-- The posts of `SyncSendSplitWithSelfPoll`, if none fails. -/
def syncSendSplitWithSelfPoll : List (List UInt8) :=
  ch.segments msgId req fragmentNum

/-- The posts of `AsyncSendSplitWithWorkerPoll`, if none fails. -/
def asyncSendSplitWithWorkerPoll : List (List UInt8) :=
  ch.segments msgId req fragmentNum

end HcomChannelImp

end

end

/-! ## Receiving -/

/-- `memcpy_s` to a place in a buffer, with the room that is left from there:
too much to copy leaves zeros. -/
def memcpyS (buffer : List UInt8) (offset : ℕ) (src : List UInt8) : Bool × List UInt8 :=
  if buffer.length - offset = 0 then (false, buffer)
  else if src.length > buffer.length - offset then
    (false, buffer.take offset ++ List.replicate (buffer.length - offset) 0)
  else (true, overlay buffer offset src)

/-- A message of which fragments have come. -/
structure Incomplete where
  /-- The number of the timer. -/
  seqNo : UInt32 := 0
  buffer : List UInt8 := []
  /-- The message that a byte was copied from. -/
  source : ℕ → Option (List UInt8) := fun _ => none
  /-- The fragments that have come, whatever was done with them. -/
  arrived : List (List UInt8) := []

/-- `mMsgReceived`. -/
abbrev MsgReceived := UBSHcomFragmentMessageId → Option Incomplete

/-- What `SpliceMessage` returns. -/
inductive SpliceMessageResult where
  | ok (msg : List UInt8) (source : ℕ → Option (List UInt8))
  | error (code : SerCode)
  | indeterminate

/-- What the inner steps of `SpliceMessage` answer. -/
structure SpliceAnswers where
  /-- Whether the callback of the timer could be had. -/
  allocated : Bool := true
  prepared : SerCode × UInt32 := (.ok, 1)
  /-- Whether the timer was still in the store at the end. -/
  found : Bool := true

section Splice

variable (msgReceived : MsgReceived) (msg : List UInt8) (answers : SpliceAnswers)

/-- A fragment is copied into the buffer of its message. -/
def copyFragment (incompleteMsg : Incomplete) : SpliceMessageResult × MsgReceived :=
  let header := serviceHeader msg
  let offset := header.offset.toNat
  let put := update msgReceived header.msgId
  let incompleteMsg := { incompleteMsg with arrived := incompleteMsg.arrived ++ [msg] }
  if offset > incompleteMsg.buffer.length then (.error .splitInvalidMsg, put (some incompleteMsg))
  else
    let copied := memcpyS incompleteMsg.buffer offset (payload msg)
    if ¬copied.1 then
      (.error .splitInvalidMsg, put (some { incompleteMsg with
        buffer := copied.2
        source := fun b => if offset ≤ b then none else incompleteMsg.source b }))
    else
      let incompleteMsg := { incompleteMsg with
        buffer := copied.2
        source := fun b =>
          if offset ≤ b ∧ b < offset + (payload msg).length then some msg
          else incompleteMsg.source b }
      if offset + (payload msg).length = header.totalLength.toNat then
        (.ok incompleteMsg.buffer incompleteMsg.source,
          -- the buffer is moved out; the entry goes only with its timer
          put (if answers.found then none else some { seqNo := incompleteMsg.seqNo }))
      else (.indeterminate, put (some incompleteMsg))

/-- `SpliceMessage` -/
def spliceMessage : SpliceMessageResult × MsgReceived :=
  if msg.length < fragmentHeaderSize.toNat then (.error .splitInvalidMsg, msgReceived)
  else
    let header := serviceHeader msg
    if header.totalLength ≥ serviceMaxTotalLength then (.error .splitInvalidMsg, msgReceived)
    else if header.offset = 0 then
      match msgReceived header.msgId with
      | some _ => (.error .error, msgReceived)
      | none =>
        let emplaced := update msgReceived header.msgId (some {})
        if ¬answers.allocated then (.error .newObjectFailed, emplaced)
        else if answers.prepared.1 ≠ .ok then (.error answers.prepared.1, emplaced)
        else copyFragment msgReceived msg answers
          { seqNo := answers.prepared.2
            buffer := List.replicate header.totalLength.toNat 0 }
    else
      match msgReceived header.msgId with
      | none => (.error .error, msgReceived)
      | some incompleteMsg => copyFragment msgReceived msg answers incompleteMsg

end Splice

/-- What happens to a channel. -/
inductive SpliceAction where
  | arrive (msg : List UInt8) (answers : SpliceAnswers)
  /-- The timer of a message that has not been completed erases it. -/
  | timeout (msgId : UBSHcomFragmentMessageId)

/-- A fragment comes, or a timer is out of time. -/
def spliceStep (msgReceived : MsgReceived) : SpliceAction → Option MsgReceived
  | .arrive msg answers => some (spliceMessage msgReceived msg answers).2
  | .timeout msgId => some (update msgReceived msgId none)

/-- A run of the receiver, from its start. -/
def spliceRun (xs : List SpliceAction) : Option MsgReceived :=
  Machine.run spliceStep (fun _ => none) xs

/-! ## The receiver of a self-polling endpoint -/

/-- `UBSHcomExtHeaderType` -/
inductive UBSHcomExtHeaderType where
  | raw
  | fragment
deriving DecidableEq

/-- One round of the loop of `SyncSpliceMessage`: an error, or the buffer and
whether it is complete. -/
def syncSpliceFragment (acc msg : List UInt8) : Except SerCode (List UInt8 × Bool) :=
  if msg.length < fragmentHeaderSize.toNat then .error .error
  else
    let header := serviceHeader msg
    if header.totalLength ≥ serviceMaxTotalLength then .error .splitInvalidMsg
    else
      let acc :=
        if header.offset = 0 then
          acc.take header.totalLength.toNat
            ++ List.replicate (header.totalLength.toNat - acc.length) 0
        else acc
      if header.totalLength ≠ UInt32.ofNat acc.length then .error .splitInvalidMsg
      else if header.offset.toNat > acc.length then .error .splitInvalidMsg
      else
        let copied := memcpyS acc header.offset.toNat (payload msg)
        if ¬copied.1 then .error .splitInvalidMsg
        else .ok (copied.2, header.offset.toNat + (payload msg).length = header.totalLength.toNat)

/-- What a call of `Receive` gives. -/
abbrev Received := Except SerCode (UBSHcomExtHeaderType × List UInt8)

/-- The rounds over what is received, up to the message or an error; `none`
while it waits for more. -/
def syncSpliceLoop (acc : List UInt8) : List Received → Option (Except SerCode (List UInt8))
  | [] => none
  | .error code :: _ => some (.error code)
  | .ok (.raw, _) :: _ => some (.error .error)
  | .ok (.fragment, msg) :: received =>
    match syncSpliceFragment acc msg with
    | .error code => some (.error code)
    | .ok (acc, true) => some (.ok acc)
    | .ok (acc, false) => syncSpliceLoop acc received

/-- `SyncSpliceMessage`, with what the endpoint receives: a message that is
not a fragment is taken as it is if it is the first. -/
def syncSpliceMessage : List Received → Option (Except SerCode (List UInt8))
  | .ok (.raw, msg) :: _ => some (.ok msg)
  | received => syncSpliceLoop [] received

end Service
