import UbsComm.Umq.CreditPool

/-!
# Two bound queues exchanging credits

A sender asks its peer for credits (`CREDIT_REQ`), the peer answers with a
grant (`CREDIT_REP`), each message the sender transmits costs one credit,
and an idle sender gives credits back (`CREDIT_RETURN_REQ`, acknowledged by
`CREDIT_RETURN_ACK`). Every one of these messages can fail to be posted, or
be posted and come back as an error completion; each case has its own
rollback in the code.

This module models the sender's half of the code, and the system of two
bound queues: queue `a` on the sending side, sub queue `b` on the receiving
side of `SharedRq`, and the messages in flight between them. A message in
flight is delivered at most once; an error completion means that it was
not delivered, and takes it out of flight. What the other sub queues on the
receiving side do, and the posting of buffers, is left open.

What is conserved is stated at the end (`Link.Conserved`): the credits `b`
counts as granted and not used are those in the window of `a`, in data
messages in flight, and in the grants and returns in flight.
-/

namespace Umq

/-! ## The sender's functions -/

/-- `umq_ub_fc_imm_to_ratio`. -/
def umqUbFcImmToRatio (ratio : UInt8) : ℕ := creditRatio.getD ratio.toNat 1

/-- `umq_ub_fc_threashold_modify`. -/
def umqUbFcThreasholdModify (threashold : UInt16) (ratio : UInt8) : UInt16 :=
  let ret := UInt16.ofNat (threashold.toNat * umqUbFcImmToRatio ratio / 10)
  if ret = 0 then 2 else ret

/-- The two products with the floating-point `credit_multiple`, as the code
converts them back to integers. -/
structure CreditScale where
  /-- `credits_per_request / credit_multiple`. -/
  divide : UInt16 → UInt32
  /-- `credits_per_request * credit_multiple`. -/
  multiply : UInt16 → UInt32

variable {κ : Type} [DecidableEq κ]

/-- `umq_ub_permission_release`. -/
def umqUbPermissionRelease (s : SharedRq κ) (q : κ) : SharedRq κ :=
  s.setFc q { (s.sub q).fc with isCreditApplying := false }

/-- `umq_ub_permission_acquire`, when it succeeds. -/
def umqUbPermissionAcquire (s : SharedRq κ) (q : κ) : SharedRq κ :=
  s.setFc q { (s.sub q).fc with isCreditApplying := true }

section

variable (T : FcTables) (s : SharedRq κ) (q : κ)

/-- `umq_ub_window_inc`. -/
def umqUbWindowInc (win : UInt16) : SharedRq κ :=
  if win = 0 ∨ (s.sub q).fc.enabled = false then s
  else s.setFc q (T.window.remoteRxWindowInc (s.sub q).fc win false).1

/-- `umq_ub_window_dec`. -/
def umqUbWindowDec (win : UInt16) : SharedRq κ × UInt16 :=
  if win = 0 ∨ (s.sub q).fc.enabled = false then (s, win)
  else
    let r := T.window.remoteRxWindowDec (s.sub q).fc win false
    (s.setFc q r.1, r.2)

/-- `UMQ_UB_FC_MAX_IMM_DATA`. -/
def umqUbFcMaxImmData : UInt16 := 1023

/-- `umq_ub_shared_credit_req_send`: at most one request or return is
outstanding, guarded by `is_credit_applying`. -/
def umqUbSharedCreditReqSend (att : SendAttempt) : SharedRq κ × UmqRet × Option FcMsg :=
  if (s.sub q).fc.enabled = false ∨ att.bound = false then (s, .success, none)
  else
    let (s, ret) := umqUbPollFcTx T s q att
    if ret ≠ .success then (s, ret, none)
    else if (s.sub q).fc.isCreditApplying then (s, .success, none)
    else
      let s := umqUbPermissionAcquire s q
      let creditsPerRequest :=
        if (s.sub q).fc.creditsPerRequest > umqUbFcMaxImmData
        then umqUbFcMaxImmData else (s.sub q).fc.creditsPerRequest
      let msg : FcMsg :=
        ⟨{ type := .creditReq, window := toWindow creditsPerRequest },
          .creditReq, creditsPerRequest⟩
      if att.accepted then (s, .success, some msg)
      else (umqUbPermissionRelease s q, .eflowctl, none)

end

section

variable (T : FcTables) (scale : CreditScale) (s : SharedRq κ) (q : κ)

/-- `umq_ub_shared_credit_resp_handle`: adapt the size of the next request,
and add the grant to the window. -/
def umqUbSharedCreditRespHandle (imm : FcImm) : SharedRq κ :=
  let replyCredits := ofWindow imm.window
  let fc := (s.sub q).fc
  let peerRatio : UInt16 := UInt16.ofNat imm.ratio.toNat
  let newRequest : UInt32 :=
    if replyCredits < fc.creditsPerRequest then scale.divide fc.creditsPerRequest
    else
      let r := scale.multiply fc.creditsPerRequest
      if r > fc.maxCreditsRequest.toUInt32 then fc.maxCreditsRequest.toUInt32
      else r
  let creditsPerRequest := umqUbFcThreasholdModify newRequest.toUInt16 peerRatio.toUInt8 + 1
  let s := s.setFc q { fc with
    peerRatio := peerRatio
    creditsPerRequest := creditsPerRequest }
  umqUbWindowInc T s q replyCredits

/-- What `umq_ub_shared_credit_return_req_send` keeps back. -/
def returnThreshold (fc : FlowControl) : UInt16 :=
  if fc.peerRatio = 0 then 0
  else umqUbFcThreasholdModify fc.minReservedCredit fc.peerRatio.toUInt8

/-- The tests `umq_ub_shared_credit_return_req_send` makes before it looks
at the transport: the queue has been idle long enough, it has more credits
than it keeps back, and nothing is outstanding. -/
def returnDue (fc : FlowControl) (timestamp lastSend : UInt64) : Bool :=
  !(timestamp < lastSend) && !(timestamp - lastSend < fc.timeoutUs.toUInt64)
    && !(fc.remoteRxWindow ≤ returnThreshold fc) && !fc.isCreditApplying

/-- How many of `remoteCredit` credits an idle queue gives back when it
keeps back `threshold`; the comparison is made on signed integers. -/
def returnAmount (fc : FlowControl) (threshold remoteCredit : UInt16) : UInt16 :=
  let returnCredit := remoteCredit / fc.returnRatio
  let returnCredit := if returnCredit = 0 then 1 else returnCredit
  let returnCredit :=
    if (remoteCredit.toNat : ℤ) - returnCredit.toNat ≤ threshold.toNat
    then remoteCredit - threshold else returnCredit
  if returnCredit > umqUbFcMaxImmData then umqUbFcMaxImmData else returnCredit

/-- The last part of `umq_ub_shared_credit_return_req_send`: take credits
out of the window and post them, putting them back if the post is
refused. -/
def postReturnReq (threshold remoteCredit : UInt16) (accepted : Bool) :
    SharedRq κ × UmqRet × Option FcMsg :=
  let fc := (s.sub q).fc
  let newRequest := (scale.divide fc.creditsPerRequest).toUInt16
  let newRequest := if newRequest = 0 then 1 else newRequest
  let fc := { fc with creditsPerRequest := newRequest }
  let returnCredit := returnAmount fc threshold remoteCredit
  let r := T.window.remoteRxWindowDec fc returnCredit true
  let s := s.setFc q r.1
  let returnCredit := r.2
  let msg : FcMsg :=
    ⟨{ type := .creditReturnReq, window := toWindow returnCredit }, .creditReturnReq, returnCredit⟩
  if accepted then (s, .success, some msg)
  else
    let s := umqUbPermissionRelease s q
    (s.setFc q
      (T.window.remoteRxWindowInc (s.sub q).fc returnCredit true).1,
      .eflowctl, none)

/-- `umq_ub_shared_credit_return_req_send`. The window is read before the
completions are polled. -/
def umqUbSharedCreditReturnReqSend (timestamp lastSend : UInt64)
    (att : SendAttempt) : SharedRq κ × UmqRet × Option FcMsg :=
  if (s.sub q).fc.enabled = false ∨ att.bound = false then (s, .success, none)
  else if returnDue (s.sub q).fc timestamp lastSend = false then (s, .success, none)
  else
    let remoteCredit := (s.sub q).fc.remoteRxWindow
    let threshold := returnThreshold (s.sub q).fc
    let s := umqUbPermissionAcquire s q
    let (s, ret) := umqUbPollFcTx T s q att
    if ret ≠ .success then (umqUbPermissionRelease s q, ret, none)
    else postReturnReq T scale s q threshold remoteCredit att.accepted

end

/-- The window part of `umq_ub_post_tx` for `wrIndex` work requests that
each consume a receive buffer: take credits for as many as the window
allows, post those, and put back the credits of the ones the transport
does not take. `taken` is how many it would take; the result is how many
it did. -/
def umqUbPostTx (T : FcTables) (s : SharedRq κ) (q : κ) (wrIndex : UInt16)
    (taken : UInt16) : SharedRq κ × UInt16 :=
  let (s, maxTx) := umqUbWindowDec T s q wrIndex
  if maxTx = 0 then (s, 0)
  else if taken < maxTx then (umqUbWindowInc T s q (maxTx - taken), taken)
  else (s, maxTx)

/-- `umq_ub_on_tx_done` for a failed message that consumes a receive
buffer. -/
def umqUbOnTxDone (T : FcTables) (s : SharedRq κ) (q : κ) : SharedRq κ := umqUbWindowInc T s q 1

/-! ## The system -/

/-- **Two sides and what is between them**: the receiving and the sending
side, data messages in flight, and flow-control messages in flight. -/
structure Link (ι κ : Type) where
  rx : SharedRq ι
  tx : SharedRq κ
  /-- Data messages on their way to the receiver. -/
  data : ℕ := 0
  /-- `CREDIT_REQ` on their way to the receiver. -/
  reqs : List FcMsg := []
  /-- `CREDIT_REP` on their way to the sender. -/
  reps : List FcMsg := []
  /-- `CREDIT_RETURN_REQ` on their way to the receiver. -/
  returns : List FcMsg := []
  /-- `CREDIT_RETURN_ACK` on their way to the sender. -/
  acks : List FcMsg := []

/-- Take the messages of kind `k` that error completions report out of
flight; `none` if one of them was not in flight. -/
def failMsgs (k : ImmType) : List FcMsg → List FcUserCtx → Option (List FcMsg)
  | msgs, [] => some msgs
  | msgs, o :: os =>
    if o.type = k then
      match msgs.find? (fun m => m.userCtx = o) with
      | some m => failMsgs k (msgs.erase m) os
      | none => none
    else failMsgs k msgs os

/-- A transport answer for a bound queue: a poll that fails reports no
completion. -/
def SendAttempt.Bound (att : SendAttempt) : Prop :=
  att.bound = true ∧ (att.pollOk = true ∨ att.errors = [])
deriving Decidable

/-- What can happen on the link. -/
inductive LinkAction (ι : Type) where
  /-- Something on the receiving side that does not concern this link. -/
  | other (x : RqAction ι)
  /-- The sender asks for credits. -/
  | reqSend (att : SendAttempt)
  /-- The receiver handles a request. -/
  | reqHandle (m : FcMsg) (att : SendAttempt)
  /-- The sender handles a grant. -/
  | respHandle (m : FcMsg)
  /-- The sender posts work requests. -/
  | postTx (wrIndex taken : UInt16)
  /-- The receiver polls a batch of arrivals, of this and other links. -/
  | pollRx (qs : List ι)
  /-- The sender, idle, returns credits. -/
  | returnReqSend (timestamp lastSend : UInt64) (att : SendAttempt)
  /-- The receiver handles a return. -/
  | returnReqHandle (m : FcMsg) (att : SendAttempt)
  /-- The sender handles the acknowledgement of a return. -/
  | returnAck (m : FcMsg)
  /-- The sender polls completions of its flow-control messages. -/
  | senderPollFcTx (att : SendAttempt)
  /-- The receiver polls completions of its flow-control messages. -/
  | receiverPollFcTx (att : SendAttempt)
  /-- The sender learns that a data message was not delivered. -/
  | dataError

/-- The receiving side acts on a sub queue other than `b`. -/
def RqAction.Avoids {ι : Type} (b : ι) : RqAction ι → Prop
  | .postRx _ => True
  | .reqHandle q _ _ => q ≠ b
  | .returnReqHandle q _ _ => q ≠ b
  | .pollFcTx q _ => q ≠ b
  | .pollRx qs => b ∉ qs
  | .cleanUp q => q ≠ b

variable {ι : Type} [DecidableEq ι]

instance (b : ι) : (x : RqAction ι) → Decidable (x.Avoids b)
  | .postRx _ => .isTrue trivial
  | .reqHandle q _ _ => inferInstanceAs (Decidable (q ≠ b))
  | .returnReqHandle q _ _ => inferInstanceAs (Decidable (q ≠ b))
  | .pollFcTx q _ => inferInstanceAs (Decidable (q ≠ b))
  | .pollRx qs => inferInstanceAs (Decidable (b ∉ qs))
  | .cleanUp q => inferInstanceAs (Decidable (q ≠ b))

/-- The error completions the sender's transport answer reports are taken
out of flight. -/
def Link.failAtSender (s : Link ι κ) (att : SendAttempt) : Option (Link ι κ) :=
  (failMsgs .creditReq s.reqs att.errors).bind fun reqs =>
    (failMsgs .creditReturnReq s.returns att.errors).map fun returns =>
      { s with reqs := reqs, returns := returns }

/-- The same for the receiver's. -/
def Link.failAtReceiver (s : Link ι κ) (att : SendAttempt) : Option (Link ι κ) :=
  (failMsgs .creditRep s.reps att.errors).bind fun reps =>
    (failMsgs .creditReturnAck s.acks att.errors).map fun acks =>
      { s with reps := reps, acks := acks }

/-- **One step of the link.** `Tr` and `Ts` are the tables of the two
sides. -/
def linkStep (Tr Ts : FcTables) (cfg : RqConfig) (scale : CreditScale)
    (b : ι) (a : κ) (s : Link ι κ) : LinkAction ι → Option (Link ι κ)
  | .other x =>
    if x.Avoids b then (rqStep Tr cfg s.rx x).map fun rx => { s with rx := rx }
    else none
  | .reqSend att =>
    if att.Bound then
      (s.failAtSender att).map fun s =>
        let r := umqUbSharedCreditReqSend Ts s.tx a att
        { s with tx := r.1, reqs := r.2.2.toList ++ s.reqs }
    else none
  | .reqHandle m att =>
    if att.Bound ∧ m ∈ s.reqs then
      (s.failAtReceiver att).map fun s =>
        let r := umqUbSharedCreditReqHandle Tr s.rx b m.imm att
        { s with
          rx := r.1
          reqs := s.reqs.erase m
          reps := r.2.2.toList ++ s.reps }
    else none
  | .respHandle m =>
    if m ∈ s.reps then
      some { s with
        tx := umqUbPermissionRelease (umqUbSharedCreditRespHandle Ts scale s.tx a m.imm) a
        reps := s.reps.erase m }
    else none
  | .postTx wrIndex taken =>
    let r := umqUbPostTx Ts s.tx a wrIndex taken
    some { s with tx := r.1, data := s.data + r.2.toNat }
  | .pollRx qs =>
    if qs.length ≤ s.rx.rxInUse ∧ qs.count b ≤ s.data
        ∧ ∀ q ∈ qs, q ≠ b → qs.count q ≤ s.rx.held q then
      some { s with
        rx := umqUbPollRx Tr s.rx qs
        data := s.data - qs.count b }
    else none
  | .returnReqSend timestamp lastSend att =>
    if att.Bound ∧ (att.errors = [] ∨ returnDue (s.tx.sub a).fc timestamp lastSend = true) then
      (s.failAtSender att).map fun s =>
        let r := umqUbSharedCreditReturnReqSend Ts scale s.tx a timestamp lastSend att
        { s with tx := r.1, returns := r.2.2.toList ++ s.returns }
    else none
  | .returnReqHandle m att =>
    if att.Bound ∧ m ∈ s.returns then
      (s.failAtReceiver att).map fun s =>
        let r := umqUbSharedCreditReturnReqHandle Tr s.rx b m.imm att
        { s with
          rx := r.1
          returns := s.returns.erase m
          acks := r.2.2.toList ++ s.acks }
    else none
  | .returnAck m =>
    if m ∈ s.acks then
      some { s with
        tx := umqUbPermissionRelease (s.tx.setFc a { (s.tx.sub a).fc with
          peerRatio := UInt16.ofNat m.imm.ratio.toNat }) a
        acks := s.acks.erase m }
    else none
  | .senderPollFcTx att =>
    if att.Bound then
      (s.failAtSender att).map fun s =>
        { s with tx := (umqUbPollFcTx Ts s.tx a att).1 }
    else none
  | .receiverPollFcTx att =>
    if att.Bound then
      (s.failAtReceiver att).map fun s =>
        { s with rx := (umqUbPollFcTx Tr s.rx b att).1 }
    else none
  | .dataError =>
    if 0 < s.data then some { s with tx := umqUbOnTxDone Ts s.tx a, data := s.data - 1 }
    else none

/-- The link right after the queues have been bound: the sender's window
is empty, nothing is in flight. The configuration of the sending side is
arbitrary. -/
def Link.init (cfg : RqConfig) (a : κ) (tx : SharedRq κ) : Link ι κ where
  rx := SharedRq.init cfg
  tx := tx.setFc a { (tx.sub a).fc with
    remoteRxWindow := 0
    enabled := true }

/-- The credits carried by messages in flight. -/
def windowSum (msgs : List FcMsg) : ℕ := (msgs.map (fun m => m.imm.window.toNat)).sum

/-- The window of queue `a`. -/
def SharedRq.window (s : SharedRq κ) (a : κ) : ℕ := (s.sub a).fc.remoteRxWindow.toNat

/-- **Credits are conserved**: what `b` counts as granted and unused is in
the sender's window, under way as data, or under way in a grant or a
return. -/
def Link.Conserved (s : Link ι κ) (b : ι) (a : κ) : Prop :=
  s.rx.held b = s.tx.window a + s.data + windowSum s.reps + windowSum s.returns

end Umq
