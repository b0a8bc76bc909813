import UbsComm.Umq.BindSerialize

/-!
# Binding a queue to its peer

`umq_ub_bind_inner_impl` connects a queue with the jetties of its peer, fills its
receive queue, finds or makes the node for the memory of the peer, and asks for
the first credits. Each of these steps can fail, and what the steps before it
have taken is then given back, from the label on that the code jumps to.

What fails is an answer of the system (`Answers`). The model keeps how many times
a target jetty has been imported, and the reference counts of the nodes for
remote memory, by the identity of the process that has it.

**All or nothing** (`allOrNothing_umqUbBindInnerImpl_iff`). Whatever fails, all is
given back (`umqUbBindInnerImpl_outcome`). But the return code is a variable of its own:
it still says success where the namespace is too long and where the credits
cannot be asked for.
-/

namespace Umq.Bind

open Function

/-! ## The model -/

/-- The jetties of a queue. -/
inductive JettyIndex where
  | io
  | flowControl
deriving DecidableEq

/-- The states of a queue. -/
inductive QueueState where
  | idle
  | ready
  | err
deriving DecidableEq

/-- What a node for remote memory is found by. -/
structure RemoteKey where
  eid : ℕ
  pid : UInt32
  remoteNamespace : List UInt8
deriving DecidableEq

/-- `ub_bind_ctx_t`; of a target jetty the `eid`. -/
structure BindCtx where
  tjetty : JettyIndex → Option ℕ
  remotePid : UInt32
  remoteNamespace : List UInt8
  remoteNotifyAddr : UInt64

/-- What is read of the bind info. That the namespace is a string in its length is
seen to by `umq_ub_bind_info_deserialize`. -/
structure Info where
  eid : JettyIndex → ℕ
  notifyBuf : UInt64
  rxBufSize : UInt32
  pid : UInt32
  namespaceLen : UInt32
  bindNamespace : List UInt8
  terminated : bindNamespace.length < namespaceLen.toNat

/-- What is read of the queue. -/
structure Queue where
  fcEnabled : Bool
  /-- `UMQ_FEATURE_API_PRO` -/
  apiPro : Bool
  /-- `tp_mode` is `URMA_TM_RC`. -/
  rc : Bool
  maxMsgSize : UInt32

/-- What the steps of a call come to. -/
structure Answers where
  calloc : Bool := true
  importJetty : JettyIndex → Bool := fun _ => true
  /-- `URMA_SUCCESS` or `URMA_EEXIST` -/
  bindJetty : JettyIndex → Bool := fun _ => true
  prefillRxBuf : Int := 0
  eidNodeCreate : Bool := true
  creditReqSend : Int := 0

/-- What a call changes. -/
structure State where
  bindCtx : Option BindCtx
  state : QueueState
  remoteRxBufSize : UInt32
  /-- How many times the target jetties are imported. -/
  imported : JettyIndex → ℕ
  refCnt : RemoteKey → Option UInt32

/-- `UMQ_FAIL` -/
def umqFail : Int := -1

/-- `UMQ_ERR_ENOMEM` -/
def umqErrEnomem : Int := 12

/-- A jetty is imported. -/
def State.importJetty (s : State) (i : JettyIndex) : State :=
  { s with imported := update s.imported i (s.imported i + 1) }

/-- It is given back. -/
def State.unimportJetty (s : State) (i : JettyIndex) : State :=
  { s with imported := update s.imported i (s.imported i - 1) }

section

variable (queue : Queue) (info : Info) (ans : Answers)

section

variable (s : State)

/-- `umq_ub_connect_jetty`: whether there is a target jetty. -/
def umqUbConnectJetty (i : JettyIndex) : State × Bool :=
  if ans.importJetty i = false then (s, false)
  else if queue.rc ∧ ans.bindJetty i = false then ((s.importJetty i).unimportJetty i, false)
  else (s.importJetty i, true)

/-- The one for the flow control, if that is enabled. -/
def connectFlowControl : State × Bool :=
  if queue.fcEnabled then umqUbConnectJetty queue ans s .flowControl else (s, true)

/-- `umq_ub_disconnect_jetty` -/
def State.umqUbDisconnectJetty (i : JettyIndex) : State := s.unimportJetty i

/-- The process that has the memory. -/
def Info.key : RemoteKey := ⟨info.eid .io, info.pid, info.bindNamespace⟩

/-- `umq_ub_remote_tseg_info_get` -/
def umqUbRemoteTsegInfoGet : State × Int :=
  match s.refCnt info.key with
  | some refCnt => ({ s with refCnt := update s.refCnt info.key (some (refCnt + 1)) }, 0)
  | none =>
    if ans.eidNodeCreate then ({ s with refCnt := update s.refCnt info.key (some 1) }, 0)
    else (s, -umqErrEnomem)

/-- `umq_ub_remote_tseg_info_release` -/
def umqUbRemoteTsegInfoRelease (ctx : BindCtx) : State :=
  match ctx.tjetty .io with
  | none => s
  | some eid =>
    let key : RemoteKey := ⟨eid, ctx.remotePid, ctx.remoteNamespace⟩
    match s.refCnt key with
    | none => s
    | some refCnt =>
      { s with refCnt := update s.refCnt key (if refCnt - 1 = 0 then none else some (refCnt - 1)) }

/-- The context, with the namespace copied. -/
def Info.bindCtx : BindCtx where
  tjetty
    | .io => some (info.eid .io)
    | .flowControl => if queue.fcEnabled then some (info.eid .flowControl) else none
  remotePid := info.pid
  remoteNamespace := info.bindNamespace
  remoteNotifyAddr := info.notifyBuf

/-- From `DISCONNECT_FC_JETTY` on. -/
def disconnectFcJetty : State :=
  (if queue.fcEnabled then s.umqUbDisconnectJetty .flowControl else s).umqUbDisconnectJetty .io

/-- From `RESET_BIND_CTX` on. -/
def resetBindCtx : State := disconnectFcJetty queue { s with bindCtx := none }

/-- From `PUT_EID_ID` on. -/
def putEidId : State := resetBindCtx queue (umqUbRemoteTsegInfoRelease s (info.bindCtx queue))

/-- The steps once the node for the remote memory is there. -/
def startCredits : State × Int :=
  let s := { s with remoteRxBufSize :=
    if info.rxBufSize < queue.maxMsgSize then info.rxBufSize else queue.maxMsgSize }
  -- the return code is still that of the step before
  if queue.fcEnabled ∧ ans.creditReqSend ≠ 0 then (putEidId queue info s, 0)
  else ({ s with state := .ready }, 0)

/-- The steps once the jetties are connected and the receive queue is filled. -/
def importRemote : State × Int :=
  -- the return code is still that of the step before
  if umqUbNamespaceSize < info.namespaceLen.toNat then (resetBindCtx queue s, 0)
  else
    let r := umqUbRemoteTsegInfoGet info ans { s with bindCtx := some (info.bindCtx queue) }
    if r.2 ≠ 0 then (resetBindCtx queue r.1, r.2) else startCredits queue info ans r.1

/-- `umq_ub_bind_inner_impl` -/
def umqUbBindInnerImpl : State × Int :=
  if ans.calloc = false then (s, -umqErrEnomem)
  else
    let io := umqUbConnectJetty queue ans s .io
    if io.2 = false then (io.1, umqFail)
    else
      let fc := connectFlowControl queue ans io.1
      if fc.2 = false then (fc.1.umqUbDisconnectJetty .io, umqFail)
      else if queue.apiPro = false ∧ ans.prefillRxBuf ≠ 0 then
        (disconnectFcJetty queue fc.1, ans.prefillRxBuf)
      else importRemote queue info ans fc.1

end

/-! ## What is promised -/

/-- A queue whose bind info has passed `umq_ub_bind_info_check`: it is not bound.
A node with no references is not in the table. -/
structure UnboundQueue where
  state : QueueState
  remoteRxBufSize : UInt32
  imported : JettyIndex → ℕ
  refCnt : RemoteKey → Option UInt32
  referenced : ∀ key, refCnt key ≠ some 0

/-- A queue before the call. -/
def UnboundQueue.start (q : UnboundQueue) : State :=
  ⟨none, q.state, q.remoteRxBufSize, q.imported, q.refCnt⟩

/-- **All or nothing.** -/
structure AllOrNothing (s : State) (r : State × Int) : Prop where
  success : r.2 = 0 ↔ r.1.bindCtx.isSome ∧ r.1.state = .ready
  unbound : r.2 ≠ 0 → r.1.bindCtx = none
  released : r.2 ≠ 0 → r.1.imported = s.imported
  references : r.2 ≠ 0 → r.1.refCnt = s.refCnt

/-- The jetties are connected, and the receive queue is filled. -/
def Connected : Prop :=
  ans.calloc ∧ (∀ i, i = .io ∨ queue.fcEnabled → ans.importJetty i ∧ (queue.rc → ans.bindJetty i)) ∧
    (queue.apiPro ∨ ans.prefillRxBuf = 0)

end

/-! ## Taking and giving back -/

/-- Nothing is left of a call. -/
structure Restored (s s' : State) : Prop where
  bindCtx : s'.bindCtx = none
  imported : s'.imported = s.imported
  refCnt : s'.refCnt = s.refCnt

section

variable {queue : Queue} {ans : Answers} {s : State}

theorem unimportJetty_importJetty (s : State) (i : JettyIndex) :
    (s.importJetty i).unimportJetty i = s := by
  simp [State.importJetty, State.unimportJetty]

/-- The jetty is there just when it could be imported and bound. -/
theorem umqUbConnectJetty_eq (s : State) (i : JettyIndex) : umqUbConnectJetty queue ans s i =
      if ans.importJetty i ∧ (queue.rc → ans.bindJetty i) then (s.importJetty i, true)
      else (s, false) := by
  unfold umqUbConnectJetty
  rw [unimportJetty_importJetty]
  cases ans.importJetty i <;> cases queue.rc <;> cases ans.bindJetty i <;> rfl

/-- With the jetties connected. -/
def connected (queue : Queue) (s : State) : State :=
  if queue.fcEnabled then (s.importJetty .io).importJetty .flowControl else s.importJetty .io

theorem disconnectFcJetty_connected (s : State) :
    disconnectFcJetty queue (connected queue s) = s := by
  unfold disconnectFcJetty connected State.umqUbDisconnectJetty
  cases queue.fcEnabled with
  | false => exact unimportJetty_importJetty s .io
  | true =>
    show (((s.importJetty .io).importJetty .flowControl).unimportJetty .flowControl).unimportJetty
      .io = s
    rw [unimportJetty_importJetty, unimportJetty_importJetty]

/-- The jetty for the flow control is there, or it is not needed. -/
theorem connectFlowControl_eq (s : State) : connectFlowControl queue ans (s.importJetty .io) =
      if queue.fcEnabled → ans.importJetty .flowControl ∧ (queue.rc → ans.bindJetty .flowControl)
      then (connected queue s, true) else (s.importJetty .io, false) := by
  unfold connectFlowControl connected
  rw [umqUbConnectJetty_eq]
  cases queue.fcEnabled <;> simp

/-- **The first steps**: all of them succeed, or nothing has happened. -/
theorem umqUbBindInnerImpl_cases (queue : Queue) (info : Info) (ans : Answers) (s : State) :
    (Connected queue ans ∧
      umqUbBindInnerImpl queue info ans s = importRemote queue info ans (connected queue s)) ∨
    ¬Connected queue ans ∧ ∃ ret ≠ 0, umqUbBindInnerImpl queue info ans s = (s, ret) := by
  unfold umqUbBindInnerImpl Connected
  rw [umqUbConnectJetty_eq]
  by_cases hcalloc : ans.calloc = true
  swap
  · exact .inr ⟨fun h => hcalloc h.1, -umqErrEnomem, by decide, by simp [hcalloc]⟩
  by_cases hio : ans.importJetty .io ∧ (queue.rc → ans.bindJetty .io)
  swap
  · exact .inr ⟨fun h => hio (h.2.1 .io (.inl rfl)), umqFail, by decide, by simp [hcalloc, hio]⟩
  simp only [hcalloc, if_pos hio, connectFlowControl_eq]
  by_cases hfc : queue.fcEnabled → ans.importJetty .flowControl ∧
      (queue.rc → ans.bindJetty .flowControl)
  swap
  · refine .inr ⟨fun h => hfc fun hen => h.2.1 .flowControl (.inr hen), umqFail, by decide, ?_⟩
    rw [if_neg hfc]
    exact congrArg (·, umqFail) (unimportJetty_importJetty s .io)
  rw [if_pos hfc]
  by_cases hfill : queue.apiPro = false ∧ ans.prefillRxBuf ≠ 0
  · refine .inr ⟨fun h => ?_, ans.prefillRxBuf, hfill.2, ?_⟩
    · rcases h.2.2 with hpro | hret
      · exact Bool.false_ne_true (hfill.1.symm.trans hpro)
      · exact hfill.2 hret
    · simp [hfill, disconnectFcJetty_connected]
  · refine .inl ⟨⟨trivial, fun i hi => ?_, ?_⟩, by simp [hfill]⟩
    · cases i with
      | io => exact hio
      | flowControl => exact hfc (hi.resolve_left nofun)
    · by_contra h
      rw [not_or, Bool.not_eq_true] at h
      exact hfill h

/-- What was taken is given back, whatever else has changed. -/
theorem restored_resetBindCtx {t : State} (himported : t.imported = (connected queue s).imported)
    (hrefs : t.refCnt = s.refCnt) : Restored s (resetBindCtx queue t) := by
  have h : (disconnectFcJetty queue (connected queue s)).imported = s.imported := by
    rw [disconnectFcJetty_connected]
  unfold resetBindCtx disconnectFcJetty State.umqUbDisconnectJetty State.unimportJetty at *
  cases hfc : queue.fcEnabled <;> simp only [hfc] at h ⊢
  all_goals exact ⟨rfl, by rw [himported]; exact h, hrefs⟩

end

/-- Every failure is reported: where the return code is not set, nothing fails. -/
def Reported (queue : Queue) (info : Info) (ans : Answers) (q : UnboundQueue) : Prop :=
  Connected queue ans → info.namespaceLen.toNat ≤ umqUbNamespaceSize ∧
    (q.refCnt info.key ≠ none ∨ ans.eidNodeCreate → queue.fcEnabled → ans.creditReqSend = 0)

section

variable {queue : Queue} {info : Info} {q : UnboundQueue} {t : State}

theorem umqUbRemoteTsegInfoRelease_eq {refCnt : UInt32}
    (ht : t.refCnt = update q.refCnt info.key (some refCnt))
    (hback : q.refCnt info.key = if refCnt - 1 = 0 then none else some (refCnt - 1)) :
    umqUbRemoteTsegInfoRelease t (info.bindCtx queue) = { t with refCnt := q.refCnt } := by
  have hkey : t.refCnt ⟨info.eid .io, info.pid, info.bindNamespace⟩ = some refCnt := by
    rw [ht]
    exact update_self ..
  simp only [umqUbRemoteTsegInfoRelease, Info.bindCtx, hkey, ht, ← hback]
  exact congrArg (State.mk _ _ _ _) ((update_idem ..).trans (update_eq_self ..))

/-- The node for the remote memory is there, or cannot be made. -/
theorem umqUbRemoteTsegInfoGet_cases (info : Info) (ans : Answers) (ht : t.refCnt = q.refCnt) :
    (∃ refCnt, umqUbRemoteTsegInfoGet info ans t =
        ({ t with refCnt := update q.refCnt info.key (some refCnt) }, 0) ∧
      (q.refCnt info.key = if refCnt - 1 = 0 then none else some (refCnt - 1)) ∧
      (q.refCnt info.key ≠ none ∨ ans.eidNodeCreate)) ∨
    umqUbRemoteTsegInfoGet info ans t = (t, -umqErrEnomem) ∧
      ¬(q.refCnt info.key ≠ none ∨ ans.eidNodeCreate) := by
  unfold umqUbRemoteTsegInfoGet
  rw [ht]
  cases hkey : q.refCnt info.key with
  | none =>
    cases ans.eidNodeCreate with
    | false => exact .inr ⟨rfl, by simp⟩
    | true => exact .inl ⟨1, rfl, rfl, .inr rfl⟩
  | some refCnt =>
    refine .inl ⟨refCnt + 1, rfl, ?_, by simp⟩
    have hne : refCnt ≠ 0 := fun hzero => q.referenced info.key (hzero ▸ hkey)
    rw [UInt32.add_sub_cancel, if_neg hne]

/-- **What a call comes to**: the queue is bound, or nothing is left of the call. -/
theorem umqUbBindInnerImpl_outcome (queue : Queue) (info : Info) (ans : Answers)
    (q : UnboundQueue) :
    let r := umqUbBindInnerImpl queue info ans q.start
    (r.2 = 0 ∧ (r.1.bindCtx.isSome ∧ r.1.state = .ready) ∧ Reported queue info ans q) ∨
      Restored q.start r.1 ∧ (r.2 ≠ 0 ↔ Reported queue info ans q) := by
  intro r
  rcases umqUbBindInnerImpl_cases queue info ans q.start with
    ⟨hconn, heq⟩ | ⟨hconn, ret, hret, heq⟩
  swap
  · rw [show r = (q.start, ret) from heq]
    exact .inr ⟨⟨rfl, rfl, rfl⟩, fun _ h => absurd h hconn, fun _ => hret⟩
  rw [show r = _ from heq, importRemote]
  have hkeep : (connected queue q.start).refCnt = q.refCnt := by
    unfold connected
    cases queue.fcEnabled <;> rfl
  by_cases hlen : umqUbNamespaceSize < info.namespaceLen.toNat
  · rw [if_pos hlen]
    refine .inr ⟨restored_resetBindCtx rfl hkeep, fun h => absurd rfl h, fun h => ?_⟩
    exact absurd (h hconn).1 (not_le.mpr hlen)
  rw [if_neg hlen]
  have hlen := not_lt.mp hlen
  rcases umqUbRemoteTsegInfoGet_cases info ans
      (t := { connected queue q.start with bindCtx := some (info.bindCtx queue) }) hkeep with
    ⟨refCnt, hget, hback, hnode⟩ | ⟨hget, hnode⟩
  swap
  · have hret : -umqErrEnomem ≠ 0 := by decide
    rw [hget]
    exact .inr ⟨restored_resetBindCtx rfl hkeep, fun _ _ => ⟨hlen, fun h => absurd h hnode⟩,
      fun _ => hret⟩
  rw [hget, if_neg (not_not_intro rfl), startCredits]
  by_cases hcredits : queue.fcEnabled ∧ ans.creditReqSend ≠ 0
  · rw [if_pos hcredits, putEidId, umqUbRemoteTsegInfoRelease_eq rfl hback]
    refine .inr ⟨restored_resetBindCtx rfl rfl, fun h => absurd rfl h, fun h => ?_⟩
    exact absurd ((h hconn).2 hnode hcredits.1) hcredits.2
  · rw [if_neg hcredits]
    refine .inl ⟨rfl, ⟨rfl, rfl⟩, fun _ => ⟨hlen, fun _ hfc => ?_⟩⟩
    by_contra hne
    exact hcredits ⟨hfc, hne⟩

end

/-- **A bind is all or nothing just when nothing fails without a return code.** -/
theorem allOrNothing_umqUbBindInnerImpl_iff (queue : Queue) (info : Info) (ans : Answers)
    (q : UnboundQueue) :
    AllOrNothing q.start (umqUbBindInnerImpl queue info ans q.start) ↔
      Reported queue info ans q := by
  rcases umqUbBindInnerImpl_outcome queue info ans q with ⟨hret, hbound, hrep⟩ | ⟨hrest, hret⟩
  · refine iff_of_true ⟨iff_of_true hret hbound, ?_, ?_, ?_⟩ hrep
    all_goals exact fun h => absurd hret h
  · rw [← hret]
    constructor
    · intro h hzero
      have hsome := (h.success.mp hzero).1
      rw [hrest.bindCtx] at hsome
      cases hsome
    · intro h
      refine ⟨iff_of_false h fun hb => ?_, fun _ => hrest.bindCtx, fun _ => hrest.imported,
        fun _ => hrest.refCnt⟩
      rw [hrest.bindCtx] at hb
      cases hb.1

/-- A peer with a namespace. -/
def samplePeer (namespaceLen : UInt32) (h : 1 < namespaceLen.toNat) : Info where
  eid _ := 7
  notifyBuf := 0
  rxBufSize := 8192
  pid := 1
  namespaceLen := namespaceLen
  bindNamespace := [47]
  terminated := h

/-- **A queue that is not bound, with success returned**: the namespace is too
long, or the first credits cannot be asked for. -/
theorem exists_unbound_success :
    let q : UnboundQueue := ⟨.idle, 0, fun _ => 0, fun _ => none, fun _ => nofun⟩
    let long := umqUbBindInnerImpl ⟨true, true, false, 4096⟩ (samplePeer 257 (by decide)) {} q.start
    let noCredit := umqUbBindInnerImpl ⟨true, true, false, 4096⟩ (samplePeer 4 (by decide))
      { creditReqSend := -1 } q.start
    (long.2 = 0 ∧ long.1.bindCtx.isNone) ∧ noCredit.2 = 0 ∧ noCredit.1.bindCtx.isNone := by
  decide

end Umq.Bind
