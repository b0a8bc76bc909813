import UbsComm.Lib.Record
import UbsComm.Service.Channel

/-!
# The callback of an asynchronous call

Each asynchronous operation of a channel is given a callback of the user,
which it either hands on – to the timer of the request, from where it is run
when the request is answered, has failed or is out of time – or destroys.
Where one call becomes several posts, what is handed on is a wrapper: for
the fragments of a message one wrapper each, of which only the last runs the
callback, and for the rails of a one-sided transfer one wrapper for all,
which counts how often it is run.

What surrounds a call is unknown to it: what its inner steps answer –
allocations, flow control, the choice of an endpoint, the preparation of a
timer, a post – and what the other threads do in between, who complete the
requests posted. A call is a program over the objects it deals with
(`CallState`) and reads both from its `Surroundings`. Completions take one
step, but the wrapper that counts takes two: it adds one to its counter, and
then looks at the counter.

For the record, the state has how often the callback has been run, and
whether it or the wrapper that counts was used after it was released; and
the call notes what might be a reason for that (`Notice`).
-/

namespace Service

open Recorded

/-! ## Callbacks -/

/-- What a timer can be given to run. -/
inductive CallbackRef where
  /-- The callback of the user. -/
  | done
  /-- The wrapper of a fragment, which runs the callback if it is the last. -/
  | fragment (segIndex fragmentNum : ℕ)
  /-- The wrapper that the rails of a transfer share. -/
  | closure (k : ℕ)
deriving DecidableEq

/-- `AsyncClosureCallback`, the wrapper that counts. -/
structure AsyncClosureCallback where
  totalTime : ℕ := 0
  runTime : ℕ := 0
  released : Bool := false

/-- How far a timer is. -/
inductive PendingStage where
  /-- The number of the timer is in the store. -/
  | armed
  /-- `Run` of the shared wrapper has counted, and not looked yet. -/
  | counting
  | ended
deriving DecidableEq

/-- A timer, or another promise to run a callback. -/
structure Pending where
  cb : CallbackRef
  stage : PendingStage := .armed
deriving DecidableEq

/-- The objects a call deals with, and the record. -/
structure CallState where
  /-- The number of inner steps so far. -/
  steps : ℕ := 0
  pending : List Pending := []
  closures : ℕ → AsyncClosureCallback := fun _ => {}
  /-- The number of shared wrappers made so far. -/
  made : ℕ := 0
  /-- How often the callback of the user has been run. -/
  runs : ℕ := 0
  released : Bool := false
  /-- Whether the callback or a shared wrapper was used after its release. -/
  misused : Bool := false

/-- What may be a reason for a callback used wrongly. -/
inductive Notice where
  /-- A further attempt begins, although the callback has been released or
  is still awaited by a timer of an earlier attempt. -/
  | retried
  /-- The shared wrapper is deleted, although another rail is still to run
  it. -/
  | torn
  /-- The shared wrapper is run while another run of it has not ended. -/
  | overlapped
  /-- A post has failed whose timer had already been taken by the thread
  that sees to the time. -/
  | overtaken (cb : CallbackRef)
  /-- The failure is reported by running what is left to run. -/
  | reported
deriving DecidableEq

/-- A program on the objects of a call. -/
abbrev CallM := Recorded CallState Notice

namespace CallState

variable (s : CallState)

/-- How many others are still to do something with a shared wrapper. -/
def waiting (k : ℕ) : ℕ := s.pending.countP fun p => p.cb = .closure k ∧ p.stage ≠ .ended

/-- How many runs of a shared wrapper have not ended. -/
def counting (k : ℕ) : ℕ := s.pending.countP fun p => p = ⟨.closure k, .counting⟩

/-- All that was pending is over. -/
def Idle : Prop := ∀ p ∈ s.pending, p.stage = .ended
deriving Decidable

/-- A timer goes on. -/
def setStage (i : ℕ) (stage : PendingStage) : CallState :=
  { s with pending := s.pending.modify i fun p => { p with stage } }

/-- One more pending. -/
def push (cb : CallbackRef) : CallState := { s with pending := s.pending ++ [{ cb }] }

/-- `Run` of the callback of the user, which then deletes itself. -/
def runDone : CallState := { s with
    runs := s.runs + 1
    released := true
    misused := s.misused || s.released }

/-- `delete` of the callback of the user. -/
def deleteDone : CallState := { s with released := true, misused := s.misused || s.released }

/-- `new AsyncClosureCallback`. -/
def newClosure (finishCnt : ℕ) : CallState := { s with
    closures := Function.update s.closures s.made { totalTime := finishCnt }
    made := s.made + 1 }

/-- A wrapper is changed. -/
def setClosure (k : ℕ) (f : AsyncClosureCallback → AsyncClosureCallback) : CallState := { s with
    closures := Function.update s.closures k (f (s.closures k))
    misused := s.misused || (s.closures k).released }

/-- `Run` of the shared wrapper: `__sync_fetch_and_add`, … -/
def count (k : ℕ) : CallState := s.setClosure k fun c => { c with runTime := c.runTime + 1 }

/-- … and the rest of it. -/
def finish (k : ℕ) : CallState :=
  if (s.closures k).runTime < (s.closures k).totalTime then s.setClosure k id
  else (s.setClosure k fun c => { c with released := true }).runDone

end CallState

/-- The next step of what is pending. -/
def complete (i : ℕ) : CallM Unit := do
  let s ← get
  match s.pending[i]? with
  | some ⟨.done, .armed⟩ => modify fun s => (s.setStage i .ended).runDone
  | some ⟨.fragment segIndex fragmentNum, .armed⟩ =>
    modify fun s =>
      let s := s.setStage i .ended
      if segIndex = fragmentNum - 1 then s.runDone else s
  | some ⟨.closure k, .armed⟩ =>
    if s.counting k = 0 then modify fun s => (s.setStage i .counting).count k
    else do
      note .overlapped
      modify fun s => (s.setStage i .counting).count k
  | some ⟨.closure k, .counting⟩ => modify fun s => (s.setStage i .ended).finish k
  | _ => pure ()

/-- Some timers complete. -/
def completes : List ℕ → CallM Unit
  | [] => pure ()
  | i :: is => do complete i; completes is

/-! ## Inner steps -/

/-- What the inner steps of a call answer, one after the other, and what the
other threads complete before each. -/
structure Surroundings where
  answer : ℕ → SerCode
  others : ℕ → List ℕ

section Calls

variable (w : Surroundings)

/-- An inner step. -/
def ask : CallM SerCode := do
  let s ← get
  completes (w.others s.steps)
  modify fun s => { s with steps := s.steps + 1 }
  return w.answer s.steps

/-- A timer is given a callback. -/
def hold (cb : CallbackRef) : CallM ℕ := do
  let s ← get
  modify fun s => s.push cb
  return s.pending.length

/-- `DestroyCallback` -/
def destroyCallback : CallM Unit := modify CallState.deleteDone

/-- `DeleteCallBack` -/
def deleteCallBack : CallbackRef → CallM Unit
  | .done => destroyCallback
  | .fragment _ _ => pure ()
  | .closure k => do
    let s ← get
    if s.waiting k = 0 then modify fun s => s.setClosure k fun c => { c with released := true }
    else do
      note .torn
      modify fun s => s.setClosure k fun c => { c with released := true }

/-- `PrepareTimerContext`, with the timer it prepares. -/
def prepareTimer (cb : CallbackRef) : CallM (SerCode × ℕ) := do
  let result ← ask w
  if result ≠ .ok then return (result, 0)
  else do
    let timer ← hold cb
    return (.ok, timer)

/-- `DestroyTimerContext`. -/
def destroyTimer (timer : ℕ) : CallM Unit := do
  let s ← get
  match s.pending[timer]? with
  | some ⟨cb, .armed⟩ => do
    modify fun s => s.setStage timer .ended
    deleteCallBack cb
  | some ⟨cb, _⟩ => note (.overtaken cb)
  | none => pure ()

/-- `Run` by the caller. -/
def runHere (cb : CallbackRef) : CallM Unit := do
  let i ← hold cb
  complete i
  let _ ← ask w
  complete i

/-- `ProcessRemainCallback` -/
def processRemainCallback (cb : CallbackRef) : ℕ → CallM Unit
  | 0 => pure ()
  | remainNums + 1 => do
    runHere w cb
    processRemainCallback cb remainNums

/-! ## Two-sided operations -/

/-- The loop over the fragments, with `left` of them to go. -/
def asyncSplit (fragmentNum : ℕ) : ℕ → CallM SerCode
  | 0 => return .ok
  | left + 1 => do
    let segIndex := fragmentNum - (left + 1)
    let allocated ← ask w
    if allocated ≠ .ok then do
      destroyCallback
      return .newObjectFailed
    else do
      let prepared ← prepareTimer w (.fragment segIndex fragmentNum)
      if prepared.1 ≠ .ok then do
        destroyCallback
        return prepared.1
      else do
        let result ← ask w
        if result ≠ .ok then do
          destroyTimer prepared.2
          destroyCallback
          return result
        else asyncSplit fragmentNum left

/-- `AsyncSendSplitWithWorkerPoll` -/
def asyncSendSplitWithWorkerPoll (fragmentNum : ℕ) : CallM SerCode :=
  asyncSplit w fragmentNum fragmentNum

/-- `AsyncCallSplitWithWorkerPoll` -/
def asyncCallSplitWithWorkerPoll (fragmentNum : ℕ) : CallM SerCode :=
  asyncSplit w fragmentNum fragmentNum

/-- `AsyncReplySplitWithWorkerPoll` -/
def asyncReplySplitWithWorkerPoll (fragmentNum : ℕ) : CallM SerCode :=
  asyncSplit w fragmentNum fragmentNum

/-- The callback goes to a timer, and the request is posted. -/
def postWithTimer : CallM SerCode := do
  let prepared ← prepareTimer w .done
  if prepared.1 ≠ .ok then do
    destroyCallback
    return prepared.1
  else do
    let result ← ask w
    if result ≠ .ok then do
      destroyTimer prepared.2
      return result
    else return .ok

variable (ch : HcomChannelImp)

/-- `AsyncSendInner` and `AsyncCallInner`, which differ in how they split. -/
def asyncInner (split : ℕ → CallM SerCode) (size : UInt32) : CallM SerCode :=
  if ch.selfPoll then do
    destroyCallback
    return .invalidParam
  else do
    let result ← ask w
    if result ≠ .ok then do
      destroyCallback
      return result
    else
      let fragmentNum := (ch.estimateFragmentNum size true).toNat
      if fragmentNum > 1 then split fragmentNum else postWithTimer w

/-- `AsyncSendInner` -/
def asyncSendInner (size : UInt32) : CallM SerCode :=
  asyncInner w ch (asyncSendSplitWithWorkerPoll w) size

/-- `AsyncCallInner` -/
def asyncCallInner (size : UInt32) : CallM SerCode :=
  asyncInner w ch (asyncCallSplitWithWorkerPoll w) size

/-- A reply in one piece has no timer: the request has the callback. -/
def asyncReplyInner (size : UInt32) : CallM SerCode := do
  let result ← ask w
  if result ≠ .ok then do
    destroyCallback
    return result
  else
    let fragmentNum := (ch.estimateFragmentNum size false).toNat
    if fragmentNum > 1 then asyncReplySplitWithWorkerPoll w fragmentNum
    else do
      let result ← ask w
      if result ≠ .ok then do
        destroyCallback
        return result
      else do
        let _ ← hold .done
        return .ok

/-! ## One-sided operations -/

/-- `GetAsyncCB` -/
def getAsyncCB (multiNum : ℕ) : CallM (Option CallbackRef) :=
  if multiNum > 1 then do
    let allocated ← ask w
    if allocated ≠ .ok then return none
    else do
      let s ← get
      modify fun s => s.newClosure multiNum
      return some (.closure s.made)
  else return some .done

/-- The loop over the rails, with `left` of them to go. -/
def oneSideRails (multiNum : ℕ) (cb : CallbackRef) : ℕ → CallM SerCode
  | 0 => return .ok
  | left + 1 => do
    let i := multiNum - (left + 1)
    let result ← ask w
    if result ≠ .ok then do
      note .reported
      processRemainCallback w cb (multiNum - i)
      return result
    else do
      let prepared ← prepareTimer w cb
      if prepared.1 ≠ .ok then do
        note .reported
        processRemainCallback w cb (multiNum - i)
        return prepared.1
      else do
        let result ← ask w
        if result ≠ .ok then do
          destroyTimer prepared.2
          return result
        else oneSideRails multiNum cb left

/-- `OneSideAsyncWithWorkerPoll` -/
def oneSideAsyncWithWorkerPoll (size : UInt32) : CallM SerCode := do
  let multiNum := ch.multiNum size
  let cb ← getAsyncCB w multiNum
  match cb with
  | none => do
    destroyCallback
    return .newObjectFailed
  | some cb => oneSideRails w multiNum cb multiNum

/-- `OneSideInner` -/
def oneSideInner (size : UInt32) : CallM SerCode :=
  if ch.selfPoll then do
    destroyCallback
    return .invalidParam
  else oneSideAsyncWithWorkerPoll w ch size

/-- `OneSideSglAsyncWithWorkerPoll` -/
def oneSideSglAsyncWithWorkerPoll : CallM SerCode := do
  let result ← ask w
  if result ≠ .ok then do
    destroyCallback
    return result
  else postWithTimer w

/-- `OneSideSglInner` -/
def oneSideSglInner : CallM SerCode :=
  if ch.selfPoll then do
    destroyCallback
    return .invalidParam
  else oneSideSglAsyncWithWorkerPoll w

/-! ## The operations of a channel -/

/-- One round of the loop that every operation goes round. -/
def attempt (inner again : CallM SerCode) : CallM SerCode := do
  let result ← ask w
  if result ≠ .ok then do
    destroyCallback
    return result
  else do
    let result ← inner
    if result = .newObjectFailed then again else return result

/-- The loop, which goes on where an object could not be had; `retries` is
how often it is found that there is still time. -/
def attempts (inner : CallM SerCode) : ℕ → CallM SerCode
  | 0 => attempt w inner (return .newObjectFailed)
  | retries + 1 => attempt w inner do
    let s ← get
    if s.released = false ∧ s.Idle then attempts inner retries
    else do
      note .retried
      attempts inner retries

/-- `UBSHcomRequest` -/
structure UBSHcomRequest where
  address : UInt64
  size : UInt32

/-- The check of a request. -/
def requestCheck (req : UBSHcomRequest) : Bool := req.address ≠ 0 && req.size ≠ 0

variable (retries : ℕ)

namespace HcomChannelImp

/-- `Send`, which alone heeds the check of its request. -/
def send (req : UBSHcomRequest) : CallM SerCode :=
  if ¬requestCheck req then return .invalidParam
  else attempts w (asyncSendInner w ch req.size) retries

/-- `Call` -/
def call (req : UBSHcomRequest) : CallM SerCode :=
  attempts w (asyncCallInner w ch req.size) retries

/-- `Reply` -/
def reply (req : UBSHcomRequest) : CallM SerCode :=
  attempts w (asyncReplyInner w ch req.size) retries

/-- `Put` -/
def put (size : UInt32) : CallM SerCode :=
  attempts w (oneSideInner w ch size) retries

/-- `Get` -/
def get (size : UInt32) : CallM SerCode :=
  attempts w (oneSideInner w ch size) retries

/-- `PutV` -/
def putV : CallM SerCode := attempts w (oneSideSglInner w ch) retries

/-- `GetV` -/
def getV : CallM SerCode := attempts w (oneSideSglInner w ch) retries

end HcomChannelImp

/-- The operations of a channel. -/
inductive Operation where
  | send (req : UBSHcomRequest)
  | call (req : UBSHcomRequest)
  | reply (req : UBSHcomRequest)
  | put (size : UInt32)
  | get (size : UInt32)
  | putV
  | getV

/-- An operation is called. -/
def HcomChannelImp.invoke : Operation → CallM SerCode
  | .send req => ch.send w retries req
  | .call req => ch.call w retries req
  | .reply req => ch.reply w retries req
  | .put size => ch.put w retries size
  | .get size => ch.get w retries size
  | .putV => ch.putV w retries
  | .getV => ch.getV w retries

end Calls

end Service
