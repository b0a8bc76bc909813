import UbsComm.Lib.Execution

/-!
# The timer of an asynchronous request

A request that waits for its answer has a timer. Three places know it: the
context store, where the answer finds it by its number; the list of its
channel, where the thread finds it that sees the channel break; and a queue
of the periodic manager, where the periodic thread finds it when its time is
up or the request is done. Each place has a reference, and the timer goes
back to the pool when the last reference is dropped. Whoever takes the number
out of the store runs the callback, or destroys it.

A party is what is left of the procedures it is in, each on its timer, as a
list of instructions; a step is one instruction, and each is one access to a
timer or to one of the three places. The procedures are `prepareTimerContext`
and `destroyTimerContext` of the requester, `runRequestCallback` of the
response handler, `spliceComplete` of the thread that has put a message
together, `processIo` of the thread that sees the channel break, and
`processTimeOut` of the periodic manager.

For the record, a timer counts how often its callback has been used – run or
destroyed – and how often it has been returned, and the system whether a
timer was ever read or changed that had been returned. A timer that the pool
hands out again is a new one.
-/

namespace Service

open Function

/-! ## Timers -/

/-- `HcomAsyncCBState` -/
inductive HcomAsyncCBState where
  | init
  | finished
  | timeout
deriving DecidableEq

/-- `HcomServiceTimer`, with the thread that has made it. -/
structure HcomServiceTimer where
  channel : ℕ
  requester : ℕ
  /-- The second after which the time is up; `0` is never. -/
  timeout : ℕ
  callback : Bool := true
  seqNo : ℕ := 0
  state : HcomAsyncCBState := .init
  refCount : ℤ := 0
  /-- How often the callback has been run or destroyed. -/
  used : ℕ := 0
  /-- How often the timer has been returned to its pool. -/
  returned : ℕ := 0

namespace HcomServiceTimer

/-- The constructor: a negative time is never up. -/
def new (channel requester now : ℕ) (t : ℤ) : HcomServiceTimer where
  channel := channel
  requester := requester
  timeout := if t ≥ 0 then now + t.toNat else 0

/-- `IsTimeOut` -/
def isTimeOut (timer : HcomServiceTimer) (now : ℕ) : Bool :=
  timer.timeout ≠ 0 && now > timer.timeout

/-- `IsFinished` -/
def isFinished (timer : HcomServiceTimer) : Bool := timer.state = .finished

/-- `HcomServiceTimerCompare`, for the top of a queue: no other timer is due
earlier. -/
def before (a b : HcomServiceTimer) : Bool :=
  a.timeout < b.timeout || (a.timeout = b.timeout && a.seqNo ≤ b.seqNo)

end HcomServiceTimer

/-! ## Instructions -/

/-- What is shared out of a timer: its three references, and its callback,
which goes with the number in the store. -/
inductive Share where
  | store
  | list
  | queue
  | callback
deriving DecidableEq

/-- An access to the fields of a timer. Where the reference count changes,
the share is named that the reference is for. -/
inductive Access where
  | timeoutDump
  | markFinished
  | markTimeout
  /-- `RunCallBack`, … -/
  | runCallBack
  /-- … and the call of `Run` on the callback as it was read. -/
  | callbackRun
  | deleteCallBack
  | increaseRef (share : Share)
  | decreaseRef (share : Share)
deriving DecidableEq

/-- What an access does. -/
def HcomServiceTimer.access (timer : HcomServiceTimer) : Access → HcomServiceTimer
  | .timeoutDump => timer
  | .markFinished => { timer with state := .finished }
  | .markTimeout => { timer with state := .timeout }
  | .runCallBack | .deleteCallBack =>
    if timer.callback then
      { timer with callback := false, used := timer.used + 1 }
    else timer
  | .callbackRun => { timer with used := timer.used + 1 }
  | .increaseRef _ => { timer with refCount := timer.refCount + 1 }
  | .decreaseRef _ =>
    let timer := { timer with refCount := timer.refCount - 1 }
    if timer.refCount = 0 then { timer with returned := timer.returned + 1 }
    else timer

/-- The instructions of the procedures. -/
inductive Instr where
  | access (a : Access)
  /-- `if (EraseSeqNoWithRet())`: read the number, … -/
  | ifErased (body : List Access)
  /-- … and take it out of the store. -/
  | ifRemoved (no : ℕ) (body : List Access)
  | removeLinkedList
  | putAndGetSeqNo
  | setSeqNo (no : ℕ)
  /-- `VALIDATE` of `AddTimer`. -/
  | validate
  | addTimerCtx
  | push
  /-- The post of the request, after the timer is prepared. -/
  | post
  /-- `Return` of a timer that could not be prepared, … -/
  | returnObj
  /-- … whose callback the caller deletes. -/
  | deleteDone
deriving DecidableEq

/-- `PrepareTimerContext`, up to the number, … -/
def prepareTimerContext : List Instr := [.putAndGetSeqNo]

/-- … and from there on. -/
def prepareNumbered (no : ℕ) : List Instr :=
  [.access (.increaseRef .store), .setSeqNo no, .validate, .addTimerCtx,
    .access (.increaseRef .list), .push, .access (.increaseRef .queue), .post]

/-- No number, … -/
def putFailed : List Instr := [.returnObj, .deleteDone]

/-- … or a periodic manager that takes no timers: `EraseSeqNo` does not use
what it gets. -/
def addTimerFailed : List Instr := .ifErased [] :: putFailed

/-- `DestroyTimerContext` -/
def destroyTimerContext : List Instr :=
  [.ifErased [.deleteCallBack, .markFinished, .decreaseRef .store]]

/-- `RunRequestCallback` -/
def runRequestCallback : List Instr :=
  [.access .runCallBack, .access .markFinished, .access (.decreaseRef .store)]

/-- The end of `SpliceMessage`. -/
def spliceComplete : List Instr :=
  [.access .markFinished, .access .deleteCallBack, .access (.decreaseRef .store)]

/-- `PROCESS_IO`. -/
def processIo : List Instr :=
  [.ifErased [.timeoutDump, .markFinished, .runCallBack, .decreaseRef .store],
    .access (.decreaseRef .list)]

/-- `ProcessTimeOut`, and `ProcessCleanUp` alike. -/
def processTimeOut : List Instr :=
  [.ifErased [.timeoutDump, .markTimeout, .callbackRun, .decreaseRef .store],
    .removeLinkedList, .access (.decreaseRef .queue)]

/-! ## The system -/

/-- Who deals with timers. -/
inductive Party where
  | worker (p : ℕ)
  | periodic (tId : ℕ)
deriving DecidableEq

/-- The periodic thread first goes through its queues, and then through the
timers it has found there. -/
inductive PartyState where
  | scanning (handleQueue : List ℕ)
  | running (tasks : List (ℕ × List Instr))

/-- What is left to a party. -/
def PartyState.tasks : PartyState → List (ℕ × List Instr)
  | .scanning handleQueue => handleQueue.map fun t => (t, processTimeOut)
  | .running tasks => tasks

/-- The timers, their places and the parties. -/
structure TimerSystem where
  now : ℕ := 0
  needStop : Bool := false
  timers : ℕ → HcomServiceTimer := fun _ => .new 0 0 0 0
  /-- The number of timers made so far. -/
  made : ℕ := 0
  store : ℕ → Option ℕ := fun _ => none
  /-- For each channel the list of its timers. -/
  lists : ℕ → List ℕ := fun _ => []
  /-- For each periodic thread its queues. -/
  queues : ℕ → ℕ → List ℕ := fun _ _ => []
  nextIndex : ℕ → ℕ := fun _ => 0
  parties : Party → PartyState := fun _ => .running []
  /-- Whether a timer was read or changed that had been returned. -/
  misused : Bool := false

/-- `M_MAX_BATCH_NUM` -/
def maxBatchNum : ℕ := 16

section Steps

variable (threadCount : ℕ) (s : TimerSystem)

namespace TimerSystem

/-- A timer is read. -/
def touch (t : ℕ) : TimerSystem :=
  { s with misused := s.misused || decide ((s.timers t).returned ≠ 0) }

/-- A timer is changed. -/
def modify (t : ℕ) (f : HcomServiceTimer → HcomServiceTimer) : TimerSystem :=
  { s.touch t with timers := update s.timers t (f (s.timers t)) }

/-- A party goes on. -/
def setParty (p : Party) (st : PartyState) : TimerSystem :=
  { s with parties := update s.parties p st }

/-- A party goes on with a procedure, or with the next one after its end. -/
def goOn (p : Party) (t : ℕ) (prog : List Instr)
    (tasks : List (ℕ × List Instr)) : TimerSystem :=
  s.setParty p (.running (match prog with
    | [] => tasks
    | prog => (t, prog) :: tasks))

end TimerSystem

/-- The timers before and after a timer in a list. -/
def neighbours (t : ℕ) : List ℕ → List ℕ
  | a :: b :: l =>
    if a = t then [b]
    else if b = t then a :: l.take 1
    else neighbours t (b :: l)
  | _ => []

namespace TimerSystem

/-- An instruction that leaves nothing open, with what is then left of the
procedure. -/
def exec (t : ℕ) (rest : List Instr) : Instr → Option (TimerSystem × List Instr)
  | .access a => some (s.modify t (·.access a), rest)
  | .ifErased body => some (s.touch t, .ifRemoved (s.timers t).seqNo body :: rest)
  | .ifRemoved no body =>
    let erased := { s with store := update s.store no none }
    if s.store no = some t then some (erased, body.map .access ++ rest)
    else some (erased, rest)
  | .removeLinkedList =>
    let ch := (s.timers t).channel
    let s' := s.touch t
    if t ∈ s.lists ch then
      let s' := (neighbours t (s.lists ch)).foldl TimerSystem.touch s'
      some ({ s' with
          lists := update s.lists ch ((s.lists ch).erase t) },
        .access (.decreaseRef .list) :: rest)
    else some (s', rest)
  | .setSeqNo no => some (s.modify t fun timer => { timer with seqNo := no }, rest)
  | .validate =>
    if s.needStop = true ∨ (s.timers t).seqNo = 0 ∨ (s.timers t).callback = false then
      some (s.touch t, addTimerFailed)
    else some (s.touch t, rest)
  | .addTimerCtx =>
    let ch := (s.timers t).channel
    let s' := ((s.lists ch).take 1).foldl TimerSystem.touch (s.touch t)
    some ({ s' with lists := update s.lists ch (t :: s.lists ch) }, rest)
  | .push =>
    let tId := (s.timers t).seqNo % threadCount
    let i := s.nextIndex tId % maxBatchNum
    let queue := s.queues tId i
    -- the new timer is compared with those in the queue
    let s' := queue.foldl TimerSystem.touch (s.touch t)
    some ({ s' with
      queues := update s.queues tId (update (s.queues tId) i (t :: queue))
      nextIndex := update s.nextIndex tId (s.nextIndex tId + 1) }, rest)
  | .returnObj =>
    let timer := { s.timers t with returned := (s.timers t).returned + 1 }
    some ({ s with timers := update s.timers t timer }, rest)
  | .deleteDone =>
    let timer := { s.timers t with used := (s.timers t).used + 1 }
    some ({ s with timers := update s.timers t timer }, rest)
  | .putAndGetSeqNo | .post => none

/-- The top of a queue. -/
def IsTop (tId i t : ℕ) : Prop :=
  t ∈ s.queues tId i ∧ ∀ u ∈ s.queues tId i, (s.timers t).before (s.timers u) = true
deriving Decidable

/-- Done, or out of time. -/
def ready (t : ℕ) : Bool := (s.timers t).isFinished || (s.timers t).isTimeOut s.now

/-- The top of a queue is read and taken off. -/
def pop (tId i t : ℕ) : TimerSystem := { s.touch t with
    queues := update s.queues tId (update (s.queues tId) i ((s.queues tId i).erase t)) }

end TimerSystem

/-- What happens to the system. -/
inductive TimerAction where
  | tick
  | stop
  /-- `PrepareTimerContext` begins, with an object from the pool. -/
  | prepare (p channel : ℕ) (timeout : ℤ)
  /-- `PutAndGetSeqNo`, with the number it gives if it gives one. -/
  | put (p : ℕ) (no : Option ℕ)
  | post (p : ℕ) (ok : Bool)
  /-- A number is taken out of the store, by the response handler or, if
  `spliced`, at the end of `SpliceMessage`. -/
  | respond (p no : ℕ) (spliced : Bool)
  /-- `GetTimerCtx` of `ProcessIoInBroken`. -/
  | broken (p channel : ℕ)
  /-- `ProcessTimeOut` begins, … -/
  | scan (tId : ℕ)
  /-- … looks at the top of a queue, … -/
  | inspect (tId i t : ℕ)
  /-- … and goes through what it has found. -/
  | handle (tId : ℕ)
  /-- `ProcessCleanUp` takes the top of a queue. -/
  | cleanUp (tId i t : ℕ)
  | step (p : Party)

/-- One step. -/
def timerStep : TimerAction → Option TimerSystem
  | .tick => some { s with now := s.now + 1 }
  | .stop => some { s with needStop := true }
  | .prepare p channel timeout =>
    match s.parties (.worker p) with
    | .running [] =>
      some ({ s with
        timers := update s.timers s.made (.new channel p s.now timeout)
        made := s.made + 1 }.setParty (.worker p) (.running [(s.made, prepareTimerContext)]))
    | _ => none
  | .put p no =>
    match s.parties (.worker p) with
    | .running ((t, .putAndGetSeqNo :: _) :: tasks) =>
      match no with
      | none => some (s.goOn (.worker p) t putFailed tasks)
      | some no =>
        if s.store no = none then
          some ({ s with store := update s.store no (some t) }.goOn
            (.worker p) t (prepareNumbered no) tasks)
        else none
    | _ => none
  | .post p ok =>
    match s.parties (.worker p) with
    | .running ((t, .post :: rest) :: tasks) =>
      some (s.goOn (.worker p) t (if ok then rest else destroyTimerContext) tasks)
    | _ => none
  | .respond p no spliced =>
    match s.parties (.worker p) with
    | .running [] =>
      match s.store no with
      | none => some s
      | some t =>
        some ({ s with store := update s.store no none }.setParty
          (.worker p) (.running [(t, if spliced then spliceComplete else runRequestCallback)]))
    | _ => none
  | .broken p channel =>
    match s.parties (.worker p) with
    | .running [] =>
      some ({ (s.lists channel).foldl TimerSystem.touch s with
          lists := update s.lists channel [] }.setParty (.worker p)
        (.running ((s.lists channel).map fun t => (t, processIo))))
    | _ => none
  | .scan tId =>
    match s.parties (.periodic tId) with
    | .running [] => some (s.setParty (.periodic tId) (.scanning []))
    | _ => none
  | .inspect tId i t =>
    match s.parties (.periodic tId) with
    | .scanning handleQueue =>
      if s.IsTop tId i t then
        if s.ready t then
          some ((s.pop tId i t).setParty (.periodic tId) (.scanning (handleQueue ++ [t])))
        else some (s.touch t)
      else none
    | _ => none
  | .handle tId =>
    match s.parties (.periodic tId) with
    | .scanning handleQueue =>
      some (s.setParty (.periodic tId) (.running (PartyState.scanning handleQueue).tasks))
    | _ => none
  | .cleanUp tId i t =>
    match s.parties (.periodic tId) with
    | .running [] =>
      if s.needStop = true ∧ s.IsTop tId i t then
        some ((s.pop tId i t).setParty (.periodic tId) (.running [(t, processTimeOut)]))
      else none
    | _ => none
  | .step p =>
    match s.parties p with
    | .running ((t, i :: rest) :: tasks) =>
      (s.exec threadCount t rest i).map fun r => r.1.goOn p t r.2 tasks
    | _ => none

end Steps

/-- A run of the system, from its start. -/
def timerRun (threadCount : ℕ) (xs : List TimerAction) : Option TimerSystem :=
  Machine.run (timerStep threadCount) {} xs

end Service
